import Mathlib.Data.List.Basic
import Mathlib.Logic.Function.Basic

namespace Frost32.BlockTree

/-!
# The tree of nested blocks

A program with nested blocks is a sequence of events: a block is entered, the innermost open
block is left, or neither.  Blocks are numbered in the order in which they are entered; block
1 is the program itself and 0 stands for what is around it.

* `Walk` — the open blocks after a sequence of events, and the tree of all blocks so far.
* `Linked` — a list of open blocks, innermost first, each the child of the next.
* `Grows` — a later walk has the same tree, grown: `Walk.run_grows`.
* `Walk.nextChild` — the children of a block are entered in the order of the final tree;
  `Walk.counters` says which child comes next.
* `Linked.findUp` — searching up the parents is searching along the open blocks.
* `Balanced` — every block that is entered is left again: then the open blocks are the same at
  the end, and `Balanced.suffix` inside.
-/

inductive Event
  | enter | leave | other
  deriving DecidableEq

/-- The open blocks, innermost first: each has the next one as its parent, and parents have
    smaller numbers. -/
def Linked (parent : Nat → Nat) : List Nat → Prop
  | [] => True
  | v :: l => l.headD 0 < v ∧ parent v = l.headD 0 ∧ Linked parent l

theorem Linked.tail {parent : Nat → Nat} {l : List Nat} (h : Linked parent l) :
    Linked parent l.tail := by
  cases l with
  | nil => trivial
  | cons v l => exact h.2.2

/-- The innermost block has the largest number. -/
theorem Linked.le_head {parent : Nat → Nat} {v : Nat} {l : List Nat}
    (h : Linked parent (v :: l)) : ∀ u ∈ l, u < v := by
  induction l generalizing v with
  | nil =>
    intro u hu
    cases hu
  | cons w l ih =>
    intro u hu
    rcases List.mem_cons.mp hu with rfl | hu
    · exact h.1
    · exact Nat.lt_trans (ih h.2.2 u hu) h.1

/-- Only the parents of the listed blocks matter. -/
theorem Linked.congr {parent parent' : Nat → Nat} {l : List Nat} (h : Linked parent l)
    (heq : ∀ v ∈ l, parent' v = parent v) : Linked parent' l := by
  induction l with
  | nil => trivial
  | cons v l ih =>
    refine ⟨h.1, ?_, ih h.2.2 fun u hu => heq u (List.mem_cons_of_mem v hu)⟩
    rw [heq v List.mem_cons_self, h.2.1]

/-- The open blocks and the tree of all blocks entered so far. -/
structure Walk where
  scopes : List Nat
  made : Nat
  kids : Nat → List Nat
  parent : Nat → Nat
  linked : Linked parent scopes
  le_made : ∀ v ∈ scopes, v ≤ made
  kids_fresh : ∀ v, made < v → kids v = []
  kids_ne_nil : ∀ v ∈ scopes.tail, kids v ≠ []

namespace Walk

/-- The innermost open block. -/
def top (w : Walk) : Nat := w.scopes.headD 0

theorem top_le_made (w : Walk) : w.top ≤ w.made := by
  unfold top
  cases hs : w.scopes with
  | nil => exact Nat.zero_le _
  | cons v l => exact w.le_made v (by rw [hs]; exact List.mem_cons_self)

theorem top_notMem_tail (w : Walk) : w.top ∉ w.scopes.tail := by
  have hlinked := w.linked
  unfold top
  cases hs : w.scopes with
  | nil => exact List.not_mem_nil
  | cons v l =>
    rw [hs] at hlinked
    intro hmem
    exact Nat.lt_irrefl v (hlinked.le_head v hmem)

/-- Nothing entered yet but the program itself. -/
def init : Walk where
  scopes := [1]
  made := 1
  kids := Function.update (fun _ => []) 0 [1]
  parent := fun _ => 0
  linked := ⟨Nat.one_pos, rfl, trivial⟩
  le_made := by simp
  kids_fresh := by
    intro v hv
    exact Function.update_of_ne (by omega) ..
  kids_ne_nil := by simp

/-- Enter a new block inside the innermost open one. -/
def enter (w : Walk) : Walk where
  scopes := (w.made + 1) :: w.scopes
  made := w.made + 1
  kids := Function.update w.kids w.top (w.kids w.top ++ [w.made + 1])
  parent := Function.update w.parent (w.made + 1) w.top
  linked := by
    refine ⟨Nat.lt_succ_of_le w.top_le_made, Function.update_self .., ?_⟩
    apply w.linked.congr
    intro v hv
    have hle := w.le_made v hv
    exact Function.update_of_ne (by omega) ..
  le_made := by
    intro v hv
    rcases List.mem_cons.mp hv with rfl | hv
    · exact Nat.le_refl _
    · exact Nat.le_succ_of_le (w.le_made v hv)
  kids_fresh := by
    intro v hv
    have htop := w.top_le_made
    rw [Function.update_of_ne (by omega)]
    exact w.kids_fresh v (by omega)
  kids_ne_nil := by
    intro v hv
    by_cases htop : v = w.top
    · rw [htop, Function.update_self]
      simp
    · rw [Function.update_of_ne htop]
      apply w.kids_ne_nil v
      -- every open block but the innermost one is in the tail
      cases hs : w.scopes with
      | nil =>
        rw [List.tail_cons, hs] at hv
        cases hv
      | cons u l =>
        rw [List.tail_cons, hs] at hv
        rcases List.mem_cons.mp hv with rfl | hv
        · exact absurd (show v = w.top by rw [top, hs]; rfl) htop
        · exact hv

/-- Leave the innermost open block. -/
def leave (w : Walk) : Walk :=
  { w with
    scopes := w.scopes.tail
    linked := w.linked.tail
    le_made := fun v hv => w.le_made v (List.mem_of_mem_tail hv)
    kids_ne_nil := fun v hv => w.kids_ne_nil v (List.mem_of_mem_tail hv) }

def step (w : Walk) : Event → Walk
  | .enter => w.enter
  | .leave => w.leave
  | .other => w

/-- The walk after a sequence of events. -/
def run (w : Walk) (evs : List Event) : Walk := evs.foldl step w

theorem run_append (w : Walk) (evs evs' : List Event) :
    w.run (evs ++ evs') = (w.run evs).run evs' := List.foldl_append ..

theorem run_concat (w : Walk) (evs : List Event) (ev : Event) :
    w.run (evs ++ [ev]) = (w.run evs).step ev := by
  rw [run_append]
  rfl

/-- Events other than entering and leaving change nothing. -/
theorem run_of_other {evs : List Event} (h : ∀ ev ∈ evs, ev = .other) (w : Walk) :
    w.run evs = w := by
  induction evs with
  | nil => rfl
  | cons ev evs ih =>
    obtain rfl := h ev List.mem_cons_self
    exact ih fun ev' hev' => h ev' (List.mem_cons_of_mem _ hev')

/-- The tree of the second walk is that of the first, grown. -/
structure Grows (w w' : Walk) : Prop where
  made : w.made ≤ w'.made
  kids : ∀ v, w.kids v <+: w'.kids v
  parent : ∀ v, v ≤ w.made → w'.parent v = w.parent v

theorem Grows.refl (w : Walk) : Grows w w :=
  ⟨Nat.le_refl _, fun _ => List.prefix_rfl, fun _ _ => rfl⟩

theorem Grows.trans {w₁ w₂ w₃ : Walk} (h : Grows w₁ w₂) (h' : Grows w₂ w₃) : Grows w₁ w₃ where
  made := Nat.le_trans h.made h'.made
  kids := fun v => (h.kids v).trans (h'.kids v)
  parent := fun v hv => by
    rw [h'.parent v (Nat.le_trans hv h.made), h.parent v hv]

theorem step_grows (w : Walk) (ev : Event) : Grows w (w.step ev) := by
  cases ev with
  | enter =>
    refine ⟨Nat.le_succ _, ?_, ?_⟩
    · intro v
      show w.kids v <+: Function.update w.kids w.top _ v
      by_cases hv : v = w.top
      · rw [hv, Function.update_self]
        exact List.prefix_append ..
      · exact ⟨[], by rw [Function.update_of_ne hv, List.append_nil]⟩
    · intro v hv
      exact Function.update_of_ne (by omega) ..
  | leave => exact ⟨Nat.le_refl _, fun _ => List.prefix_rfl, fun _ _ => rfl⟩
  | other => exact .refl w

/-- **Later events only grow the tree.** -/
theorem run_grows (w : Walk) (evs : List Event) : Grows w (w.run evs) := by
  induction evs generalizing w with
  | nil => exact .refl w
  | cons ev evs ih => exact (w.step_grows ev).trans (ih (w.step ev))

/-- **Blocks are entered in the order of the final tree**: the block entered next is the
    child of the innermost open block at the number of its children so far. -/
theorem nextChild {w w' : Walk} (h : Grows w.enter w') :
    (w'.kids w.top)[(w.kids w.top).length]? = some (w.made + 1) := by
  obtain ⟨rest, hrest⟩ := h.kids w.top
  have hkids : w.enter.kids w.top = w.kids w.top ++ [w.made + 1] := Function.update_self ..
  rw [← hrest, hkids, List.append_assoc, List.getElem?_append_right (Nat.le_refl _),
    Nat.sub_self]
  rfl

/-- The open blocks stay linked in a later tree. -/
theorem linked_of_grows {w w' : Walk} (h : Grows w w') : Linked w'.parent w.scopes :=
  w.linked.congr fun v hv => h.parent v (w.le_made v hv)

/-- For each open block the number of its children so far; all but the innermost one do not
    count the child they are in. -/
def countersOf (kids : Nat → List Nat) : List Nat → List Nat
  | [] => []
  | v :: l => (kids v).length :: l.map fun u => (kids u).length - 1

/-- The counters of a second walk through the tree. -/
def counters (w : Walk) : List Nat := countersOf w.kids w.scopes

end Walk

namespace Walk

/-- The first counter is that of the innermost open block. -/
theorem exists_counters_eq {w : Walk} (hne : w.scopes ≠ []) :
    ∃ cs, w.counters = (w.kids w.top).length :: cs := by
  obtain ⟨v, l, hs⟩ := List.exists_cons_of_ne_nil hne
  refine ⟨l.map fun u => (w.kids u).length - 1, ?_⟩
  rw [counters, top, hs]
  rfl

theorem counters_enter (w : Walk) : w.enter.counters = 0 :: w.counters := by
  have hfresh : w.enter.kids (w.made + 1) = [] := by
    have htop := w.top_le_made
    show Function.update w.kids w.top _ (w.made + 1) = []
    rw [Function.update_of_ne (by omega)]
    exact w.kids_fresh _ (Nat.lt_succ_self _)
  show (w.enter.kids (w.made + 1)).length :: w.scopes.map (fun u => (w.enter.kids u).length - 1) = _
  rw [hfresh, counters]
  have htail := w.top_notMem_tail
  cases hs : w.scopes with
  | nil => rfl
  | cons v l =>
    have htop : w.top = v := by rw [top, hs]; rfl
    rw [hs, List.tail_cons, htop] at htail
    have hv : w.enter.kids v = w.kids v ++ [w.made + 1] := by
      show Function.update w.kids w.top _ v = _
      rw [htop, Function.update_self]
    -- the other open blocks keep their children
    have hl : ∀ u ∈ l, w.enter.kids u = w.kids u := by
      intro u hu
      show Function.update w.kids w.top _ u = _
      rw [htop]
      apply Function.update_of_ne
      intro he
      rw [he] at hu
      exact htail hu
    rw [List.map_cons, hv, List.length_append, List.length_singleton, Nat.add_sub_cancel,
      List.map_congr_left fun u hu => by rw [hl u hu]]
    rfl

/-- Leaving a block is counted by the block around it. -/
theorem counters_leave {w : Walk} {v u : Nat} {l : List Nat} (hs : w.scopes = v :: u :: l) :
    ∃ n cs, w.counters = (w.kids v).length :: n :: cs ∧ w.leave.counters = (n + 1) :: cs := by
  have hne : w.kids u ≠ [] := by
    apply w.kids_ne_nil
    rw [hs]
    exact List.mem_cons_self
  have hpos : 0 < (w.kids u).length := List.length_pos_iff.mpr hne
  refine ⟨(w.kids u).length - 1, l.map fun x => (w.kids x).length - 1, ?_, ?_⟩
  · rw [counters, hs]
    rfl
  · show countersOf w.kids w.scopes.tail = _
    rw [hs, Nat.sub_add_cancel hpos]
    rfl

/-- The counters of the blocks further out stay. -/
theorem counters_leave_of_eq {w : Walk} {m n : Nat} {cs : List Nat}
    (h : w.counters = m :: n :: cs) : w.leave.counters = (n + 1) :: cs := by
  rcases hs : w.scopes with _ | ⟨v, _ | ⟨u, l⟩⟩
  · rw [counters, hs] at h
    cases h
  · rw [counters, hs] at h
    cases h
  · obtain ⟨n', cs', hbefore, hafter⟩ := counters_leave hs
    cases h.symm.trans hbefore
    exact hafter

theorem counters_leave_of_singleton {w : Walk} {m : Nat} (h : w.counters = [m]) :
    w.leave.counters = [] := by
  rcases hs : w.scopes with _ | ⟨v, _ | ⟨u, l⟩⟩
  · rw [counters, hs] at h
    cases h
  · show countersOf w.kids w.scopes.tail = []
    rw [hs]
    rfl
  · rw [counters, hs] at h
    cases h

/-- A block that has been left is never open again. -/
theorem notMem_scopes_run {w : Walk} {v : Nat} (hv : v ≤ w.made) (hout : v ∉ w.scopes)
    (evs : List Event) : v ∉ (w.run evs).scopes := by
  induction evs generalizing w with
  | nil => exact hout
  | cons ev evs ih =>
    cases ev with
    | enter =>
      apply ih (w := w.enter) (Nat.le_succ_of_le hv)
      intro hmem
      rcases List.mem_cons.mp hmem with he | hmem
      · omega
      · exact hout hmem
    | leave => exact ih (w := w.leave) hv fun hmem => hout (List.mem_of_mem_tail hmem)
    | other => exact ih hv hout

end Walk

/-! ### Balanced sequences -/

/-- Every block that is entered is left again, and no other. -/
inductive Balanced : List Event → Prop
  | nil : Balanced []
  | other {evs : List Event} : Balanced evs → Balanced (.other :: evs)
  | block {evs evs' : List Event} : Balanced evs → Balanced evs' →
      Balanced (.enter :: (evs ++ .leave :: evs'))

namespace Balanced

theorem append {evs evs' : List Event} (h : Balanced evs) (h' : Balanced evs') :
    Balanced (evs ++ evs') := by
  induction h with
  | nil => exact h'
  | other _ ih => exact .other ih
  | block hin _ _ ih =>
    rw [List.cons_append, List.append_assoc, List.cons_append]
    exact .block hin ih

/-- After it the open blocks are those before. -/
theorem scopes_run {evs : List Event} (h : Balanced evs) (w : Walk) :
    (w.run evs).scopes = w.scopes := by
  induction h generalizing w with
  | nil => rfl
  | other _ ih => exact ih w
  | @block evs evs' _ _ ih ih' =>
    have hsplit : w.run (.enter :: (evs ++ .leave :: evs')) =
        (((w.enter.run evs).leave).run evs') := by
      show w.enter.run (evs ++ .leave :: evs') = _
      rw [Walk.run_append]
      rfl
    rw [hsplit, ih']
    show (w.enter.run evs).scopes.tail = w.scopes
    rw [ih]
    rfl

/-- After it the counters are those before, but for more children of the innermost block. -/
theorem counters_run {evs : List Event} (h : Balanced evs) {w : Walk} {n : Nat} {cs : List Nat}
    (hw : w.counters = n :: cs) : ∃ m, (w.run evs).counters = m :: cs := by
  induction h generalizing w n cs with
  | nil => exact ⟨n, hw⟩
  | other _ ih => exact ih hw
  | @block evs evs' _ _ ih ih' =>
    have hsplit : w.run (.enter :: (evs ++ .leave :: evs')) =
        (((w.enter.run evs).leave).run evs') := by
      show w.enter.run (evs ++ .leave :: evs') = _
      rw [Walk.run_append]
      rfl
    have henter : w.enter.counters = 0 :: n :: cs := by rw [Walk.counters_enter, hw]
    obtain ⟨m, hm⟩ := ih henter
    rw [hsplit]
    exact ih' (Walk.counters_leave_of_eq hm)

/-- **A block that is entered and left counts once.** -/
theorem counters_block {evs : List Event} (h : Balanced evs) {w : Walk} {n : Nat} {cs : List Nat}
    (hw : w.counters = n :: cs) :
    ∃ m, (w.enter.run evs).counters = m :: n :: cs ∧
      (w.enter.run evs).leave.counters = (n + 1) :: cs := by
  have henter : w.enter.counters = 0 :: n :: cs := by rw [Walk.counters_enter, hw]
  obtain ⟨m, hm⟩ := h.counters_run henter
  exact ⟨m, hm, Walk.counters_leave_of_eq hm⟩

/-- **Inside it the open blocks are those before and further ones.** -/
theorem suffix {evs : List Event} (h : Balanced evs) {p q : List Event} (hpq : evs = p ++ q)
    (w : Walk) : w.scopes <:+ (w.run p).scopes := by
  induction h generalizing p q w with
  | nil =>
    rw [(List.append_eq_nil_iff.mp hpq.symm).1]
    exact List.suffix_rfl
  | other _ ih =>
    cases p with
    | nil => exact List.suffix_rfl
    | cons ev p =>
      obtain ⟨rfl, hrest⟩ := List.cons.inj hpq
      exact ih hrest w
  | @block evs evs' hin _ ih ih' =>
    cases p with
    | nil => exact List.suffix_rfl
    | cons ev p =>
      obtain ⟨rfl, hrest⟩ := List.cons.inj hpq
      have henter : w.scopes <:+ w.enter.scopes := List.suffix_cons ..
      -- the prefix ends inside the block or after it
      rcases List.append_eq_append_iff.mp hrest with ⟨r, hp, hr⟩ | ⟨r, hevs, -⟩
      · cases r with
        | nil =>
          rw [List.append_nil] at hp
          exact henter.trans (ih (q := []) (by rw [hp, List.append_nil]) w.enter)
        | cons ev' r =>
          obtain ⟨rfl, hrest'⟩ := List.cons.inj hr
          have hrun : w.run (.enter :: p) = ((w.enter.run evs).leave).run r := by
            show w.enter.run p = _
            rw [hp, Walk.run_append]
            rfl
          have hleft : (w.enter.run evs).leave.scopes = w.scopes := by
            show (w.enter.run evs).scopes.tail = _
            rw [hin.scopes_run]
            rfl
          rw [hrun, ← hleft]
          exact ih' hrest' _
      · exact henter.trans (ih hevs w.enter)

end Balanced

/-- Two lists of open blocks that share a block agree from there on outwards. -/
theorem Linked.eq_of_suffix {parent : Nat → Nat} {v : Nat} {q r : List Nat}
    (hq : Linked parent (v :: q)) (hr : Linked parent (v :: r)) : q = r := by
  induction q generalizing v r with
  | nil =>
    cases r with
    | nil => rfl
    | cons u r =>
      have hzero : u = 0 := hr.2.1.symm.trans hq.2.1
      have hpos := hr.2.2.1
      omega
  | cons u q ih =>
    cases r with
    | nil =>
      have hzero : u = 0 := hq.2.1.symm.trans hr.2.1
      have hpos := hq.2.2.1
      omega
    | cons x r =>
      have hux : u = x := hq.2.1.symm.trans hr.2.1
      subst hux
      rw [ih hq.2.2 hr.2.2]

theorem Linked.of_suffix {parent : Nat → Nat} {l l' : List Nat} (h : Linked parent l)
    (hs : l' <:+ l) : Linked parent l' := by
  obtain ⟨p, rfl⟩ := hs
  induction p with
  | nil => exact h
  | cons v p ih => exact ih h.2.2

/-! ### Searching upwards -/

/-- Search from a block up its parents for one that passes a test, with at most `fuel`
    steps. -/
def findUp (parent : Nat → Nat) (p : Nat → Bool) : (fuel v : Nat) → Option Nat
  | 0, _ => none
  | fuel + 1, v =>
    if v = 0 then none else if p v then some v else findUp parent p fuel (parent v)

/-- **Searching up the parents is searching along the open blocks.** -/
theorem Linked.findUp {parent : Nat → Nat} {l : List Nat} (h : Linked parent l)
    (p : Nat → Bool) {fuel : Nat} (hfuel : l.headD 0 ≤ fuel) :
    BlockTree.findUp parent p fuel (l.headD 0) = l.find? p := by
  induction l generalizing fuel with
  | nil =>
    cases fuel with
    | zero => rfl
    | succ fuel => rfl
  | cons v l ih =>
    obtain ⟨hlt, hparent, hl⟩ := h
    rw [List.headD_cons] at hfuel ⊢
    cases fuel with
    | zero => omega
    | succ fuel =>
      rw [BlockTree.findUp, if_neg (by omega), List.find?_cons]
      cases hp : p v with
      | true => rfl
      | false =>
        rw [if_neg (by decide), hparent]
        exact ih hl (by omega)

end Frost32.BlockTree
