import Frost32.Asm.Scopes

namespace Frost32.Asm

open BlockTree ScopeTable Fallible

/-!
# The labels in the two passes

Pass 0 makes the definitions of all labels in source order while it builds the tree of
scopes; pass 1 walks through the finished tree and makes them again.

* `labelDefsAt` — the labels of a program as definitions: blocks, name and address, the
  address being that of a `Placing`.
* `PassZeroAt`, `PassOneAt` — the symbol table, the current scope and the stack of child
  numbers at a place of the program in either pass.
* `passZeroAt_afterItems`, `passOneAt_afterItems` — **they hold at every place that a pass
  gets to**, with the addresses `pcAt` that the passes give to the places.
* `passZero_afterItems`, `passOne_afterItems` — the same with the addresses of the layout, where
  no `.org` or `.space` uses an identifier.
-/

/-! ### Labels as definitions -/

abbrev LabelDef := Def Nat String (BitVec 64)

/-- Gives an address to each place of a program, named by the items before it. -/
abbrev Placing := List Item → BitVec 64

section Placings

variable (addr : Placing)

/-- A label that stands after a prefix of the program. -/
def labelDefAt (pre : List Item) (n : IdentName) : LabelDef := ⟨scopesAfter pre, n.text, addr pre⟩

/-- The labels of items that stand after a prefix. -/
def defsFromAt (pre : List Item) : List Item → List LabelDef
  | [] => []
  | .label n :: rest => labelDefAt addr pre n :: defsFromAt (pre ++ [.label n]) rest
  | it :: rest => defsFromAt (pre ++ [it]) rest

def labelDefsAt (items : List Item) : List LabelDef := defsFromAt addr [] items

theorem defsFromAt_cons {x : Item} (hx : ∀ n, x ≠ .label n) (pre rest : List Item) :
    defsFromAt addr pre (x :: rest) = defsFromAt addr (pre ++ [x]) rest := by
  cases x with
  | label n => exact absurd rfl (hx n)
  | _ => rfl

theorem defsFromAt_append (pre xs ys : List Item) :
    defsFromAt addr pre (xs ++ ys) =
      defsFromAt addr pre xs ++ defsFromAt addr (pre ++ xs) ys := by
  induction xs generalizing pre with
  | nil =>
    rw [List.append_nil]
    rfl
  | cons x xs ih =>
    have hrest := ih (pre ++ [x])
    rw [List.append_assoc] at hrest
    cases x with
    | label n => exact congrArg (labelDefAt addr pre n :: ·) hrest
    | _ => exact hrest

theorem labelDefsAt_append (pre post : List Item) :
    labelDefsAt addr (pre ++ post) = labelDefsAt addr pre ++ defsFromAt addr pre post :=
  defsFromAt_append ..

theorem labelDefsAt_concat_label (pre : List Item) (n : IdentName) :
    labelDefsAt addr (pre ++ [.label n]) = labelDefsAt addr pre ++ [labelDefAt addr pre n] :=
  labelDefsAt_append ..

/-- The definitions before and after a label. -/
theorem labelDefsAt_split {items pre post : List Item} {n : IdentName}
    (h : items = pre ++ .label n :: post) :
    labelDefsAt addr items =
      labelDefsAt addr pre ++ labelDefAt addr pre n ::
        defsFromAt addr (pre ++ [.label n]) post := by
  rw [h]
  exact labelDefsAt_append ..

variable {addr}

/-- Every definition is that of a label. -/
theorem exists_label_of_defsFromAt {pre items : List Item} {ds₁ ds₂ : List LabelDef}
    {d : LabelDef} (h : defsFromAt addr pre items = ds₁ ++ d :: ds₂) :
    ∃ pre' n post, items = pre' ++ .label n :: post ∧ ds₁ = defsFromAt addr pre pre' ∧
      d = labelDefAt addr (pre ++ pre') n ∧
      ds₂ = defsFromAt addr (pre ++ pre' ++ [.label n]) post := by
  induction items generalizing pre ds₁ with
  | nil =>
    cases ds₁ with
    | nil => cases h
    | cons => cases h
  | cons x items ih =>
    -- the definition comes from a later item than the first
    have hskip : ∀ {ds₁ : List LabelDef}, defsFromAt addr (pre ++ [x]) items = ds₁ ++ d :: ds₂ →
        ∃ pre' n post, items = pre' ++ .label n :: post ∧
          ds₁ = defsFromAt addr (pre ++ [x]) pre' ∧
          d = labelDefAt addr (pre ++ (x :: pre')) n ∧
          ds₂ = defsFromAt addr (pre ++ (x :: pre') ++ [.label n]) post := by
      intro ds₁ h
      obtain ⟨pre', n, post, hitems, hbefore, hd, hafter⟩ := ih h
      refine ⟨pre', n, post, hitems, hbefore, ?_, ?_⟩
      · rw [hd, List.append_assoc]
        rfl
      · rw [hafter, List.append_assoc pre [x]]
        rfl
    -- only a label adds a definition
    by_cases hx : ∃ m, x = .label m
    · obtain ⟨m, rfl⟩ := hx
      have hcons : defsFromAt addr pre (.label m :: items) =
        labelDefAt addr pre m :: defsFromAt addr (pre ++ [.label m]) items := rfl
      rw [hcons] at h
      cases ds₁ with
      | nil =>
        cases h
        refine ⟨[], m, items, rfl, rfl, ?_, ?_⟩
        · rw [List.append_nil]
        · rw [List.append_nil]
      | cons d₁ ds₁ =>
        have hd₁ : labelDefAt addr pre m = d₁ := (List.cons.inj h).1
        obtain ⟨pre', n, post, hitems, hbefore, hd, hafter⟩ := hskip (List.cons.inj h).2
        refine ⟨.label m :: pre', n, post, by rw [hitems]; rfl, ?_, hd, hafter⟩
        rw [← hd₁, hbefore]
        rfl
    · have hx' : ∀ m, x ≠ .label m := fun m hm => hx ⟨m, hm⟩
      rw [defsFromAt_cons addr hx'] at h
      obtain ⟨pre', n, post, hitems, hbefore, hd, hafter⟩ := hskip h
      refine ⟨x :: pre', n, post, by rw [hitems]; rfl, ?_, hd, hafter⟩
      rw [defsFromAt_cons addr hx', hbefore]

theorem exists_label_of_labelDefsAt {items : List Item} {ds₁ ds₂ : List LabelDef} {d : LabelDef}
    (h : labelDefsAt addr items = ds₁ ++ d :: ds₂) :
    ∃ pre n post, items = pre ++ .label n :: post ∧ ds₁ = labelDefsAt addr pre ∧
      d = labelDefAt addr pre n ∧ ds₂ = defsFromAt addr (pre ++ [.label n]) post :=
  exists_label_of_defsFromAt h

/-- Only the addresses of places of the program matter. -/
theorem labelDefsAt_congr {addr' : Placing} {items : List Item}
    (h : ∀ pre post, items = pre ++ post → addr pre = addr' pre) :
    labelDefsAt addr items = labelDefsAt addr' items := by
  induction items using List.reverseRecOn with
  | nil => rfl
  | append_singleton items it ih =>
    have hbefore : labelDefsAt addr items = labelDefsAt addr' items := by
      apply ih
      intro pre post hitems
      exact h pre (post ++ [it]) (by rw [hitems, List.append_assoc])
    rw [labelDefsAt_append, labelDefsAt_append, hbefore]
    cases it with
    | label n =>
      show _ ++ [labelDefAt addr items n] = _ ++ [labelDefAt addr' items n]
      rw [labelDefAt, labelDefAt, h items _ rfl]
    | _ => rfl

end Placings

/-! ### The state at a place of the program -/

/-- The address that a pass gives to each place that it gets to. -/
def pcAt (showWords : Bool) (program : Program) (p : Nat) : Placing := fun pre =>
  match afterItems showWords program p pre with
  | .ok s => s.pc.curr
  | .error _ => 0

theorem pcAt_eq {showWords : Bool} {program : Program} {p : Nat} {pre : List Item}
    {s : Assembler} (h : afterItems showWords program p pre = .ok s) :
    pcAt showWords program p pre = s.pc.curr := by
  rw [pcAt, h]

/-- Pass 0 has built the tree of the blocks so far and defined the labels so far. -/
structure PassZeroAt (addr : Placing) (pre : List Item) (s : Assembler) : Prop where
  represents : Represents s.symTbl (walkAfter pre) (defineAll empty (labelDefsAt addr pre))
  curr : s.currScopeNode = (scopesAfter pre).headD 0
  stack : s.scopeChildNumStack = [0]

/-- Pass 1 is in the same block of the finished tree, the top of its stack is the number of
    the next child, and it has defined the labels so far once more. -/
structure PassOneAt (addr₀ addr₁ : Placing) (items pre : List Item) (s : Assembler) : Prop where
  represents : Represents s.symTbl (walkAfter items)
    (defineAll (defineAll empty (labelDefsAt addr₀ items)) (labelDefsAt addr₁ pre))
  curr : s.currScopeNode = (scopesAfter pre).headD 0
  stack : s.scopeChildNumStack = (walkAfter pre).counters

/-- A plain item leaves the scopes and the labels alone. -/
theorem scopes_of_plain (addr : Placing) {it : Item} (h : it.plain = true) (pre : List Item) :
    walkAfter (pre ++ [it]) = walkAfter pre ∧
      labelDefsAt addr (pre ++ [it]) = labelDefsAt addr pre := by
  constructor
  · rw [walkAfter_concat]
    cases it with
    | enter | leave | label n => cases h
    | _ => rfl
  · rw [labelDefsAt_append]
    cases it with
    | enter | leave | label n => cases h
    | _ => exact List.append_nil _

theorem scopes_of_label (n : IdentName) (pre : List Item) :
    walkAfter (pre ++ [.label n]) = walkAfter pre := by
  rw [walkAfter_concat]
  rfl

/-- Scopes define nothing. -/
theorem labelDefsAt_concat_enter (addr : Placing) (pre : List Item) :
    labelDefsAt addr (pre ++ [.enter]) = labelDefsAt addr pre := by
  rw [labelDefsAt_append]
  exact List.append_nil _

theorem labelDefsAt_concat_leave (addr : Placing) (pre : List Item) :
    labelDefsAt addr (pre ++ [.leave]) = labelDefsAt addr pre := by
  rw [labelDefsAt_append]
  exact List.append_nil _

/-- The blocks of a prefix are linked in the tree of the whole program. -/
theorem linked_scopesAfter {items pre post : List Item} (hitems : items = pre ++ post) :
    Linked (walkAfter items).parent (scopesAfter pre) ∧
      ∀ v ∈ scopesAfter pre, v ≤ (walkAfter items).made := by
  have hgrows : Walk.Grows (walkAfter pre) (walkAfter items) := by
    rw [hitems]
    exact walkAfter_grows pre post
  refine ⟨Walk.linked_of_grows hgrows, ?_⟩
  intro v hv
  exact Nat.le_trans ((walkAfter pre).le_made v hv) hgrows.made

/-- The parent of the innermost block is the innermost block after it has been left. -/
theorem parent_of_linked {parent : Nat → Nat} {scopes : List Nat} (h : Linked parent scopes)
    (hne : scopes ≠ []) : parent (scopes.headD 0) = scopes.tail.headD 0 := by
  cases scopes with
  | nil => exact absurd rfl hne
  | cons v l => exact h.2.1

/-! ### Pass 0 -/

namespace PassZeroAt

variable {addr : Placing} {pre : List Item} {s t : Assembler}

theorem plain (h : PassZeroAt addr pre s) {it : Item} (hplain : it.plain = true)
    (hstep : stepItem it s = .ok t) : PassZeroAt addr (pre ++ [it]) t := by
  obtain ⟨ef, -, rfl⟩ := stepItem_plain hplain hstep
  obtain ⟨hwalk, hdefs⟩ := scopes_of_plain addr hplain pre
  have hscopes : scopesAfter (pre ++ [it]) = scopesAfter pre := congrArg Walk.scopes hwalk
  rw [s.perform_eq ef]
  constructor
  · rw [hwalk, hdefs]
    exact h.represents
  · rw [hscopes]
    exact h.curr
  · exact h.stack

/-- Pass 0 makes the scope. -/
theorem enter (h : PassZeroAt addr pre s) (hpass : s.pass = 0)
    (hstep : stepItem .enter s = .ok t) : PassZeroAt addr (pre ++ [.enter]) t := by
  rcases stepItem_enter hstep with ⟨-, rfl⟩ | ⟨hne, -⟩
  · constructor
    · rw [walkAfter_concat, labelDefsAt_concat_enter, h.curr]
      exact h.represents.mkscope
    · show s.symTbl.made + 1 = (walkAfter (pre ++ [.enter])).scopes.headD 0
      rw [walkAfter_concat, h.represents.made]
      rfl
    · exact h.stack
  · exact absurd hpass hne

theorem leave (h : PassZeroAt addr pre s) (hpass : s.pass = 0)
    (hstep : stepItem .leave s = .ok t) : PassZeroAt addr (pre ++ [.leave]) t := by
  rcases stepItem_leave hstep with ⟨-, hcurr, rfl⟩ | ⟨hne, -⟩
  · constructor
    · rw [walkAfter_concat, labelDefsAt_concat_leave]
      exact h.represents.leave
    · show (s.symTbl.node s.currScopeNode).parent =
        (walkAfter (pre ++ [.leave])).scopes.headD 0
      rw [walkAfter_concat, h.represents.parent, h.curr]
      apply parent_of_linked (walkAfter pre).linked
      -- no block can be left that has not been entered
      intro hnil
      rw [h.curr, scopesAfter, hnil] at hcurr
      exact hcurr rfl
    · exact h.stack
  · exact absurd hpass hne

theorem label (h : PassZeroAt addr pre s) (hpc : s.pc.curr = addr pre) {n : IdentName}
    (hstep : stepItem (.label n) s = .ok t) : PassZeroAt addr (pre ++ [.label n]) t := by
  obtain ⟨-, v, tbl, hfind, rfl⟩ := stepItem_label hstep
  have hlinked := (walkAfter pre).linked
  rw [h.curr] at hfind
  constructor
  · rw [scopes_of_label, labelDefsAt_concat_label, defineAll_concat, hpc]
    exact (h.represents.label hlinked (walkAfter pre).le_made hfind (addr pre)).2
  · show s.currScopeNode = (walkAfter (pre ++ [.label n])).scopes.headD 0
    rw [scopes_of_label]
    exact h.curr
  · exact h.stack

theorem step (h : PassZeroAt addr pre s) (hpass : s.pass = 0) (hpc : s.pc.curr = addr pre)
    {it : Item} (hstep : stepItem it s = .ok t) : PassZeroAt addr (pre ++ [it]) t := by
  cases hplain : it.plain with
  | true => exact h.plain hplain hstep
  | false =>
    cases it with
    | enter => exact h.enter hpass hstep
    | leave => exact h.leave hpass hstep
    | label n => exact h.label hpc hstep
    | _ => cases hplain

end PassZeroAt

theorem passZeroAt_passStart (addr : Placing) {showWords : Bool} {program : Program}
    {s : Assembler} (h : passStart showWords program 0 = .ok s) : PassZeroAt addr [] s := by
  cases h
  constructor
  · exact represents_init
  · rfl
  · rfl

/-- **Pass 0 at every place that it gets to.** -/
theorem passZeroAt_afterItems {showWords : Bool} {program : Program} {pre post : List Item}
    (hitems : program.items = pre ++ post) {s : Assembler}
    (h : afterItems showWords program 0 pre = .ok s) :
    PassZeroAt (pcAt showWords program 0) pre s := by
  obtain ⟨s₀, hs₀, h⟩ := bind_eq_ok.mp h
  have hinv : PassZeroAt (pcAt showWords program 0) pre s ∧
      afterItems showWords program 0 pre = .ok s := by
    refine invariant (P := fun pre (u : Assembler) =>
        PassZeroAt (pcAt showWords program 0) pre u ∧ afterItems showWords program 0 pre = .ok u)
      ⟨passZeroAt_passStart _ hs₀, hs₀⟩ ?_ hitems h
    intro pre it post u v hxs hu hv
    obtain ⟨hu, hafter⟩ := hu
    exact ⟨hu.step (modes_afterItems hafter).1 (pcAt_eq hafter).symm hv,
      afterItems_concat hafter hv⟩
  exact hinv.1

/-! ### Pass 1 -/

namespace PassOneAt

variable {addr₀ addr₁ : Placing} {items pre post : List Item} {s t : Assembler}

theorem plain (h : PassOneAt addr₀ addr₁ items pre s) {it : Item} (hplain : it.plain = true)
    (hstep : stepItem it s = .ok t) : PassOneAt addr₀ addr₁ items (pre ++ [it]) t := by
  obtain ⟨ef, -, rfl⟩ := stepItem_plain hplain hstep
  obtain ⟨hwalk, hdefs⟩ := scopes_of_plain addr₁ hplain pre
  have hscopes : scopesAfter (pre ++ [it]) = scopesAfter pre := congrArg Walk.scopes hwalk
  rw [s.perform_eq ef]
  constructor
  · rw [hdefs]
    exact h.represents
  · rw [hscopes]
    exact h.curr
  · rw [hwalk]
    exact h.stack

/-- The stack has as many counters as there are open blocks. -/
theorem scopes_ne_nil (h : PassOneAt addr₀ addr₁ items pre s) {i : Nat} {cs : List Nat}
    (hstack : s.scopeChildNumStack = i :: cs) : scopesAfter pre ≠ [] := by
  intro hnil
  have hcounters := h.stack.symm.trans hstack
  rw [Walk.counters, show (walkAfter pre).scopes = [] from hnil] at hcounters
  cases hcounters

/-- Pass 1 takes the next child of the block. -/
theorem enter (h : PassOneAt addr₀ addr₁ items pre s) (hitems : items = pre ++ .enter :: post)
    (hpass : s.pass ≠ 0) (hstep : stepItem .enter s = .ok t) :
    PassOneAt addr₀ addr₁ items (pre ++ [.enter]) t := by
  rcases stepItem_enter hstep with ⟨hzero, -⟩ | ⟨-, i, cs, v, hstack, hchild, rfl⟩
  · exact absurd hzero hpass
  · have hwalk : walkAfter (pre ++ [.enter]) = (walkAfter pre).enter := walkAfter_concat ..
    -- the counter on the stack is the number among its siblings of the block that pass 0 made
    have hi : i = ((walkAfter pre).kids (walkAfter pre).top).length := by
      obtain ⟨cs', hcs⟩ := Walk.exists_counters_eq (h.scopes_ne_nil hstack)
      have hcounters := hcs.symm.trans (h.stack.symm.trans hstack)
      exact (List.cons.inj hcounters).1.symm
    have hv : v = (walkAfter pre).made + 1 := by
      have hnext := nextChild_walkAfter hitems
      rw [h.represents.children, h.curr, hi] at hchild
      exact Option.some.inj (hchild.symm.trans hnext)
    constructor
    · rw [labelDefsAt_concat_enter]
      exact h.represents
    · show v = (walkAfter (pre ++ [.enter])).scopes.headD 0
      rw [hwalk, hv]
      rfl
    · rw [hwalk, Walk.counters_enter, ← h.stack, hstack]

/-- The block around the one that is left counts it. -/
theorem leave (h : PassOneAt addr₀ addr₁ items pre s)
    (hlinked : Linked (walkAfter items).parent (scopesAfter pre)) (hpass : s.pass ≠ 0)
    (hstep : stepItem .leave s = .ok t) : PassOneAt addr₀ addr₁ items (pre ++ [.leave]) t := by
  rcases stepItem_leave hstep with ⟨hzero, -⟩ | ⟨-, i, cs, hstack, rfl⟩
  · exact absurd hzero hpass
  · have hwalk : walkAfter (pre ++ [.leave]) = (walkAfter pre).leave := walkAfter_concat ..
    constructor
    · rw [labelDefsAt_concat_leave]
      exact h.represents
    · show (s.symTbl.node s.currScopeNode).parent =
        (walkAfter (pre ++ [.leave])).scopes.headD 0
      rw [hwalk, h.represents.parent, h.curr]
      exact parent_of_linked hlinked (h.scopes_ne_nil hstack)
    · rw [hwalk]
      have hcounters := h.stack.symm.trans hstack
      cases cs with
      | nil => exact (Walk.counters_leave_of_singleton hcounters).symm
      | cons n cs => exact (Walk.counters_leave_of_eq hcounters).symm

theorem label (h : PassOneAt addr₀ addr₁ items pre s)
    (hlinked : Linked (walkAfter items).parent (scopesAfter pre))
    (hle : ∀ v ∈ scopesAfter pre, v ≤ (walkAfter items).made) (hpc : s.pc.curr = addr₁ pre)
    {n : IdentName} (hstep : stepItem (.label n) s = .ok t) :
    PassOneAt addr₀ addr₁ items (pre ++ [.label n]) t := by
  obtain ⟨-, v, tbl, hfind, rfl⟩ := stepItem_label hstep
  rw [h.curr] at hfind
  constructor
  · rw [labelDefsAt_concat_label, defineAll_concat, hpc]
    exact (h.represents.label hlinked hle hfind (addr₁ pre)).2
  · show s.currScopeNode = (walkAfter (pre ++ [.label n])).scopes.headD 0
    rw [scopes_of_label]
    exact h.curr
  · rw [scopes_of_label]
    exact h.stack

theorem step (h : PassOneAt addr₀ addr₁ items pre s) {it : Item}
    (hitems : items = pre ++ it :: post) (hpass : s.pass ≠ 0) (hpc : s.pc.curr = addr₁ pre)
    (hstep : stepItem it s = .ok t) : PassOneAt addr₀ addr₁ items (pre ++ [it]) t := by
  obtain ⟨hlinked, hle⟩ := linked_scopesAfter hitems
  cases hplain : it.plain with
  | true => exact h.plain hplain hstep
  | false =>
    cases it with
    | enter => exact h.enter hitems hpass hstep
    | leave => exact h.leave hlinked hpass hstep
    | label n => exact h.label hlinked hle hpc hstep
    | _ => cases hplain

end PassOneAt

/-- Pass 0 has got to the end of the program when pass 1 starts. -/
theorem exists_endZero {showWords : Bool} {program : Program} {s : Assembler}
    (h : passStart showWords program 1 = .ok s) :
    ∃ t, afterItems showWords program 0 program.items = .ok t ∧ s = t.beginPass 1 := by
  rw [passStart_succ] at h
  cases hend : afterItems showWords program 0 program.items with
  | error e =>
    rw [hend] at h
    cases h
  | ok t =>
    rw [hend] at h
    cases h
    exact ⟨t, rfl, rfl⟩

theorem passOneAt_passStart (addr₁ : Placing) {showWords : Bool} {program : Program}
    {s : Assembler} (h : passStart showWords program 1 = .ok s) :
    PassOneAt (pcAt showWords program 0) addr₁ program.items [] s := by
  obtain ⟨t, hafter, rfl⟩ := exists_endZero h
  have hend := passZeroAt_afterItems (List.append_nil _).symm hafter
  constructor
  · exact hend.represents
  · -- the first child of `__tree` is the block of the program itself
    show (t.symTbl.node 0).children.headD 0 = 1
    rw [hend.represents.children]
    obtain ⟨rest, hrest⟩ := (walkAfter_grows [] program.items).kids 0
    rw [List.nil_append] at hrest
    rw [← hrest]
    rfl
  · exact hend.stack

/-- **Pass 1 at every place that it gets to.** -/
theorem passOneAt_afterItems {showWords : Bool} {program : Program} {pre post : List Item}
    (hitems : program.items = pre ++ post) {s : Assembler}
    (h : afterItems showWords program 1 pre = .ok s) :
    PassOneAt (pcAt showWords program 0) (pcAt showWords program 1) program.items pre s := by
  obtain ⟨s₀, hs₀, h⟩ := bind_eq_ok.mp h
  have hinv : PassOneAt (pcAt showWords program 0) (pcAt showWords program 1) program.items pre s ∧
      afterItems showWords program 1 pre = .ok s := by
    refine invariant (P := fun pre (u : Assembler) =>
        PassOneAt (pcAt showWords program 0) (pcAt showWords program 1) program.items pre u ∧
          afterItems showWords program 1 pre = .ok u)
      ⟨passOneAt_passStart _ hs₀, ?_⟩ ?_ hitems h
    · rw [afterItems, hs₀]
      rfl
    · intro pre it post u v hxs hu hv
      obtain ⟨hu, hafter⟩ := hu
      have hpass : u.pass ≠ 0 := by
        rw [(modes_afterItems hafter).1]
        exact Nat.one_ne_zero
      exact ⟨hu.step hxs hpass (pcAt_eq hafter).symm hv, afterItems_concat hafter hv⟩
  exact hinv.1

/-! ### Where the layout is known -/

section Layout

variable {showWords : Bool} {program : Program} (hvalue : program.PlacedByValue)
include hvalue

theorem labelDefsAt_pcAt {p : Nat} {pre post : List Item} (hitems : program.items = pre ++ post)
    {s : Assembler} (h : afterItems showWords program p pre = .ok s) :
    labelDefsAt (pcAt showWords program p) pre = labelDefsAt layout pre := by
  apply labelDefsAt_congr
  intro pre' rest hpre
  rw [hpre] at h
  obtain ⟨u, hafter, -⟩ := exists_afterItems_of_prefix h
  rw [pcAt_eq hafter]
  exact layout_afterItems hvalue (by rw [hitems, hpre, List.append_assoc]) hafter

theorem passZero_afterItems {pre post : List Item} (hitems : program.items = pre ++ post)
    {s : Assembler} (h : afterItems showWords program 0 pre = .ok s) : PassZeroAt layout pre s := by
  have hzero := passZeroAt_afterItems hitems h
  refine ⟨?_, hzero.curr, hzero.stack⟩
  rw [← labelDefsAt_pcAt hvalue hitems h]
  exact hzero.represents

theorem passOne_afterItems {pre post : List Item} (hitems : program.items = pre ++ post)
    {s : Assembler} (h : afterItems showWords program 1 pre = .ok s) :
    PassOneAt layout layout program.items pre s := by
  have hone := passOneAt_afterItems hitems h
  refine ⟨?_, hone.curr, hone.stack⟩
  obtain ⟨s₀, hs₀, -⟩ := bind_eq_ok.mp h
  obtain ⟨t, hend, -⟩ := exists_endZero hs₀
  rw [← labelDefsAt_pcAt hvalue hitems h,
    ← labelDefsAt_pcAt hvalue (List.append_nil _).symm hend]
  exact hone.represents

end Layout

end Frost32.Asm
