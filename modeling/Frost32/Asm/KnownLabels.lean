import Frost32.Asm.Scoping

namespace Frost32.Asm

open BlockTree ScopeTable Fallible

/-!
# Lines placed by known labels

Pass 0 reads every label as 0, also one that it has already met, so an `.org` or `.space`
whose operand mentions labels can place the lines after it elsewhere than pass 1 does.

* `pcAt` stands for the addresses of the lines in either pass.
* `IdentUse.eval_unshadowed` — without shadowing an identifier in pass 1 stands for the address
  of its label in pass 1 if the label comes before, and in pass 0 otherwise.
* `Known`, `known` — the addresses of the lines where operands are read with the labels before
  them, from the source alone; `known_pc`, they are those of pass 1.
* `Program.PlacedAlike` — no operand of an `.org` or `.space` has another value when its labels
  are read as 0.
* `placementsStable_iff` — **the two passes agree on these operands, and so every label has
  the address of its line, exactly then**.
* `Program.final` — what operands see if labels have the addresses of their lines; `eval_final`,
  then they see it in pass 1.
-/

/-! ### What is to be shown -/

/-- Each label that an `.org` or `.space` mentions is defined on an earlier line in the same or
    an enclosing scope. -/
def Program.PlacedByEarlier (program : Program) : Prop :=
  ∀ u : IdentUse program, u.it.placement ≠ none →
    ∃ l : LabelLine program, l.name.text = u.name.text ∧ l.pre ++ [.label l.name] <+: u.pre ∧
      l.scopes <:+ u.scopes

/-- The operand of each `.org` and `.space` has the same value in both passes. -/
def PlacementsStable (showWords : Bool) (program : Program) : Prop :=
  ∀ pre it post e, program.items = pre ++ it :: post → it.placement = some e →
    ∃ s₀ s₁ n, afterItems showWords program 0 pre = .ok s₀ ∧
      afterItems showWords program 1 pre = .ok s₁ ∧
      e.eval s₀.env = .ok n ∧ e.eval s₁.env = .ok n

/-- Every identifier that is used in pass 1 stands for the address at which the line of its
    label is placed in pass 1. -/
def LabelsPlaced (showWords : Bool) (program : Program) : Prop :=
  ∀ u : IdentUse program, ∃ l : LabelLine program, u.RefersTo l ∧
    ∃ s t, afterItems showWords program 1 u.pre = .ok s ∧
      afterItems showWords program 1 l.pre = .ok t ∧ u.name.eval s.env = .ok t.pc.curr

/-! ### Identifiers without shadowing -/

/-- What a label stands for in pass 1 at a place: its address in pass 1 once it has been made
    again, and its address in pass 0 before. -/
structure LabelLine.ValueAt {program : Program} (showWords : Bool) (l : LabelLine program)
    (pre : List Item) (a : BitVec 64) : Prop where
  before : l.pre ++ [.label l.name] <+: pre → a = pcAt showWords program 1 l.pre
  after : ¬ l.pre ++ [.label l.name] <+: pre → a = pcAt showWords program 0 l.pre

/-- The table of labels after pass 0. -/
def tableZeroAt (showWords : Bool) (program : Program) : LabelTable :=
  defineAll empty (labelDefsAt (pcAt showWords program 0) program.items)

/-- The table of labels at a place of pass 1. -/
def tableOneAt (showWords : Bool) (program : Program) (pre : List Item) : LabelTable :=
  defineAll (tableZeroAt showWords program) (labelDefsAt (pcAt showWords program 1) pre)

section Assembled

variable {showWords : Bool} {program : Program} {s : Assembler}
  (h : assemble showWords program = .ok s) (hshadow : program.NoShadowing)

theorem unshadowed_labelDefsAt (addr : Placing) (hshadow : program.NoShadowing) :
    Unshadowed (labelDefsAt addr program.items) := by
  intro c hc d hd hname hsuffix
  obtain ⟨l, rfl⟩ := exists_line_of_memAt hc
  obtain ⟨l', rfl⟩ := exists_line_of_memAt hd
  by_contra hne
  exact hshadow l l' hname ⟨hsuffix, hne⟩

/-- A label made in one pass is made in the other one too. -/
theorem listed_of_mem_pre {addr addr' : Placing} {pre post : List Item}
    (hitems : program.items = pre ++ post) {d : LabelDef} (hd : d ∈ labelDefsAt addr' pre) :
    Listed (labelDefsAt addr program.items) d := by
  obtain ⟨l, rfl, -⟩ := exists_line_of_mem_pre hitems hd
  exact ⟨l.definitionAt addr, l.memAt addr, rfl, rfl⟩

theorem created_tableZeroAt (hshadow : program.NoShadowing) :
    Created (labelDefsAt (pcAt showWords program 0) program.items)
      (tableZeroAt showWords program) := by
  have hnested := nested_labelDefsAt (pcAt showWords program 0) program
  exact hnested.created_defineAll (unshadowed_labelDefsAt _ hshadow) (created_empty _)
    fun e he => listed_of_mem_pre (List.append_nil _).symm he

/-- Every entry of the table is that of a label. -/
theorem created_tableOneAt (hshadow : program.NoShadowing) {pre post : List Item}
    (hitems : program.items = pre ++ post) :
    Created (labelDefsAt (pcAt showWords program 0) program.items)
      (tableOneAt showWords program pre) := by
  have hnested := nested_labelDefsAt (pcAt showWords program 0) program
  exact hnested.created_defineAll (unshadowed_labelDefsAt _ hshadow) (created_tableZeroAt hshadow)
    fun e he => listed_of_mem_pre hitems he

/-- Labels are determined by their places. -/
theorem LabelLine.name_eq_of_pre {l l' : LabelLine program} (hpre : l.pre = l'.pre) :
    l.name = l'.name := by
  have hitems := l.eq.symm.trans l'.eq
  rw [hpre] at hitems
  exact Item.label.inj (List.cons.inj (List.append_cancel_left hitems)).1

include h hshadow

/-- The one label of a name around a place. -/
theorem LabelLine.pre_eq_of_encloses {l l' : LabelLine program}
    (hname : l.name.text = l'.name.text) {scopes : List Nat} (hl : l.scopes <:+ scopes)
    (hl' : l'.scopes <:+ scopes) : l.pre = l'.pre := by
  apply distinctInScope_of_noShadowing h hshadow l l' hname
  rcases List.suffix_or_suffix_of_suffix hl hl' with hsuffix | hsuffix
  · by_contra hne
    exact hshadow l l' hname ⟨hsuffix, hne⟩
  · by_contra hne
    exact hshadow l' l hname.symm ⟨hsuffix, fun he => hne he.symm⟩

/-- The table of pass 1 has this value for a label. -/
theorem LabelLine.entry (l : LabelLine program) {pre post : List Item}
    (hitems : program.items = pre ++ post) {v : Nat} (hv : l.scopes.head? = some v)
    {a : BitVec 64} (ha : l.ValueAt showWords pre a) :
    tableOneAt showWords program pre v l.name.text = some a := by
  have hnested := nested_labelDefsAt (pcAt showWords program 0) program
  have hun := unshadowed_labelDefsAt (pcAt showWords program 0) hshadow
  have hmem := l.memAt (pcAt showWords program 0)
  -- a line with the same name and scopes is the line itself
  have hsame : ∀ {addr : Placing} {k : LabelLine program}, k.name.text = l.name.text →
      k.scopes = l.scopes → (k.definitionAt addr).value = addr l.pre := by
    intro addr k hname hscopes
    show addr k.pre = addr l.pre
    rw [distinctInScope_of_noShadowing h hshadow k l hname hscopes]
  have hfirst : tableZeroAt showWords program v l.name.text =
      some (pcAt showWords program 0 l.pre) := by
    apply hnested.entry_defineAll hun (created_empty _) hmem hv
      (fun e he => listed_of_mem_pre (List.append_nil _).symm he)
    · intro e he hname hscopes
      obtain ⟨k, rfl⟩ := exists_line_of_memAt he
      exact hsame hname hscopes
    · exact .inl ⟨_, hmem, rfl, rfl⟩
  apply hnested.entry_defineAll hun (created_tableZeroAt hshadow) hmem hv
    (fun e he => listed_of_mem_pre hitems he)
  · intro e he hname hscopes
    obtain ⟨k, rfl, hk⟩ := exists_line_of_mem_pre hitems he
    have hpre := distinctInScope_of_noShadowing h hshadow k l hname hscopes
    rw [hpre, LabelLine.name_eq_of_pre hpre] at hk
    rw [ha.before hk]
    exact hsame hname hscopes
  · by_cases hbefore : l.pre ++ [.label l.name] <+: pre
    · exact .inl ⟨_, LabelLine.mem_of_prefix _ hbefore, rfl, rfl⟩
    · rw [ha.after hbefore]
      exact .inr hfirst

/-- **An identifier in pass 1 has the value of the label it refers to.** -/
theorem IdentUse.eval_unshadowed (u : IdentUse program) :
    ∃ (l : LabelLine program) (s₁ : Assembler) (a : BitVec 64), u.RefersTo l ∧
      afterItems showWords program 1 u.pre = .ok s₁ ∧ u.name.eval s₁.env = .ok a ∧
      l.ValueAt showWords u.pre a := by
  have hnested := nested_labelDefsAt (pcAt showWords program 0) program
  have hscopes : IsScopes program u.scopes := ⟨u.pre, u.it :: u.post, u.eq, rfl⟩
  obtain ⟨s₁, v, hs₁, hstep, -⟩ := exists_steps h (Nat.le_refl 1) u.eq
  obtain ⟨a, ha⟩ := u.exists_value hstep
  have heval := ident_eval_of_represents u.eq hs₁ (passOneAt_afterItems u.eq hs₁).represents u.name
  have hlookup : lookup (tableOneAt showWords program u.pre) u.scopes u.name.text = some a :=
    (heval a).mp ha
  -- the entry that is found is that of a label around the place
  obtain ⟨o, ho, hentry⟩ := exists_owner_of_lookup hlookup
  obtain ⟨homem, hosome⟩ := owner_eq_some ho
  obtain ⟨c, hc, hname, hhead⟩ := created_tableOneAt hshadow u.eq o u.name.text hosome
  obtain ⟨l, rfl⟩ := exists_line_of_memAt hc
  have hencloses : l.scopes <:+ u.scopes :=
    hnested.tree.suffix_of_mem hscopes l.isScopes hhead homem
  refine ⟨l, s₁, a, ⟨hname, hencloses, ?_⟩, hs₁, ha, ?_⟩
  · intro l' hname' hsuffix'
    have hpre := l'.pre_eq_of_encloses h hshadow (hname'.trans hname.symm) hsuffix' hencloses
    have hscopes' : l'.scopes = l.scopes := congrArg scopesAfter hpre
    rw [hscopes']
  · have hvalue : ∀ b, l.ValueAt showWords u.pre b → a = b := by
      intro b hb
      have hentry' := l.entry h hshadow u.eq hhead hb
      rw [show l.name.text = u.name.text from hname] at hentry'
      exact Option.some.inj (hentry.symm.trans hentry')
    constructor
    · intro hbefore
      exact hvalue _ ⟨fun _ => rfl, fun hafter => absurd hbefore hafter⟩
    · intro hafter
      exact hvalue _ ⟨fun hbefore => absurd hbefore hafter, fun _ => rfl⟩

end Assembled

/-! ### Addresses with known labels -/

/-- A place of the program, its address, and the labels before it. -/
structure Known where
  pre : List Item
  pc : BitVec 64
  labels : List LabelDef

namespace Known

variable (k : Known)

/-- The address of the label before the place that is in one of the scopes around it. -/
def addr (name : String) : Except AsmError (BitVec 64) :=
  match k.labels.find? fun d => decide (d.name = name ∧ d.scopes <:+ scopesAfter k.pre) with
  | some d => .ok d.value
  | none => .error (unknownSymbol name)

/-- What an operand at the place sees; in pass 0 labels are read as 0. -/
def env (pass : Nat) : Env where
  pass := pass
  pc := k.pc
  addr := k.addr

/-- The value of an operand that places lines. -/
def placementValue (it : Item) : BitVec 64 :=
  match it.placement with
  | some e =>
    match e.eval (k.env 1) with
    | .ok n => n
    | .error _ => 0
  | none => 0

def step (it : Item) : Known where
  pre := k.pre ++ [it]
  pc := it.placeWith k.pc (k.placementValue it)
  labels :=
    match it with
    | .label n => k.labels ++ [⟨scopesAfter k.pre, n.text, k.pc⟩]
    | _ => k.labels

end Known

/-- The place after a prefix of the program, its address counted with known labels. -/
def known (items : List Item) : Known := items.foldl Known.step ⟨[], 0, []⟩

/-- No operand of an `.org` or `.space` has another value when its labels are read as 0. -/
def Program.PlacedAlike (program : Program) : Prop :=
  ∀ pre it post e, program.items = pre ++ it :: post → it.placement = some e →
    e.eval ((known pre).env 0) = e.eval ((known pre).env 1)

theorem known_concat (items : List Item) (it : Item) :
    known (items ++ [it]) = (known items).step it := by
  unfold known
  rw [List.foldl_append]
  rfl

theorem known_pre (items : List Item) : (known items).pre = items := by
  induction items using List.reverseRecOn with
  | nil => rfl
  | append_singleton items it ih =>
    rw [known_concat]
    exact congrArg (· ++ [it]) ih

theorem known_labels (items : List Item) :
    (known items).labels = labelDefsAt (fun pre => (known pre).pc) items := by
  induction items using List.reverseRecOn with
  | nil => rfl
  | append_singleton items it ih =>
    rw [known_concat, labelDefsAt_append, ← ih]
    cases it with
    | label n =>
      show (known items).labels ++ [⟨scopesAfter (known items).pre, n.text, (known items).pc⟩] = _
      rw [known_pre]
      rfl
    | _ => exact (List.append_nil _).symm

section Known

variable {showWords : Bool} {program : Program} {s : Assembler}
  (h : assemble showWords program = .ok s) (hshadow : program.NoShadowing)
  (hearlier : program.PlacedByEarlier)
include h hshadow hearlier

omit hshadow hearlier in
/-- Both passes start at address 0. -/
theorem pcAt_nil {p : Nat} (hp : p ≤ 1) : pcAt showWords program p [] = 0 := by
  obtain ⟨u, hu⟩ := exists_state h hp (List.nil_append program.items).symm
  obtain ⟨s₀, hs₀, hrun⟩ := bind_eq_ok.mp hu
  cases hrun
  rw [pcAt_eq hu, pc_passStart hs₀]

omit hearlier in
/-- The search for a known label finds the one of its name around the place. -/
theorem known_addr {pre post : List Item} (hitems : program.items = pre ++ post)
    (hpc : ∀ pre' post', pre = pre' ++ post' → (known pre').pc = pcAt showWords program 1 pre')
    {l : LabelLine program} {name : String} (hname : l.name.text = name)
    (hbefore : l.pre ++ [.label l.name] <+: pre) (hencloses : l.scopes <:+ scopesAfter pre) :
    (known pre).addr name = .ok (pcAt showWords program 1 l.pre) := by
  have hlabels : (known pre).labels = labelDefsAt (pcAt showWords program 1) pre := by
    rw [known_labels]
    exact labelDefsAt_congr hpc
  unfold Known.addr
  rw [hlabels, known_pre]
  cases hfind : (labelDefsAt (pcAt showWords program 1) pre).find? fun d =>
      decide (d.name = name ∧ d.scopes <:+ scopesAfter pre) with
  | none =>
    have hnot := List.find?_eq_none.mp hfind _ (LabelLine.mem_of_prefix _ hbefore)
    rw [decide_eq_true_eq] at hnot
    exact absurd ⟨hname, hencloses⟩ hnot
  | some d =>
    have hd := List.find?_some hfind
    rw [decide_eq_true_eq] at hd
    obtain ⟨k, rfl, -⟩ := exists_line_of_mem_pre hitems (List.mem_of_find?_eq_some hfind)
    have hk := k.pre_eq_of_encloses h hshadow (hd.1.trans hname.symm) hd.2 hencloses
    show Except.ok (pcAt showWords program 1 k.pre) = _
    rw [hk]

/-- An operand that places lines has its value in pass 1 also with the known labels. -/
theorem known_eval {pre post : List Item} {it : Item} (hitems : program.items = pre ++ it :: post)
    {e : Expr} (he : it.placement = some e) {s₁ : Assembler}
    (hs₁ : afterItems showWords program 1 pre = .ok s₁) {v : BitVec 64}
    (hv : e.eval s₁.env = .ok v)
    (hpc : ∀ pre' post', pre = pre' ++ post' → (known pre').pc = pcAt showWords program 1 pre') :
    e.eval ((known pre).env 1) = .ok v := by
  have hlower : ((known pre).env 1).LowerThan s₁.env := by
    refine ⟨?_, .inr (modes_afterItems hs₁).1.symm⟩
    show (known pre).pc = s₁.pc.curr
    rw [hpc pre [] (List.append_nil _).symm, pcAt_eq hs₁]
  apply e.eval_lowers hlower _ v hv
  intro n hn a ha
  -- the label is defined before the operand, so it has its address of pass 1
  have hmem : n ∈ it.idents := by
    cases it with
    | org e' | space e' =>
      cases he
      simpa [Item.idents, Item.exprs] using hn
    | _ => cases he
  let u : IdentUse program := ⟨pre, it, post, hitems, n, hmem⟩
  obtain ⟨l, hname, hbefore, hencloses⟩ := hearlier u (by rw [show u.it = it from rfl, he]; simp)
  obtain ⟨l', s₁', a', hrefers, hs₁', ha', hvalue⟩ := u.eval_unshadowed h hshadow
  cases hs₁.symm.trans hs₁'
  cases ha.symm.trans ha'
  have hpre := l'.pre_eq_of_encloses h hshadow (hrefers.name.trans hname.symm) hrefers.encloses
    hencloses
  have ha : a = pcAt showWords program 1 l'.pre := by
    apply hvalue.before
    rw [hpre, LabelLine.name_eq_of_pre hpre]
    exact hbefore
  rw [ha, hpre]
  exact known_addr h hshadow hitems hpc hname hbefore hencloses

/-- One more item moves both in the same way. -/
theorem known_pc_concat {pre post : List Item} {it : Item}
    (hitems : program.items = pre ++ it :: post)
    (hpc : ∀ pre' post', pre = pre' ++ post' → (known pre').pc = pcAt showWords program 1 pre') :
    (known (pre ++ [it])).pc = pcAt showWords program 1 (pre ++ [it]) := by
  obtain ⟨u, v, hu, hstep, hv⟩ := exists_steps h (Nat.le_refl 1) hitems
  obtain ⟨n, hn, hplaced⟩ := placeWith_of_stepItem hstep
  have hupc : (known pre).pc = u.pc.curr := by
    rw [hpc pre [] (List.append_nil _).symm, pcAt_eq hu]
  rw [pcAt_eq hv, hplaced, known_concat]
  show it.placeWith (known pre).pc ((known pre).placementValue it) = _
  rw [hupc]
  cases hplacement : it.placement with
  | none =>
    cases it with
    | org e | space e => cases hplacement
    | _ => rfl
  | some e =>
    have heval := known_eval h hshadow hearlier hitems hplacement hu (hn e hplacement) hpc
    rw [Known.placementValue, hplacement]
    show it.placeWith u.pc.curr (match e.eval ((known pre).env 1) with
      | .ok n => n
      | .error _ => 0) = _
    rw [heval]

/-- **With known labels the lines have the addresses of pass 1.** -/
theorem known_pc {pre post : List Item} (hitems : program.items = pre ++ post) :
    (known pre).pc = pcAt showWords program 1 pre := by
  suffices hall : ∀ pre' post', pre = pre' ++ post' →
      (known pre').pc = pcAt showWords program 1 pre' from hall pre [] (List.append_nil _).symm
  induction pre using List.reverseRecOn generalizing post with
  | nil =>
    intro pre' post' hpre
    rw [(List.append_eq_nil_iff.mp hpre.symm).1, pcAt_nil h (Nat.le_refl 1)]
    rfl
  | append_singleton pre it ih =>
    rw [List.append_assoc] at hitems
    have hbefore := ih hitems
    intro pre' post' hpre
    rcases List.eq_nil_or_concat post' with rfl | ⟨rest, x, rfl⟩
    · rw [List.append_nil] at hpre
      subst hpre
      exact known_pc_concat h hshadow hearlier hitems hbefore
    · rw [List.concat_eq_append, ← List.append_assoc] at hpre
      exact hbefore pre' rest (List.append_inj' hpre rfl).1

theorem known_value {pre post : List Item} {it : Item} (hitems : program.items = pre ++ it :: post)
    {e : Expr} (he : it.placement = some e) {s₁ : Assembler}
    (hs₁ : afterItems showWords program 1 pre = .ok s₁) {v : BitVec 64}
    (hv : e.eval s₁.env = .ok v) : e.eval ((known pre).env 1) = .ok v := by
  apply known_eval h hshadow hearlier hitems he hs₁ hv
  intro pre' post' hpre
  exact known_pc h hshadow hearlier (by rw [hitems, hpre, List.append_assoc])

omit h hshadow hearlier in
/-- What an operand is in pass 0 it is with the labels read as 0. -/
theorem known_eval_zero {pre : List Item} {s₀ : Assembler}
    (hs₀ : afterItems showWords program 0 pre = .ok s₀) (hpc : (known pre).pc = s₀.pc.curr)
    {e : Expr} {n : BitVec 64} (hn : e.eval s₀.env = .ok n) :
    e.eval ((known pre).env 0) = .ok n := by
  have hlower : ((known pre).env 0).LowerThan s₀.env := ⟨hpc, .inl rfl⟩
  apply e.eval_lowers hlower _ n hn
  intro m _ a ha
  rw [IdentName.eval, if_pos (show s₀.env.pass = 0 from (modes_afterItems hs₀).1)] at ha
  exact ha

omit hshadow hearlier in
/-- The passes are at the same addresses if the operands agree wherever they have been so far. -/
theorem pcAt_agree
    (hplaced : ∀ pre it post e, program.items = pre ++ it :: post → it.placement = some e →
      pcAt showWords program 0 pre = pcAt showWords program 1 pre →
      ∃ s₀ s₁ n, afterItems showWords program 0 pre = .ok s₀ ∧
        afterItems showWords program 1 pre = .ok s₁ ∧
        e.eval s₀.env = .ok n ∧ e.eval s₁.env = .ok n)
    {pre post : List Item} (hitems : program.items = pre ++ post) :
    pcAt showWords program 0 pre = pcAt showWords program 1 pre := by
  induction pre using List.reverseRecOn generalizing post with
  | nil =>
    rw [pcAt_nil h (Nat.zero_le 1), pcAt_nil h (Nat.le_refl 1)]
  | append_singleton pre it ih =>
    rw [List.append_assoc] at hitems
    have hpre := ih hitems
    obtain ⟨u₀, v₀, hu₀, hstep₀, hv₀⟩ := exists_steps h (Nat.zero_le 1) hitems
    obtain ⟨u₁, v₁, hu₁, hstep₁, hv₁⟩ := exists_steps h (Nat.le_refl 1) hitems
    obtain ⟨n₀, hn₀, hpc₀⟩ := placeWith_of_stepItem hstep₀
    obtain ⟨n₁, hn₁, hpc₁⟩ := placeWith_of_stepItem hstep₁
    rw [pcAt_eq hv₀, pcAt_eq hv₁, hpc₀, hpc₁, ← pcAt_eq hu₀, ← pcAt_eq hu₁, hpre]
    cases hplacement : it.placement with
    | none =>
      cases it with
      | org e | space e => cases hplacement
      | _ => rfl
    | some e =>
      obtain ⟨s₀, s₁, n, hs₀, hs₁, hvalue₀, hvalue₁⟩ :=
        hplaced pre it post e hitems hplacement hpre
      cases hu₀.symm.trans hs₀
      cases hu₁.symm.trans hs₁
      cases hvalue₀.symm.trans (hn₀ e hplacement)
      cases hvalue₁.symm.trans (hn₁ e hplacement)
      rfl

omit hshadow hearlier in
/-- Where the operands have the same value in both passes the lines have the same addresses. -/
theorem pcAt_agree_of_stable (hstable : PlacementsStable showWords program) {pre post : List Item}
    (hitems : program.items = pre ++ post) :
    pcAt showWords program 0 pre = pcAt showWords program 1 pre := by
  apply pcAt_agree h _ hitems
  intro pre it post e hitems he _
  exact hstable pre it post e hitems he

/-- Operands with the same value in both passes have this value also with labels read as 0. -/
theorem placedAlike_of_stable (hstable : PlacementsStable showWords program) :
    program.PlacedAlike := by
  intro pre it post e hitems he
  obtain ⟨s₀, s₁, n, hs₀, hs₁, hn₀, hn₁⟩ := hstable pre it post e hitems he
  have hpc : (known pre).pc = s₀.pc.curr := by
    rw [known_pc h hshadow hearlier hitems, ← pcAt_agree_of_stable h hstable hitems, pcAt_eq hs₀]
  rw [known_eval_zero hs₀ hpc hn₀, known_value h hshadow hearlier hitems he hs₁ hn₁]

/-- **If reading labels as 0 makes no difference the passes agree.** -/
theorem stable_of_placedAlike (halike : program.PlacedAlike) :
    PlacementsStable showWords program := by
  -- the values agree wherever the addresses have so far
  have hplaced : ∀ pre it post e, program.items = pre ++ it :: post → it.placement = some e →
      pcAt showWords program 0 pre = pcAt showWords program 1 pre →
      ∃ s₀ s₁ n, afterItems showWords program 0 pre = .ok s₀ ∧
        afterItems showWords program 1 pre = .ok s₁ ∧
        e.eval s₀.env = .ok n ∧ e.eval s₁.env = .ok n := by
    intro pre it post e hitems he hagree
    obtain ⟨s₀, v₀, hs₀, hstep₀, -⟩ := exists_steps h (Nat.zero_le 1) hitems
    obtain ⟨s₁, v₁, hs₁, hstep₁, -⟩ := exists_steps h (Nat.le_refl 1) hitems
    obtain ⟨n₀, hn₀, -⟩ := placeWith_of_stepItem hstep₀
    obtain ⟨n₁, hn₁, -⟩ := placeWith_of_stepItem hstep₁
    have hpc : (known pre).pc = s₀.pc.curr := by
      rw [known_pc h hshadow hearlier hitems, ← hagree, pcAt_eq hs₀]
    have hsame := halike pre it post e hitems he
    rw [known_eval_zero hs₀ hpc (hn₀ e he),
      known_value h hshadow hearlier hitems he hs₁ (hn₁ e he)] at hsame
    exact ⟨s₀, s₁, n₁, hs₀, hs₁, Except.ok.inj hsame ▸ hn₀ e he, hn₁ e he⟩
  intro pre it post e hitems he
  exact hplaced pre it post e hitems he (pcAt_agree h hplaced hitems)

omit hearlier in
/-- **Then every label stands for the address of its line**, also where it is used before. -/
theorem labelsPlaced_of_stable (hstable : PlacementsStable showWords program) :
    LabelsPlaced showWords program := by
  intro u
  obtain ⟨l, s₁, a, hrefers, hs₁, ha, hvalue⟩ := u.eval_unshadowed h hshadow
  obtain ⟨t, ht⟩ := exists_state h (Nat.le_refl 1) l.eq
  refine ⟨l, hrefers, s₁, t, hs₁, ht, ?_⟩
  rw [ha, ← pcAt_eq ht]
  by_cases hbefore : l.pre ++ [.label l.name] <+: u.pre
  · rw [hvalue.before hbefore]
  · rw [hvalue.after hbefore, pcAt_agree_of_stable h hstable l.eq]

/-- **Operands that place lines are stable, and labels are where their lines are, exactly if
    reading the labels of these operands as 0 changes none of them.** -/
theorem placementsStable_iff :
    PlacementsStable showWords program ∧ LabelsPlaced showWords program ↔
      program.PlacedAlike := by
  constructor
  · rintro ⟨hstable, -⟩
    exact placedAlike_of_stable h hshadow hearlier hstable
  · intro halike
    have hstable := stable_of_placedAlike h hshadow hearlier halike
    exact ⟨hstable, labelsPlaced_of_stable h hshadow hstable⟩

end Known

/-! ### The environment in the end -/

/-- The address of the line of a name that is in the innermost scope around a place. -/
def Program.finalAddr (program : Program) (scopes : List Nat) (name : String) :
    Except AsmError (BitVec 64) :=
  match scopes.tails.findSome? fun around =>
      (known program.items).labels.find? fun d => decide (d.name = name ∧ d.scopes = around) with
  | some d => .ok d.value
  | none => .error (unknownSymbol name)

/-- What an operand at a place sees if every label has the address of its line. -/
def Program.final (program : Program) (pre : List Item) : Env where
  pass := 1
  pc := (known pre).pc
  addr := program.finalAddr (scopesAfter pre)

section Final

variable {showWords : Bool} {program : Program} {s : Assembler}
  (h : assemble showWords program = .ok s) (hshadow : program.NoShadowing)
  (hearlier : program.PlacedByEarlier)
include h hshadow hearlier

theorem finalAddr_eq (l : LabelLine program) {scopes : List Nat} (hl : l.scopes <:+ scopes) :
    program.finalAddr scopes l.name.text = .ok (pcAt showWords program 1 l.pre) := by
  have hlabels : (known program.items).labels =
      labelDefsAt (pcAt showWords program 1) program.items := by
    rw [known_labels]
    exact labelDefsAt_congr fun pre post hitems => known_pc h hshadow hearlier hitems
  unfold Program.finalAddr
  rw [hlabels]
  cases hfind : scopes.tails.findSome? fun around =>
      (labelDefsAt (pcAt showWords program 1) program.items).find? fun d =>
        decide (d.name = l.name.text ∧ d.scopes = around) with
  | none =>
    have hnone := List.findSome?_eq_none_iff.mp hfind l.scopes ((List.mem_tails _ _).mpr hl)
    have hnot := List.find?_eq_none.mp hnone _ (l.memAt _)
    rw [decide_eq_true_eq] at hnot
    exact absurd ⟨rfl, rfl⟩ hnot
  | some d =>
    obtain ⟨around, haround, hd⟩ := List.exists_of_findSome?_eq_some hfind
    have hfound := List.find?_some hd
    rw [decide_eq_true_eq] at hfound
    obtain ⟨hname, rfl⟩ := hfound
    obtain ⟨k, rfl⟩ := exists_line_of_memAt (List.mem_of_find?_eq_some hd)
    have hk := k.pre_eq_of_encloses h hshadow hname ((List.mem_tails _ _).mp haround) hl
    show Except.ok (pcAt showWords program 1 k.pre) = _
    rw [hk]

/-- **In the end an operand has its value of pass 1**, if the passes agree on the lines. -/
theorem eval_final (halike : program.PlacedAlike) {pre post : List Item} {it : Item}
    (hitems : program.items = pre ++ it :: post) {e : Expr} (he : e ∈ it.exprs) {s₁ : Assembler}
    (hs₁ : afterItems showWords program 1 pre = .ok s₁) {n : BitVec 64}
    (hn : e.eval s₁.env = .ok n) : e.eval (program.final pre) = .ok n := by
  have hlower : (program.final pre).LowerThan s₁.env := by
    refine ⟨?_, .inr (modes_afterItems hs₁).1.symm⟩
    show (known pre).pc = s₁.pc.curr
    rw [known_pc h hshadow hearlier hitems, pcAt_eq hs₁]
  apply e.eval_lowers hlower _ n hn
  intro m hm a ha
  let u : IdentUse program := ⟨pre, it, post, hitems, m, List.mem_flatMap.mpr ⟨e, he, hm⟩⟩
  have hstable := stable_of_placedAlike h hshadow hearlier halike
  obtain ⟨l, hrefers, s₁', t, hs₁', ht, hvalue⟩ := labelsPlaced_of_stable h hshadow hstable u
  cases hs₁.symm.trans hs₁'
  rw [Except.ok.inj (ha.symm.trans hvalue), ← pcAt_eq ht]
  show program.finalAddr (scopesAfter pre) m.text = _
  rw [← show l.name.text = m.text from hrefers.name]
  exact finalAddr_eq h hshadow hearlier l hrefers.encloses

end Final

/-! ### Checks at each index -/

section Checks

variable {program : Program}

theorem exists_index {items pre post : List Item} {it : Item} (hitems : items = pre ++ it :: post) :
    ∃ k < items.length, it ∈ items[k]? ∧ items.take k = pre := by
  subst hitems
  exact ⟨pre.length, by simp, by simp, List.take_left⟩

theorem placedByEarlier_of_forall
    (h : ∀ k < program.items.length, ∀ it ∈ program.items[k]?, it.placement ≠ none →
      ∀ n ∈ it.idents, ∃ d ∈ labelDefsAt layout (program.items.take k), d.name = n.text ∧
        d.scopes <:+ scopesAfter (program.items.take k)) : program.PlacedByEarlier := by
  intro u hplacement
  obtain ⟨k, hk, hit, hpre⟩ := exists_index u.eq
  obtain ⟨d, hd, hname, hscopes⟩ := h k hk u.it hit hplacement u.name u.mem
  rw [hpre] at hd hscopes
  obtain ⟨l, rfl, hbefore⟩ := exists_line_of_mem_pre u.eq hd
  exact ⟨l, hname, hbefore, hscopes⟩

theorem placedAlike_of_forall
    (h : ∀ k < program.items.length, ∀ it ∈ program.items[k]?, ∀ e ∈ it.placement,
      e.eval ((known (program.items.take k)).env 0) =
        e.eval ((known (program.items.take k)).env 1)) : program.PlacedAlike := by
  intro pre it post e hitems he
  obtain ⟨k, hk, hit, rfl⟩ := exists_index hitems
  exact h k hk it hit e he

end Checks

/-! ### Space behind a known label -/

/-- `.org 8`, a label, a reference to the last label, and space for as many bytes as the operand
    says. -/
def spaceProgram (e : Expr) : Program :=
  [.directive (.dotOrgDirective (.ofAtom (.numExpr (.decNum ⟨['8'], by decide⟩)))),
    .label (.ident "a"), .directive (.dotDb8Directive (.ofName "b") []),
    .directive (.dotSpaceDirective e), .label (.ident "b")]

/-- As many bytes as the address of the first label before it. -/
def spaceByLabel : Program := spaceProgram (.ofName "a")

/-- `a % 8`, which is 0 in both passes. -/
def spaceToAlign : Program :=
  spaceProgram (.exprLogical (.exprCompare (.exprAddSub (.opMulDivMod
    (.exprMulDivModEtc (.identName (.ident "a"))) .mod
    (.numExpr (.decNum ⟨['8'], by decide⟩))))))

theorem spaceByLabel_placedByEarlier : spaceByLabel.PlacedByEarlier :=
  placedByEarlier_of_forall (by decide +kernel)

theorem spaceByLabel_noShadowing : spaceByLabel.NoShadowing :=
  noShadowing_of_forall (by decide +kernel)

/-- Both sides hold of the one program and fail of the other. -/
theorem placementsStable_iff_spaceToAlign :
    (PlacementsStable true spaceToAlign ∧ LabelsPlaced true spaceToAlign) ∧
      (PlacementsStable true spaceByLabel ∧ LabelsPlaced true spaceByLabel ↔
        spaceByLabel.PlacedAlike) := by
  constructor
  · obtain ⟨s, hs⟩ := exists_eq_ok (show (assemble true spaceToAlign).isOk = true by
      decide +kernel)
    have hshadow : spaceToAlign.NoShadowing := noShadowing_of_forall (by decide +kernel)
    have hearlier : spaceToAlign.PlacedByEarlier := placedByEarlier_of_forall (by decide +kernel)
    exact (placementsStable_iff hs hshadow hearlier).mpr (placedAlike_of_forall (by decide +kernel))
  · obtain ⟨s, hs⟩ := exists_eq_ok (show (assemble true spaceByLabel).isOk = true by
      decide +kernel)
    exact placementsStable_iff hs spaceByLabel_noShadowing spaceByLabel_placedByEarlier

/-- **The reference keeps the address of pass 0**, 9, while its line is placed at 17. -/
theorem stale_address :
    (∃ s, assemble true spaceByLabel = .ok s) ∧ spaceByLabel.PlacedByEarlier ∧
      spaceByLabel.NoShadowing ∧ ¬ PlacementsStable true spaceByLabel ∧
      ¬ LabelsPlaced true spaceByLabel := by
  obtain ⟨s, hs⟩ := exists_eq_ok (show (assemble true spaceByLabel).isOk = true by decide +kernel)
  refine ⟨⟨s, hs⟩, spaceByLabel_placedByEarlier, spaceByLabel_noShadowing, ?_, ?_⟩
  · intro hstable
    have hagree := pcAt_agree_of_stable hs hstable (List.append_nil spaceByLabel.items).symm
    revert hagree
    decide +kernel
  · intro hplaced
    let last : LabelLine spaceByLabel := ⟨spaceByLabel.items.take 4, .ident "b", [], rfl⟩
    let u : IdentUse spaceByLabel :=
      ⟨spaceByLabel.items.take 2, .db8 (.ofName "b"), spaceByLabel.items.drop 3, rfl, .ident "b",
        List.mem_singleton.mpr rfl⟩
    obtain ⟨l, hrefers, s₁, t, hs₁, ht, ha⟩ := hplaced u
    obtain ⟨l', s₁', a, hrefers', hs₁', ha', hvalue⟩ :=
      u.eval_unshadowed hs spaceByLabel_noShadowing
    cases hs₁.symm.trans hs₁'
    have hsame := Except.ok.inj (ha.symm.trans ha')
    -- both are the last line, which is after the use
    have hlast : ∀ k : LabelLine spaceByLabel, k.name.text = "b" → k.scopes <:+ u.scopes →
        k.pre = last.pre :=
      fun k hname hk => k.pre_eq_of_encloses hs spaceByLabel_noShadowing hname hk
        ⟨[], by decide +kernel⟩
    have hl := hlast l hrefers.name hrefers.encloses
    have hl' := hlast l' hrefers'.name hrefers'.encloses
    have hafter : ¬ l'.pre ++ [.label l'.name] <+: u.pre := by
      intro hbefore
      have hlength := hbefore.length_le
      rw [hl', List.length_append, List.length_singleton] at hlength
      exact absurd hlength (by decide)
    rw [← pcAt_eq ht, hvalue.after hafter, hl, hl'] at hsame
    revert hsame
    decide +kernel

end Frost32.Asm
