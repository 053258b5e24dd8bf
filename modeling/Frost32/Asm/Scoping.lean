import Frost32.Asm.LabelLines

namespace Frost32.Asm

open BlockTree ScopeTable Fallible

/-!
# What labels stand for

* `passes_agree_on_layout` — **both passes compute the same layout**, and without shadowing
  every identifier stands for the address of the line that defines it.
* `lexicallyScoped_iff` — **labels are scoped lexically exactly where shadows agree**, as
  `find_or_insert` gives an inner label the symbol of an outer one that comes before it.
-/

section Assembled

variable {showWords : Bool} {program : Program} {s : Assembler}

/-- A program that is assembled gets to the end of both passes. -/
theorem passes_of_assemble (h : assemble showWords program = .ok s) {p : Nat} (hp : p ≤ 1) :
    ∃ t, afterItems showWords program p program.items = .ok t := by
  rw [assemble_eq] at h
  rcases Nat.le_one_iff_eq_zero_or_eq_one.mp hp with rfl | rfl
  · obtain ⟨u, hu, -⟩ := bind_eq_ok.mp h
    obtain ⟨v, hv, hu⟩ := bind_eq_ok.mp hu
    obtain ⟨w, hw, -⟩ := bind_eq_ok.mp hu
    refine ⟨w, ?_⟩
    rw [afterItems, hv]
    exact hw
  · exact ⟨s, h⟩

/-- It also gets to every place in between. -/
theorem exists_state (h : assemble showWords program = .ok s) {p : Nat} (hp : p ≤ 1)
    {pre post : List Item} (hitems : program.items = pre ++ post) :
    ∃ u, afterItems showWords program p pre = .ok u := by
  obtain ⟨t, ht⟩ := passes_of_assemble h hp
  obtain ⟨s₀, hs₀, ht⟩ := bind_eq_ok.mp ht
  rw [hitems] at ht
  obtain ⟨u, hu, -⟩ := exists_of_runList ht
  refine ⟨u, ?_⟩
  rw [afterItems, hs₀]
  exact hu

theorem exists_steps (h : assemble showWords program = .ok s) {p : Nat} (hp : p ≤ 1)
    {pre post : List Item} {it : Item} (hitems : program.items = pre ++ it :: post) :
    ∃ u v, afterItems showWords program p pre = .ok u ∧ stepItem it u = .ok v ∧
      afterItems showWords program p (pre ++ [it]) = .ok v := by
  obtain ⟨t, ht⟩ := passes_of_assemble h hp
  exact exists_afterItems hitems ht

/-- Two tables give a name the same address exactly when their look-ups agree. -/
theorem addrFrom_eq_iff {t t' : SymbolTable} {w w' : Walk} {tab tab' : LabelTable}
    (ht : Represents t w tab) (ht' : Represents t' w' tab') {scopes : List Nat}
    (hs : Linked w.parent scopes) (hs' : Linked w'.parent scopes) (name : String) :
    t'.addrFrom (scopes.headD 0) name = t.addrFrom (scopes.headD 0) name ↔
      lookup tab' scopes name = lookup tab scopes name := by
  rw [ht.addrFrom hs, ht'.addrFrom hs']
  cases lookup tab scopes name <;> cases lookup tab' scopes name <;> simp

/-- The table of labels at a place of pass 1. -/
def tableOne (program : Program) (pre : List Item) : LabelTable :=
  defineAll (defineAll empty (labelDefsAt layout program.items)) (labelDefsAt layout pre)

/-- The value of an identifier in pass 1 is what the represented table has for it. -/
theorem ident_eval_of_represents {pre post : List Item} (hitems : program.items = pre ++ post)
    {s₁ : Assembler} (hs₁ : afterItems showWords program 1 pre = .ok s₁) {tab : LabelTable}
    (hrepresents : Represents s₁.symTbl (walkAfter program.items) tab) (n : IdentName)
    (a : BitVec 64) : n.eval s₁.env = .ok a ↔ lookup tab (scopesAfter pre) n.text = some a := by
  have hpass := (modes_afterItems hs₁).1
  have heval : n.eval s₁.env = s₁.symTbl.addrFrom ((scopesAfter pre).headD 0) n.text := by
    rw [IdentName.eval, if_neg (by rw [show s₁.env.pass = 1 from hpass]; decide),
      ← (passOneAt_afterItems hitems hs₁).curr]
    rfl
  rw [heval, hrepresents.addrFrom (linked_scopesAfter hitems).1]
  cases lookup tab (scopesAfter pre) n.text <;> simp

theorem ident_eval_iff (hvalue : program.PlacedByValue) {pre post : List Item}
    (hitems : program.items = pre ++ post) {s₁ : Assembler}
    (hs₁ : afterItems showWords program 1 pre = .ok s₁) (n : IdentName) (a : BitVec 64) :
    n.eval s₁.env = .ok a ↔ lookup (tableOne program pre) (scopesAfter pre) n.text = some a :=
  ident_eval_of_represents hitems hs₁ (passOne_afterItems hvalue hitems hs₁).represents n a

/-- An identifier that is used has a value where the assembler gets past its use. -/
theorem IdentUse.exists_value (u : IdentUse program) {s₁ v : Assembler}
    (hstep : stepItem u.it s₁ = .ok v) : ∃ a, u.name.eval s₁.env = .ok a := by
  have hplain : u.it.plain = true := by
    cases hit : u.it with
    | enter | leave | label n =>
      have hmem := u.mem
      rw [hit] at hmem
      cases hmem
    | _ => rfl
  obtain ⟨ef, hef, -⟩ := stepItem_plain hplain hstep
  exact ident_eval_of_effect hef u.name u.mem

variable (h : assemble showWords program = .ok s) (hvalue : program.PlacedByValue)
include h hvalue

/-! ### Labels -/

omit h in
/-- **A label stores the address of its line**, in either pass. -/
theorem LabelLine.stores (l : LabelLine program) {p : Nat} (hp : p ≤ 1) {u v : Assembler}
    (hu : afterItems showWords program p l.pre = .ok u)
    (hv : afterItems showWords program p (l.pre ++ [.label l.name]) = .ok v) :
    v.env.addr l.name.text = .ok u.pc.curr := by
  have hafter : program.items = (l.pre ++ [.label l.name]) ++ l.post := by
    rw [l.eq, List.append_assoc]
    rfl
  have hscopes : scopesAfter (l.pre ++ [.label l.name]) = l.scopes :=
    congrArg Walk.scopes (scopes_of_label l.name l.pre)
  -- in either table the label has just been defined
  have hstored : ∀ (tab : LabelTable),
      lookup (defineAll tab (labelDefsAt layout (l.pre ++ [.label l.name]))) l.scopes l.name.text =
        some l.address := by
    intro tab
    obtain ⟨o, ho⟩ := exists_target (defineAll tab (labelDefsAt layout l.pre))
      l.scopes_ne_nil l.name.text
    rw [labelDefsAt_concat_label, defineAll_concat]
    exact lookup_define_self (d := (l.definitionAt layout)) ho
  have hlinked := (linked_scopesAfter hafter).1
  rw [layout_afterItems hvalue l.eq hu]
  show v.symTbl.addrFrom v.currScopeNode l.name.text = .ok l.address
  rcases Nat.le_one_iff_eq_zero_or_eq_one.mp hp with rfl | rfl
  · have hzero := passZero_afterItems hvalue hafter hv
    have hlinked₀ : Linked (walkAfter (l.pre ++ [.label l.name])).parent
      (scopesAfter (l.pre ++ [.label l.name])) := (walkAfter _).linked
    rw [hzero.curr, hzero.represents.addrFrom hlinked₀, hscopes, hstored]
  · have hone := passOne_afterItems hvalue hafter hv
    rw [hone.curr, hone.represents.addrFrom hlinked, hscopes, hstored]

/-! ### Uses -/

/-- An identifier that is used refers to a label, and where definitions are consistent it
    stands for the address of this label. -/
theorem IdentUse.eval (u : IdentUse program) (hc : Consistent (labelDefsAt layout program.items)) :
    ∃ (l : LabelLine program) (s₁ : Assembler), u.RefersTo l ∧
      afterItems showWords program 1 u.pre = .ok s₁ ∧ u.name.eval s₁.env = .ok l.address := by
  have hnested := nested_labelDefsAt layout program
  have hscopes : IsScopes program (scopesAfter u.pre) := ⟨u.pre, u.it :: u.post, u.eq, rfl⟩
  obtain ⟨s₁, v, hs₁, hstep, -⟩ := exists_steps h (Nat.le_refl 1) u.eq
  obtain ⟨a, ha⟩ := u.exists_value hstep
  have hlookup := (ident_eval_iff hvalue u.eq hs₁ u.name a).mp ha
  have hdefs : labelDefsAt layout program.items =
      labelDefsAt layout u.pre ++ defsFromAt layout u.pre (u.it :: u.post) := by
    rw [u.eq]
    exact labelDefsAt_append ..
  -- the use resolves, so there is a label around it
  obtain ⟨o, ho⟩ : ∃ o, owner (defineAll empty (labelDefsAt layout program.items))
      (scopesAfter u.pre) u.name.text = some o := by
    rw [← hnested.owner_again hdefs]
    obtain ⟨o, ho, -⟩ := exists_owner_of_lookup hlookup
    exact ⟨o, ho⟩
  obtain ⟨d, hd⟩ := hnested.exists_innermost hscopes ho
  obtain ⟨l, rfl⟩ := exists_line_of_memAt hd.mem
  refine ⟨l, s₁, ⟨hd.name, hd.encloses, ?_⟩, hs₁, ?_⟩
  · intro l' hname hsuffix
    exact hd.inner (l'.definitionAt layout) (l'.memAt layout) hname hsuffix
  · rw [ident_eval_iff hvalue u.eq hs₁]
    exact hnested.lookup_of_innermost hc hdefs hscopes hd

/-! ### Outer labels -/

omit h in
/-- Whether a label changes what is recorded for an outer one, as look-ups in pass 0. -/
theorem LabelLine.unchanged_zero_iff {l l' : LabelLine program} (houtside : l.Outside l')
    {u v : Assembler} (hu : afterItems showWords program 0 l'.pre = .ok u)
    (hv : afterItems showWords program 0 (l'.pre ++ [.label l'.name]) = .ok v) (name : String) :
    v.symTbl.addrFrom l.block name = u.symTbl.addrFrom l.block name ↔
      lookup (define (defineAll empty (labelDefsAt layout l'.pre)) (l'.definitionAt layout))
          l.scopes name =
        lookup (defineAll empty (labelDefsAt layout l'.pre)) l.scopes name := by
  have hafter : program.items = (l'.pre ++ [.label l'.name]) ++ l'.post := by
    rw [l'.eq, List.append_assoc]
    rfl
  have hbefore := passZero_afterItems hvalue l'.eq hu
  have hlater := passZero_afterItems hvalue hafter hv
  have hlinked : Linked (walkAfter l'.pre).parent l.scopes :=
    (walkAfter l'.pre).linked.of_suffix houtside.1
  have hrepresents := hlater.represents
  rw [scopes_of_label, labelDefsAt_concat_label, defineAll_concat] at hrepresents
  exact addrFrom_eq_iff hbefore.represents hrepresents hlinked hlinked name

omit h in
/-- **Where definitions are consistent no label changes an outer one.** -/
theorem LabelLine.unchanged (hc : Consistent (labelDefsAt layout program.items)) {p : Nat}
    (hp : p ≤ 1) {l l' : LabelLine program} (hname : l.name.text = l'.name.text)
    (houtside : l.Outside l') {u v : Assembler} (hu : afterItems showWords program p l'.pre = .ok u)
    (hv : afterItems showWords program p (l'.pre ++ [.label l'.name]) = .ok v) :
    v.symTbl.addrFrom l.block l.name.text = u.symTbl.addrFrom l.block l.name.text := by
  have hnested := nested_labelDefsAt layout program
  obtain ⟨o, ho⟩ := hnested.exists_home_of_mem (l'.memAt layout)
  -- in pass 0 the table grows, in pass 1 it is complete and every label is written again
  rcases Nat.le_one_iff_eq_zero_or_eq_one.mp hp with rfl | rfl
  · rw [l.unchanged_zero_iff hvalue houtside hu hv, hname]
    cases howner : owner (defineAll empty (labelDefsAt layout l'.pre)) l'.scopes l'.name.text with
    | none => exact lookup_define_outer hnested.tree l'.isScopes howner houtside.1 houtside.2
    | some x =>
      have hhome : home (labelDefsAt layout program.items) (l'.definitionAt layout) = some x :=
        hnested.home_of_target (l'.splitAt layout) (target_of_owner howner)
      rw [define_eq_self hc (hnested.homed_first (l'.splitAt layout)) (l'.memAt layout) howner
        hhome]
  · have hafter : program.items = (l'.pre ++ [.label l'.name]) ++ l'.post := by
      rw [l'.eq, List.append_assoc]
      rfl
    have hbefore := passOne_afterItems hvalue l'.eq hu
    have hlater := passOne_afterItems hvalue hafter hv
    have hlinked := (linked_scopesAfter l.eq).1
    have howner : owner (tableOne program l'.pre) l'.scopes l'.name.text = some o := by
      rw [tableOne, hnested.owner_again (l'.splitAt layout)]
      exact ho
    have hsame : define (tableOne program l'.pre) (l'.definitionAt layout) =
        tableOne program l'.pre :=
      define_eq_self hc (hnested.homed_again (l'.splitAt layout)).1 (l'.memAt layout) howner ho
    have hrepresents := hlater.represents
    rw [labelDefsAt_concat_label, defineAll_concat] at hrepresents
    apply (addrFrom_eq_iff hbefore.represents hrepresents hlinked hlinked l.name.text).mpr
    exact congrArg (lookup · l.scopes l.name.text) hsame

end Assembled

/-! ### The layout of the two passes -/

/-- The passes agree at every place, and every label stores the same address in both. -/
structure PassesAgree (showWords : Bool) (program : Program) : Prop where
  pc : ∀ pre post, program.items = pre ++ post → ∃ s₀ s₁,
    afterItems showWords program 0 pre = .ok s₀ ∧ afterItems showWords program 1 pre = .ok s₁ ∧
    s₁.pc.curr = s₀.pc.curr
  stored : ∀ l : LabelLine program, ∃ s₀ t₀ s₁ t₁,
    afterItems showWords program 0 l.pre = .ok s₀ ∧ stepItem (.label l.name) s₀ = .ok t₀ ∧
    afterItems showWords program 1 l.pre = .ok s₁ ∧ stepItem (.label l.name) s₁ = .ok t₁ ∧
    t₀.env.addr l.name.text = .ok s₀.pc.curr ∧
    t₁.env.addr l.name.text = t₀.env.addr l.name.text

/-- Every identifier stands in pass 1 for the program counter of the one line around it that
    defines it. -/
def IdentsResolve (showWords : Bool) (program : Program) : Prop :=
  ∀ u : IdentUse program, ∃ l : LabelLine program,
    (l.name.text = u.name.text ∧ l.scopes <:+ u.scopes) ∧
    (∀ l' : LabelLine program, l'.name.text = u.name.text → l'.scopes <:+ u.scopes →
      l'.pre = l.pre) ∧
    ∃ s₀ s₁, afterItems showWords program 0 l.pre = .ok s₀ ∧
      afterItems showWords program 1 u.pre = .ok s₁ ∧ u.name.eval s₁.env = .ok s₀.pc.curr

section Layout

variable {showWords : Bool} {program : Program} {s : Assembler}
  (h : assemble showWords program = .ok s) (hvalue : program.PlacedByValue)
include h hvalue

theorem passesAgree : PassesAgree showWords program where
  pc := by
    intro pre post hitems
    obtain ⟨s₀, hs₀⟩ := exists_state h (Nat.zero_le 1) hitems
    obtain ⟨s₁, hs₁⟩ := exists_state h (Nat.le_refl 1) hitems
    refine ⟨s₀, s₁, hs₀, hs₁, ?_⟩
    rw [layout_afterItems hvalue hitems hs₀, layout_afterItems hvalue hitems hs₁]
  stored := by
    intro l
    obtain ⟨s₀, t₀, hs₀, hstep₀, ht₀⟩ := exists_steps h (Nat.zero_le 1) l.eq
    obtain ⟨s₁, t₁, hs₁, hstep₁, ht₁⟩ := exists_steps h (Nat.le_refl 1) l.eq
    have hstored₀ := l.stores hvalue (Nat.zero_le 1) hs₀ ht₀
    have hstored₁ := l.stores hvalue (Nat.le_refl 1) hs₁ ht₁
    refine ⟨s₀, t₀, s₁, t₁, hs₀, hstep₀, hs₁, hstep₁, hstored₀, ?_⟩
    rw [hstored₁, hstored₀, layout_afterItems hvalue l.eq hs₀, layout_afterItems hvalue l.eq hs₁]

omit hvalue in
/-- Without shadowing the check for duplicate labels finds all of them. -/
theorem distinctInScope_of_noShadowing (hshadow : program.NoShadowing) :
    program.DistinctInScope := by
  have hlater : ∀ l l' : LabelLine program, l.Before l' → l.name.text = l'.name.text →
      l.scopes ≠ l'.scopes := by
    intro l l' hbefore hname hscopes
    obtain ⟨u, v, hu, hstep, -⟩ := exists_steps h (Nat.zero_le 1) l'.eq
    have hfinds : u.FindsLabel l'.name.text := by
      rw [l'.finds_iff hu]
      exact ⟨l, ⟨hbefore, hname, hscopes⟩, fun k _ hkname => hshadow k l hkname⟩
    rw [stepItem_label_of_finds hfinds] at hstep
    cases hstep
  intro l l' hname hscopes
  rcases l.trichotomy l' with heq | hbefore | hbefore
  · exact heq
  · exact absurd hscopes (hlater l l' hbefore hname)
  · exact absurd hscopes.symm (hlater l' l hbefore hname.symm)

/-- Without shadowing there is nothing to agree on. -/
theorem identsResolve (hshadow : program.NoShadowing) : IdentsResolve showWords program := by
  have hdistinct := distinctInScope_of_noShadowing h hshadow
  have hagree : program.ShadowsAgree :=
    fun l l' _ hname houtside => absurd houtside (hshadow l l' hname)
  have hc := (nested_labelDefsAt layout program).consistent_of_agrees (distinct_labelDefs hdistinct)
    (agrees_labelDefs.mp hagree)
  intro u
  obtain ⟨l, s₁, hrefers, hs₁, heval⟩ := u.eval h hvalue hc
  obtain ⟨s₀, hs₀⟩ := exists_state h (Nat.zero_le 1) l.eq
  refine ⟨l, ⟨hrefers.name, hrefers.encloses⟩, ?_, s₀, s₁, hs₀, hs₁, ?_⟩
  · intro l' hname hsuffix
    have hin := hrefers.innermost l' hname hsuffix
    have hsame := hname.trans hrefers.name.symm
    apply hdistinct l' l hsame
    by_contra hne
    exact hshadow l' l hsame ⟨hin, hne⟩
  · rw [heval, layout_afterItems hvalue l.eq hs₀]
    rfl

end Layout

/-- **The two passes agree on the layout.**  If moreover no label name is defined both in a
    scope and in one of its enclosing scopes, every identifier stands for the program counter
    of the line that defines it. -/
theorem passes_agree_on_layout {showWords : Bool} {program : Program} {s : Assembler}
    (h : assemble showWords program = .ok s) (hvalue : program.PlacedByValue) :
    PassesAgree showWords program ∧
      (program.NoShadowing → IdentsResolve showWords program) :=
  ⟨passesAgree h hvalue, identsResolve h hvalue⟩

/-- The expression that is a single name, number or parenthesis. -/
def Expr.ofAtom (e : ExprMulDivModEtc) : Expr :=
  .exprLogical (.exprCompare (.exprAddSub (.exprMulDivModEtc e)))

def Expr.ofName (name : String) : Expr := .ofAtom (.identName (.ident name))

/-- A forward and a backward reference into and out of a block. -/
def twoReferences : Program :=
  [.label (.ident "A"), .instruction (.instrOpGrp1OneRegOneImm .u0 (.ofName "B")),
    .scopedLines [.pseudoInstruction (.pseudoInstrOpJmpa (.ofName "A")), .label (.ident "C"),
      .directive (.dotDb8Directive (.ofName "C") [])],
    .label (.ident "B")]

theorem passes_agree_on_layout_twoReferences :
    PassesAgree true twoReferences ∧ IdentsResolve true twoReferences := by
  obtain ⟨s, hs⟩ := exists_eq_ok
    (show (assemble true twoReferences).isOk = true by decide +kernel)
  have hvalue : twoReferences.PlacedByValue := by decide +kernel
  obtain ⟨hagree, hresolve⟩ := passes_agree_on_layout hs hvalue
  refine ⟨hagree, hresolve (noShadowing_of_forall ?_)⟩
  decide +kernel

/-! ### Lexical scoping -/

/-- Every identifier stands in pass 1 for the program counter of the label of its name in the
    innermost block around it that contains one. -/
def UsesLexical (showWords : Bool) (program : Program) : Prop :=
  ∀ u : IdentUse program, ∃ (l : LabelLine program) (s₀ s₁ : Assembler), u.RefersTo l ∧
    afterItems showWords program 1 l.pre = .ok s₀ ∧
    afterItems showWords program 1 u.pre = .ok s₁ ∧ u.name.eval s₁.env = .ok s₀.pc.curr

/-- In neither pass does a label change the address recorded for a label of the same name
    outside of it. -/
def OuterLabelsKept (showWords : Bool) (program : Program) : Prop :=
  ∀ p ≤ 1, ∀ l l' : LabelLine program, l.name.text = l'.name.text → l.Outside l' →
    ∀ u v, afterItems showWords program p l'.pre = .ok u →
      stepItem (.label l'.name) u = .ok v →
      v.symTbl.addrFrom l.block l.name.text = u.symTbl.addrFrom l.block l.name.text

structure LexicallyScoped (showWords : Bool) (program : Program) : Prop where
  uses : UsesLexical showWords program
  kept : OuterLabelsKept showWords program

section Lexical

variable {showWords : Bool} {program : Program} {s : Assembler}
  (h : assemble showWords program = .ok s) (hvalue : program.PlacedByValue)
  (hdistinct : program.DistinctInScope)
include h hvalue hdistinct

theorem lexicallyScoped_of_shadowsAgree (hagree : program.ShadowsAgree) :
    LexicallyScoped showWords program := by
  have hc := (nested_labelDefsAt layout program).consistent_of_agrees (distinct_labelDefs hdistinct)
    (agrees_labelDefs.mp hagree)
  constructor
  · intro u
    obtain ⟨l, s₁, hrefers, hs₁, heval⟩ := u.eval h hvalue hc
    obtain ⟨s₀, hs₀⟩ := exists_state h (Nat.le_refl 1) l.eq
    refine ⟨l, s₀, s₁, hrefers, hs₀, hs₁, ?_⟩
    rw [heval, layout_afterItems hvalue l.eq hs₀]
    rfl
  · intro p hp l l' hname houtside u v hu hstep
    obtain ⟨u', v', hu', hstep', hv'⟩ := exists_steps h hp l'.eq
    rw [hu'] at hu
    cases hu
    rw [hstep'] at hstep
    cases hstep
    exact l.unchanged hvalue hc hp hname houtside hu' hv'

/-- An inner label that disagrees with an earlier outer one changes it in pass 0 already. -/
theorem shadowsAgree_of_lexicallyScoped (hlexical : LexicallyScoped showWords program) :
    program.ShadowsAgree := by
  apply agrees_labelDefs.mpr
  apply (nested_labelDefsAt layout program).agrees_of_unchanged (distinct_labelDefs hdistinct)
    (contiguous_labelDefs program)
  intro ds₁ d ds₂ hds c hc hname hsuffix hne
  obtain ⟨l', rfl, rfl, rfl⟩ := exists_line_of_splitAt hds
  obtain ⟨l, rfl⟩ := exists_line_of_memAt hc
  obtain ⟨u, v, hu, hstep, hv⟩ := exists_steps h (Nat.zero_le 1) l'.eq
  have hsame := hlexical.kept 0 (Nat.zero_le 1) l l' hname ⟨hsuffix, hne⟩ u v hu hstep
  rw [← hname]
  exact (l.unchanged_zero_iff hvalue ⟨hsuffix, hne⟩ hu hv l.name.text).mp hsame

end Lexical

/-- **Labels are scoped lexically exactly where shadows agree**: where every label in a block
    has the address of each earlier label of the same name outside of this block. -/
theorem lexicallyScoped_iff {showWords : Bool} {program : Program} {s : Assembler}
    (h : assemble showWords program = .ok s) (hvalue : program.PlacedByValue)
    (hdistinct : program.DistinctInScope) :
    LexicallyScoped showWords program ↔ program.ShadowsAgree :=
  ⟨shadowsAgree_of_lexicallyScoped h hvalue hdistinct,
    lexicallyScoped_of_shadowsAgree h hvalue hdistinct⟩

/-- An inner label before an outer one of the same name. -/
def innerFirst : Program :=
  [.scopedLines [.label (.ident "A"), .directive (.dotDb8Directive (.ofName "A") [])],
    .label (.ident "A"), .directive (.dotDb8Directive (.ofName "A") [])]

theorem lexicallyScoped_iff_innerFirst :
    LexicallyScoped true innerFirst ↔ innerFirst.ShadowsAgree := by
  obtain ⟨s, hs⟩ := exists_eq_ok (show (assemble true innerFirst).isOk = true by decide +kernel)
  exact lexicallyScoped_iff hs (by decide +kernel) (distinctInScope_of_nodup (by decide +kernel))

/-- An outer label, an inner one of the same name one byte further on, and a use of the outer
    one. -/
def outerFirst : Program :=
  [.label (.ident "A"),
    .scopedLines [.directive (.dotDb8Directive (.ofName "A") []), .label (.ident "A")],
    .directive (.dotDb8Directive (.ofName "A") [])]

/-- **The inner label overwrites the address of the outer one**, also for the use. -/
theorem scoping_not_lexical :
    (∃ s, assemble true outerFirst = .ok s) ∧ outerFirst.PlacedByValue ∧
      outerFirst.DistinctInScope ∧ ¬ UsesLexical true outerFirst ∧
      ¬ OuterLabelsKept true outerFirst := by
  obtain ⟨s, hs⟩ := exists_eq_ok (show (assemble true outerFirst).isOk = true by decide +kernel)
  have hvalue : outerFirst.PlacedByValue := by decide +kernel
  refine ⟨⟨s, hs⟩, hvalue, distinctInScope_of_nodup (by decide +kernel), ?_, ?_⟩
  · intro huses
    let use : IdentUse outerFirst :=
      ⟨outerFirst.items.take 5, .db8 (.ofName "A"), [], rfl, .ident "A", List.mem_singleton.mpr rfl⟩
    obtain ⟨l, s₀, s₁, hrefers, hs₀, hs₁, heval⟩ := huses use
    have hvalue₁ := (ident_eval_iff hvalue use.eq hs₁ _ _).mp heval
    rw [layout_afterItems hvalue l.eq hs₀] at hvalue₁
    -- the table has the address of the inner label, which is not around the use
    have hinner : lookup (tableOne outerFirst use.pre) (scopesAfter use.pre) "A" = some 1 := by
      decide +kernel
    have haddress : (l.definitionAt layout).value = 1 := Option.some.inj (hvalue₁.symm.trans hinner)
    have hout : ∀ d ∈ labelDefsAt layout outerFirst.items, d.value = 1 →
        ¬ d.scopes <:+ use.scopes := by
      decide +kernel
    exact hout (l.definitionAt layout) (l.memAt layout) haddress hrefers.encloses
  · intro hkept
    let outer : LabelLine outerFirst := ⟨[], .ident "A", outerFirst.items.tail, rfl⟩
    let inner : LabelLine outerFirst :=
      ⟨outerFirst.items.take 3, .ident "A", outerFirst.items.drop 4, rfl⟩
    have houtside : outer.Outside inner := ⟨⟨[2], by decide +kernel⟩, by decide +kernel⟩
    obtain ⟨u, v, hu, hstep, hv⟩ := exists_steps hs (Nat.zero_le 1) inner.eq
    have hsame := hkept 0 (Nat.zero_le 1) outer inner rfl houtside u v hu hstep
    have hlookup := (outer.unchanged_zero_iff hvalue houtside hu hv "A").mp hsame
    revert hlookup
    decide +kernel

end Frost32.Asm
