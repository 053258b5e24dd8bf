import Frost32.Asm.LabelPasses
import Frost32.Lib.Unshadowed

namespace Frost32.Asm

open BlockTree ScopeTable Fallible

/-!
# Labels and their uses

The places of a program as decompositions of its items, and the labels as definitions in a
table of nested scopes.

* `LabelLine`, `IdentUse` — the labels of a program and the uses of identifiers.
* `IdentUse.RefersTo` — the label that a use lexically refers to.
* `Program.ShadowsAgree` — a label further in than an earlier one of the same name has the
  same address.
* `treeLike_isScopes`, `contiguous_labelDefs` — the blocks of a program form a tree, and a
  block that has been left is not entered again.
* `LabelLine.finds_iff` — **which labels the check of pass 0 finds to be there already**.
* `distinct_labelDefs`, `agrees_labelDefs` — conditions on labels as conditions on
  definitions.
-/

/-! ### Places of the program -/

/-- A label of the program, with the items before and after it. -/
structure LabelLine (program : Program) where
  pre : List Item
  name : IdentName
  post : List Item
  eq : program.items = pre ++ .label name :: post

/-- A use of an identifier in an expression, with the item it is part of. -/
structure IdentUse (program : Program) where
  pre : List Item
  it : Item
  post : List Item
  eq : program.items = pre ++ it :: post
  name : IdentName
  mem : name ∈ it.idents

namespace LabelLine

variable {program : Program} (l l' : LabelLine program)

/-- The blocks around the label, innermost first. -/
def scopes : List Nat := scopesAfter l.pre

/-- The block that directly contains the label. -/
def block : Nat := l.scopes.headD 0

def address : BitVec 64 := layout l.pre

def Before : Prop := l.pre ++ [.label l.name] <+: l'.pre

/-- The block of the first label is properly around the second label. -/
def Outside : Prop := l.scopes <:+ l'.scopes ∧ l.scopes ≠ l'.scopes

/-- The second label is a later one of the same name in the same scope. -/
structure RepeatedBy : Prop where
  before : l.Before l'
  name : l.name.text = l'.name.text
  scopes : l.scopes = l'.scopes

/-- No label of the name in an enclosing scope comes before. -/
def Uncovered : Prop :=
  ∀ k : LabelLine program, k.Before l → k.name.text = l.name.text → ¬ k.Outside l

/-- The label with the address that its place is given. -/
def definitionAt (addr : Placing) : LabelDef := labelDefAt addr l.pre l.name

end LabelLine

namespace IdentUse

variable {program : Program} (u : IdentUse program)

def scopes : List Nat := scopesAfter u.pre

/-- The label has the name that is used, and of all these around the use it is in the
    innermost block. -/
structure RefersTo (l : LabelLine program) : Prop where
  name : l.name.text = u.name.text
  encloses : l.scopes <:+ u.scopes
  innermost : ∀ l' : LabelLine program, l'.name.text = u.name.text → l'.scopes <:+ u.scopes →
    l'.scopes <:+ l.scopes

end IdentUse

namespace Program

variable (program : Program)

/-- No single scope directly contains two labels of the same name. -/
def DistinctInScope : Prop :=
  ∀ l l' : LabelLine program, l.name.text = l'.name.text → l.scopes = l'.scopes → l.pre = l'.pre

/-- No label name is defined both in a scope and in one of its enclosing scopes. -/
def NoShadowing : Prop :=
  ∀ l l' : LabelLine program, l.name.text = l'.name.text → ¬ l.Outside l'

/-- A label further in than an earlier one of the same name has the same address. -/
def ShadowsAgree : Prop :=
  ∀ l l' : LabelLine program, l.Before l' → l.name.text = l'.name.text → l.Outside l' →
    l.address = l'.address

end Program

/-! ### The definitions of a program -/

section Definitions

variable {program : Program}

/-- The scope lists of the places of a program. -/
def IsScopes (program : Program) (scopes : List Nat) : Prop :=
  ∃ pre post, program.items = pre ++ post ∧ scopes = scopesAfter pre

theorem treeLike_isScopes (program : Program) : TreeLike (IsScopes program) := by
  rintro l l' ⟨pre, post, hitems, rfl⟩ ⟨pre', post', hitems', rfl⟩ v q r hq hr
  have hlinked := (linked_scopesAfter hitems).1.of_suffix hq
  have hlinked' := (linked_scopesAfter hitems').1.of_suffix hr
  exact hlinked.eq_of_suffix hlinked'

theorem LabelLine.isScopes (l : LabelLine program) : IsScopes program l.scopes :=
  ⟨l.pre, .label l.name :: l.post, l.eq, rfl⟩

/-- Every place is in some block. -/
theorem LabelLine.scopes_ne_nil (l : LabelLine program) : l.scopes ≠ [] := scopesAfter_ne_nil l.eq

theorem LabelLine.splitAt (addr : Placing) (l : LabelLine program) :
    labelDefsAt addr program.items =
      labelDefsAt addr l.pre ++ l.definitionAt addr ::
        defsFromAt addr (l.pre ++ [.label l.name]) l.post :=
  labelDefsAt_split addr l.eq

theorem LabelLine.memAt (addr : Placing) (l : LabelLine program) :
    l.definitionAt addr ∈ labelDefsAt addr program.items := by
  rw [l.splitAt]
  exact List.mem_append_right _ List.mem_cons_self

/-- Every definition is that of a label line. -/
theorem exists_line_of_splitAt {addr : Placing} {ds₁ ds₂ : List LabelDef} {d : LabelDef}
    (h : labelDefsAt addr program.items = ds₁ ++ d :: ds₂) :
    ∃ l : LabelLine program, l.definitionAt addr = d ∧ ds₁ = labelDefsAt addr l.pre ∧
      ds₂ = defsFromAt addr (l.pre ++ [.label l.name]) l.post := by
  obtain ⟨pre, n, post, hitems, hbefore, hd, hafter⟩ := exists_label_of_labelDefsAt h
  exact ⟨⟨pre, n, post, hitems⟩, hd.symm, hbefore, hafter⟩

theorem exists_line_of_memAt {addr : Placing} {d : LabelDef}
    (h : d ∈ labelDefsAt addr program.items) :
    ∃ l : LabelLine program, l.definitionAt addr = d := by
  obtain ⟨ds₁, ds₂, hds⟩ := List.append_of_mem h
  obtain ⟨l, hl, -⟩ := exists_line_of_splitAt hds
  exact ⟨l, hl⟩

/-- A definition made before a place is that of a label before it. -/
theorem exists_line_of_split_pre {addr : Placing} {pre post : List Item}
    (hitems : program.items = pre ++ post) {ds₁ ds₂ : List LabelDef} {d : LabelDef}
    (h : labelDefsAt addr pre = ds₁ ++ d :: ds₂) :
    ∃ l : LabelLine program, l.definitionAt addr = d ∧ l.pre ++ [.label l.name] <+: pre ∧
      ds₁ = labelDefsAt addr l.pre := by
  obtain ⟨pre', n, rest, hpre, hbefore, hd, -⟩ := exists_label_of_labelDefsAt h
  refine ⟨⟨pre', n, rest ++ post, ?_⟩, hd.symm, ⟨rest, ?_⟩, hbefore⟩
  · rw [hitems, hpre, List.append_assoc]
    rfl
  · show pre' ++ [.label n] ++ rest = pre
    rw [hpre, List.append_assoc]
    rfl

theorem exists_line_of_mem_pre {addr : Placing} {pre post : List Item}
    (hitems : program.items = pre ++ post) {d : LabelDef} (h : d ∈ labelDefsAt addr pre) :
    ∃ l : LabelLine program, l.definitionAt addr = d ∧ l.pre ++ [.label l.name] <+: pre := by
  obtain ⟨ds₁, ds₂, hds⟩ := List.append_of_mem h
  obtain ⟨l, hl, hbefore, -⟩ := exists_line_of_split_pre hitems hds
  exact ⟨l, hl, hbefore⟩

/-- A definition made before a label is that of an earlier label. -/
theorem exists_line_beforeAt {addr : Placing} (l : LabelLine program) {d : LabelDef}
    (h : d ∈ labelDefsAt addr l.pre) :
    ∃ l' : LabelLine program, l'.definitionAt addr = d ∧ l'.Before l :=
  exists_line_of_mem_pre l.eq h

/-- A label before a place has been defined there. -/
theorem LabelLine.mem_of_prefix (addr : Placing) {l : LabelLine program} {pre : List Item}
    (h : l.pre ++ [.label l.name] <+: pre) : l.definitionAt addr ∈ labelDefsAt addr pre := by
  obtain ⟨rest, rfl⟩ := h
  rw [labelDefsAt_append, labelDefsAt_concat_label]
  simp [LabelLine.definitionAt]

/-- The definitions of a program are nested as its blocks are. -/
theorem nested_labelDefsAt (addr : Placing) (program : Program) :
    Nested (IsScopes program) (labelDefsAt addr program.items) where
  tree := treeLike_isScopes program
  mem := by
    intro d hd
    obtain ⟨l, rfl⟩ := exists_line_of_memAt hd
    exact l.isScopes
  ne_nil := by
    intro d hd
    obtain ⟨l, rfl⟩ := exists_line_of_memAt hd
    exact l.scopes_ne_nil

/-- Those before a place too. -/
theorem nested_labelDefsAt_pre (addr : Placing) {pre post : List Item}
    (hitems : program.items = pre ++ post) :
    Nested (IsScopes program) (labelDefsAt addr pre) := by
  have hnested := nested_labelDefsAt addr program
  have hmem : ∀ d ∈ labelDefsAt addr pre, d ∈ labelDefsAt addr program.items := by
    intro d hd
    rw [hitems, labelDefsAt_append]
    exact List.mem_append_left _ hd
  exact ⟨hnested.tree, fun d hd => hnested.mem d (hmem d hd),
    fun d hd => hnested.ne_nil d (hmem d hd)⟩

/-! ### The check for labels of one name -/

/-- Labels with one innermost block have the same blocks around them. -/
theorem scopes_eq_of_head {l l' : LabelLine program}
    (h : l.scopes.head? = l'.scopes.head?) : l.scopes = l'.scopes := by
  have htree := treeLike_isScopes program
  obtain ⟨v, r, hv⟩ := List.exists_cons_of_ne_nil l.scopes_ne_nil
  obtain ⟨v', r', hv'⟩ := List.exists_cons_of_ne_nil l'.scopes_ne_nil
  rw [hv, hv'] at h
  have hvv : v = v' := Option.some.inj h
  subst hvv
  rw [hv, hv']
  exact congrArg (v :: ·) (htree _ _ l.isScopes l'.isScopes v r r' ⟨[], by rw [hv, List.nil_append]⟩
    ⟨[], by rw [hv', List.nil_append]⟩)

theorem LabelLine.Before.trans {k l m : LabelLine program} (hkl : k.Before l) (hlm : l.Before m) :
    k.Before m :=
  List.IsPrefix.trans (List.IsPrefix.trans hkl (List.prefix_append l.pre [.label l.name])) hlm

/-- Of the labels of one name in one scope there is a first one. -/
theorem LabelLine.exists_first (l : LabelLine program) :
    ∃ k : LabelLine program, (k = l ∨ k.RepeatedBy l) ∧
      ∀ j : LabelLine program, ¬ j.RepeatedBy k := by
  induction hn : l.pre.length using Nat.strongRecOn generalizing l with
  | _ n ih =>
    by_cases hl : ∃ j : LabelLine program, j.RepeatedBy l
    · obtain ⟨j, hj⟩ := hl
      have hlt : j.pre.length < n := by
        have hlength := hj.before.length_le
        rw [List.length_append, List.length_singleton] at hlength
        omega
      obtain ⟨k, hk, hfirst⟩ := ih _ hlt j rfl
      refine ⟨k, .inr ?_, hfirst⟩
      rcases hk with rfl | hk
      · exact hj
      · exact ⟨hk.before.trans hj.before, hk.name.trans hj.name, hk.scopes.trans hj.scopes⟩
    · exact ⟨l, .inl rfl, fun j hj => hl ⟨j, hj⟩⟩

/-- **The check of pass 0 finds a label exactly if it repeats one that no label of the name in
    an enclosing scope comes before.** -/
theorem LabelLine.finds_iff {showWords : Bool} (l' : LabelLine program) {u : Assembler}
    (hu : afterItems showWords program 0 l'.pre = .ok u) :
    u.FindsLabel l'.name.text ↔ ∃ l : LabelLine program, l.RepeatedBy l' ∧ l.Uncovered := by
  let addr := pcAt showWords program 0
  have hzero := passZeroAt_afterItems l'.eq hu
  obtain ⟨v, r, hv⟩ := List.exists_cons_of_ne_nil l'.scopes_ne_nil
  have hcurr : u.currScopeNode = v := by
    rw [hzero.curr]
    show l'.scopes.headD 0 = v
    rw [hv]
    rfl
  have hsome : u.FindsLabel l'.name.text ↔
      (defineAll empty (labelDefsAt addr l'.pre) v l'.name.text).isSome := by
    unfold Assembler.FindsLabel
    rw [hzero.represents.findInThisBlklev, hcurr]
    constructor
    · rintro ⟨-, sym, hsym, -⟩
      rw [← Option.isSome_map, hsym]
      rfl
    · intro hsome
      obtain ⟨a, ha⟩ := Option.isSome_iff_exists.mp hsome
      exact ⟨(modes_afterItems hu).1, labelSymbol l'.name.text a, by rw [ha]; rfl, rfl⟩
  rw [hsome, (nested_labelDefsAt_pre addr l'.eq).isSome_iff]
  constructor
  · rintro ⟨ds₁, d, ds₂, hds, hname, hhead, hfree⟩
    obtain ⟨l, rfl, hbefore, rfl⟩ := exists_line_of_split_pre l'.eq hds
    refine ⟨l, ⟨hbefore, hname, scopes_eq_of_head (hhead.trans (by rw [hv]; rfl))⟩, ?_⟩
    intro k hk hkname houtside
    exact hfree _ (LabelLine.mem_of_prefix addr hk) (hkname.trans hname) houtside.1
  · rintro ⟨l, hl, huncovered⟩
    -- the first label of the name in the scope has added the entry
    obtain ⟨k, hk, hfirst⟩ := l.exists_first
    have hkl' : k.RepeatedBy l' := by
      rcases hk with rfl | hk
      · exact hl
      · exact ⟨hk.before.trans hl.before, hk.name.trans hl.name, hk.scopes.trans hl.scopes⟩
    obtain ⟨rest, hrest⟩ := hkl'.before
    have hsplit : l'.pre = k.pre ++ .label k.name :: rest := by
      rw [← hrest, List.append_assoc]
      rfl
    refine ⟨_, _, _, labelDefsAt_split addr hsplit, hkl'.name, ?_, ?_⟩
    · show k.scopes.head? = some v
      rw [hkl'.scopes, hv]
      rfl
    · intro c hc hcname hsuffix
      obtain ⟨j, rfl, hj⟩ := exists_line_beforeAt k hc
      have hjk : j.name.text = k.name.text := hcname.trans hkl'.name.symm
      have hne : j.scopes ≠ k.scopes := fun hsame => hfirst j ⟨hj, hjk, hsame⟩
      have hkl : k.scopes = l.scopes := hkl'.scopes.trans hl.scopes.symm
      have houtside : j.Outside l := by
        rw [LabelLine.Outside, ← hkl]
        exact ⟨hsuffix, hne⟩
      refine huncovered j ?_ (hcname.trans hl.name.symm) houtside
      rcases hk with rfl | hk
      · exact hj
      · exact hj.trans hk.before

/-! ### At the addresses of the layout -/

theorem LabelLine.Before.pre_ne {l l' : LabelLine program} (h : l.Before l') :
    l.pre ≠ l'.pre := by
  intro heq
  have hlength := h.length_le
  rw [heq, List.length_append, List.length_singleton] at hlength
  omega

/-- Of two labels one comes before the other. -/
theorem LabelLine.trichotomy (l l' : LabelLine program) :
    l.pre = l'.pre ∨ l.Before l' ∨ l'.Before l := by
  have hearlier : ∀ l l' : LabelLine program, l.pre <+: l'.pre → l.pre = l'.pre ∨ l.Before l' := by
    intro l l' hprefix
    obtain ⟨rest, hrest⟩ := hprefix
    cases rest with
    | nil => exact .inl (by rw [← hrest, List.append_nil])
    | cons x rest =>
      have hitems := l.eq.symm.trans l'.eq
      rw [← hrest, List.append_assoc] at hitems
      have hx : Item.label l.name = x := (List.cons.inj (List.append_cancel_left hitems)).1
      refine .inr ⟨rest, ?_⟩
      rw [hx, List.append_assoc, List.singleton_append, hrest]
  have hl : l.pre <+: program.items := ⟨.label l.name :: l.post, l.eq.symm⟩
  have hl' : l'.pre <+: program.items := ⟨.label l'.name :: l'.post, l'.eq.symm⟩
  rcases List.prefix_or_prefix_of_prefix hl hl' with hprefix | hprefix
  · rcases hearlier l l' hprefix with heq | hbefore
    · exact .inl heq
    · exact .inr (.inl hbefore)
  · rcases hearlier l' l hprefix with heq | hbefore
    · exact .inl heq.symm
    · exact .inr (.inr hbefore)

/-- A block that has been left is not entered again. -/
theorem contiguous_labelDefs (program : Program) :
    Contiguous (labelDefsAt layout program.items) := by
  intro ds₁ d ds₂ hds b hb c hc v hvb hvc
  obtain ⟨l, rfl, rfl, rfl⟩ := exists_line_of_splitAt hds
  obtain ⟨l', rfl, rest, hrest⟩ := exists_line_beforeAt l hb
  obtain ⟨cs₁, cs₂, hcs⟩ := List.append_of_mem hc
  obtain ⟨pre, n, post, -, -, hd, -⟩ := exists_label_of_defsFromAt hcs
  by_contra hout
  have hmade : v ≤ (walkAfter l.pre).made := by
    have hgrows := walkAfter_grows l'.pre (.label l'.name :: rest)
    rw [← List.singleton_append, ← List.append_assoc, hrest] at hgrows
    exact Nat.le_trans ((walkAfter l'.pre).le_made v hvb) hgrows.made
  rw [hd] at hvc
  apply Walk.notMem_scopes_run hmade hout (([Item.label l.name] ++ pre).map Item.event)
  have hrun : (walkAfter l.pre).run (([Item.label l.name] ++ pre).map Item.event) =
      walkAfter (l.pre ++ [.label l.name] ++ pre) := by
    unfold walkAfter
    rw [← Walk.run_append, ← List.map_append, List.append_assoc]
  rw [hrun]
  exact hvc

theorem distinct_labelDefs (h : program.DistinctInScope) :
    Distinct (labelDefsAt layout program.items) := by
  intro ds₁ d ds₂ hds c hc hname hscopes
  obtain ⟨l, rfl, rfl, rfl⟩ := exists_line_of_splitAt hds
  obtain ⟨l', rfl, hbefore⟩ := exists_line_beforeAt l hc
  exact hbefore.pre_ne (h l' l hname hscopes)

/-- Shadows agree exactly when the definitions do. -/
theorem agrees_labelDefs : program.ShadowsAgree ↔ Agrees (labelDefsAt layout program.items) := by
  constructor
  · intro h ds₁ d ds₂ hds c hc hname hsuffix hne
    obtain ⟨l, rfl, rfl, rfl⟩ := exists_line_of_splitAt hds
    obtain ⟨l', rfl, hbefore⟩ := exists_line_beforeAt l hc
    exact h l' l hbefore hname ⟨hsuffix, hne⟩
  · intro h l l' hbefore hname houtside
    exact h _ _ _ (l'.splitAt layout) _ (LabelLine.mem_of_prefix layout hbefore) hname houtside.1
      houtside.2

/-! ### Checks on the list of definitions -/

/-- Labels are distinct where no name is listed twice with the same blocks around it. -/
theorem distinctInScope_of_nodup
    (h : ((labelDefsAt layout program.items).map fun d => (d.name, d.scopes)).Nodup) :
    program.DistinctInScope := by
  have hlater : ∀ l l' : LabelLine program, l.Before l' → l.name.text = l'.name.text →
      l.scopes ≠ l'.scopes := by
    intro l l' hbefore hname hscopes
    rw [l'.splitAt layout, List.map_append, List.map_cons] at h
    apply List.disjoint_of_nodup_append h
      (List.mem_map_of_mem (LabelLine.mem_of_prefix layout hbefore))
    rw [show ((l.definitionAt layout).name, (l.definitionAt layout).scopes) =
      ((l'.definitionAt layout).name, (l'.definitionAt layout).scopes) from Prod.ext hname hscopes]
    exact List.mem_cons_self
  intro l l' hname hscopes
  rcases l.trichotomy l' with heq | hbefore | hbefore
  · exact heq
  · exact absurd hscopes (hlater l l' hbefore hname)
  · exact absurd hscopes.symm (hlater l' l hbefore hname.symm)

theorem noShadowing_of_forall
    (h : ∀ d ∈ labelDefsAt layout program.items, ∀ d' ∈ labelDefsAt layout program.items,
      d.name = d'.name → d.scopes = d'.scopes) : program.NoShadowing :=
  fun l l' hname houtside => houtside.2 (h _ (l.memAt layout) _ (l'.memAt layout) hname)

end Definitions

end Frost32.Asm
