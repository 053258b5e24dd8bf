import Frost32.Lib.LexicalScope

namespace Frost32.ScopeTable

/-!
# Which definitions add an entry

An entry is added by the first definition of its name in its scope, if no definition of that
name stands further out before it.  Where no name is defined both in a scope and in one
around it, every definition has the entry of its own scope.

* `owner_eq_none_iff` — a name has no owner as long as it has no definition around the place.
* `isSome_iff` — **when a scope has an entry of its own**.
* `Unshadowed`, `Created` — definitions without shadowing, and tables whose entries they made.
* `target_of_unshadowed` — then definitions are recorded where they stand.
* `entry_defineAll` — and an entry has the value of the definitions of its scope.
-/

variable {κ ν α : Type} [DecidableEq κ] [DecidableEq ν]

section Entries

variable {S : List κ → Prop} {ds : List (Def κ ν α)} (h : Nested S ds)
include h

omit [DecidableEq κ] [DecidableEq ν] in
/-- The definitions made so far are nested too. -/
theorem Nested.first {ds₁ ds₂ : List (Def κ ν α)} (hds : ds = ds₁ ++ ds₂) : Nested S ds₁ where
  tree := h.tree
  mem := fun d hd => h.mem d (by rw [hds]; exact List.mem_append_left _ hd)
  ne_nil := fun d hd => h.ne_nil d (by rw [hds]; exact List.mem_append_left _ hd)

/-- **A name has no owner exactly where it has no definition around the place.** -/
theorem Nested.owner_eq_none_iff {scopes : List κ} (hs : S scopes) {n : ν} :
    owner (defineAll empty ds) scopes n = none ↔
      ∀ c ∈ ds, c.name = n → ¬ c.scopes <:+ scopes := by
  constructor
  · intro hnone c hc hname hsuffix
    -- what the definition is recorded with is around the place too
    obtain ⟨o, ho⟩ := h.exists_home_of_mem hc
    obtain ⟨hmem, hsome⟩ := owner_eq_some ho
    rw [hname, ScopeTable.owner_eq_none.mp hnone o (hsuffix.subset hmem)] at hsome
    cases hsome
  · intro hnone
    rw [ScopeTable.owner_eq_none]
    intro v hv
    by_contra hsome
    obtain ⟨c, hc, hname, hhead⟩ := exists_creator (Option.isSome_iff_ne_none.mpr hsome)
    exact hnone c hc hname (h.tree.suffix_of_mem hs (h.mem c hc) hhead hv)

/-- **A scope has an entry exactly if it has a definition of the name that no earlier one
    stands around.** -/
theorem Nested.isSome_iff {o : κ} {n : ν} :
    (defineAll empty ds o n).isSome ↔
      ∃ ds₁ d ds₂, ds = ds₁ ++ d :: ds₂ ∧ d.name = n ∧ d.scopes.head? = some o ∧
        ∀ c ∈ ds₁, c.name = n → ¬ c.scopes <:+ d.scopes := by
  induction ds using List.reverseRecOn with
  | nil =>
    constructor
    · intro hsome
      cases hsome
    · rintro ⟨ds₁, d, ds₂, hds, -⟩
      cases ds₁ <;> cases hds
  | append_singleton ds e ih =>
    have hfirst : Nested S ds := h.first rfl
    have he : S e.scopes := h.mem e (by simp)
    rw [defineAll_concat]
    constructor
    · intro hsome
      by_cases hold : (defineAll empty ds o n).isSome
      · obtain ⟨ds₁, d, ds₂, rfl, hd⟩ := (ih hfirst).mp hold
        exact ⟨ds₁, d, ds₂ ++ [e], by simp, hd⟩
      · -- the last definition has added the entry
        have htarget : n = e.name ∧ target (defineAll empty ds) e.scopes e.name = some o := by
          by_contra hne
          rw [define_apply_of_ne fun hn ht => hne ⟨hn, ht⟩] at hsome
          exact hold hsome
        obtain ⟨rfl, ht⟩ := htarget
        have hnone : owner (defineAll empty ds) e.scopes e.name = none := by
          cases howner : owner (defineAll empty ds) e.scopes e.name with
          | none => rfl
          | some v =>
            rw [target_of_owner howner] at ht
            cases ht
            exact absurd (owner_eq_some howner).2 hold
        rw [target, hnone] at ht
        exact ⟨ds, e, [], rfl, rfl, ht, (hfirst.owner_eq_none_iff he).mp hnone⟩
    · rintro ⟨ds₁, d, ds₂, hds, hname, hhead, hfree⟩
      rcases List.eq_nil_or_concat ds₂ with rfl | ⟨ds₂, e', rfl⟩
      · obtain ⟨rfl, hde⟩ := List.append_inj' hds rfl
        cases hde
        have hnone := (hfirst.owner_eq_none_iff he).mpr (hname ▸ hfree)
        have ht : target (defineAll empty ds) e.scopes e.name = some o := by
          rw [target, hnone]
          exact hhead
        rw [define_of_target ht, set_apply, if_pos ⟨rfl, hname.symm⟩]
        rfl
      · rw [List.concat_eq_append, ← List.cons_append, ← List.append_assoc] at hds
        obtain ⟨rfl, -⟩ := List.append_inj' hds rfl
        exact isSome_define e ((ih hfirst).mpr ⟨ds₁, d, ds₂, rfl, hname, hhead, hfree⟩)

end Entries

/-! ### Without shadowing -/

/-- No name is defined both in a scope and in one around it. -/
def Unshadowed (ds : List (Def κ ν α)) : Prop :=
  ∀ c ∈ ds, ∀ d ∈ ds, c.name = d.name → c.scopes <:+ d.scopes → c.scopes = d.scopes

/-- Every entry is one that the listed definitions can have made. -/
def Created (ds : List (Def κ ν α)) (t : Table κ ν α) : Prop :=
  ∀ v n, (t v n).isSome → ∃ c ∈ ds, c.name = n ∧ c.scopes.head? = some v

/-- The definition stands where one of the listed ones does, with the same name. -/
def Listed (ds : List (Def κ ν α)) (d : Def κ ν α) : Prop :=
  ∃ c ∈ ds, c.name = d.name ∧ c.scopes = d.scopes

omit [DecidableEq κ] [DecidableEq ν] in
theorem created_empty (ds : List (Def κ ν α)) : Created ds empty := by
  intro v n hsome
  cases hsome

section Unshadowed

variable {S : List κ → Prop} {ds : List (Def κ ν α)} (h : Nested S ds) (hun : Unshadowed ds)
  {t : Table κ ν α}
include h hun

omit [DecidableEq κ] [DecidableEq ν] in
/-- **A definition is recorded where it stands.** -/
theorem Nested.target_of_unshadowed (ht : Created ds t) {d : Def κ ν α} (hd : Listed ds d) :
    target t d.scopes d.name = d.scopes.head? := by
  obtain ⟨c, hc, hname, hscopes⟩ := hd
  cases ho : owner t d.scopes d.name with
  | none =>
    rw [target, ho]
    rfl
  | some v =>
    obtain ⟨hmem, hsome⟩ := owner_eq_some ho
    obtain ⟨e, he, hename, hehead⟩ := ht v d.name hsome
    have hsuffix := h.tree.suffix_of_mem (h.mem c hc) (h.mem e he) hehead (hscopes ▸ hmem)
    rw [target_of_owner ho, ← hscopes, ← hun e he c hc (hename.trans hname.symm) hsuffix, hehead]

theorem Nested.created_define (ht : Created ds t) {d : Def κ ν α} (hd : Listed ds d) :
    Created ds (define t d) := by
  obtain ⟨c, hc, hname, hscopes⟩ := id hd
  intro v n hsome
  by_cases hown : n = d.name ∧ target t d.scopes d.name = some v
  · rw [h.target_of_unshadowed hun ht hd] at hown
    exact ⟨c, hc, hname.trans hown.1.symm, hscopes ▸ hown.2⟩
  · rw [define_apply_of_ne fun hn ho => hown ⟨hn, ho⟩] at hsome
    exact ht v n hsome

theorem Nested.created_defineAll (ht : Created ds t) {es : List (Def κ ν α)}
    (hes : ∀ e ∈ es, Listed ds e) : Created ds (defineAll t es) := by
  induction es generalizing t with
  | nil => exact ht
  | cons e es ih =>
    exact ih (h.created_define hun ht (hes e List.mem_cons_self))
      fun e' he' => hes e' (List.mem_cons_of_mem e he')

/-- **An entry has the value of the definitions of its scope.** -/
theorem Nested.entry_defineAll (ht : Created ds t) {c : Def κ ν α} (hc : c ∈ ds) {v : κ}
    (hv : c.scopes.head? = some v) {a : α} {es : List (Def κ ν α)} (hes : ∀ e ∈ es, Listed ds e)
    (hvalue : ∀ e ∈ es, e.name = c.name → e.scopes = c.scopes → e.value = a)
    (hsome : (∃ e ∈ es, e.name = c.name ∧ e.scopes = c.scopes) ∨ t v c.name = some a) :
    defineAll t es v c.name = some a := by
  induction es generalizing t with
  | nil =>
    rcases hsome with ⟨e, he, -⟩ | hsome
    · cases he
    · exact hsome
  | cons e es ih =>
    have hlisted := hes e List.mem_cons_self
    have htarget := h.target_of_unshadowed hun ht hlisted
    apply ih (h.created_define hun ht hlisted) (fun e' he' => hes e' (List.mem_cons_of_mem e he'))
      fun e' he' => hvalue e' (List.mem_cons_of_mem e he')
    by_cases hsame : e.name = c.name ∧ e.scopes = c.scopes
    · refine .inr ?_
      rw [hsame.2, hv, ← hsame.2] at htarget
      rw [define_of_target htarget, set_apply, if_pos ⟨rfl, hsame.1.symm⟩,
        hvalue e List.mem_cons_self hsame.1 hsame.2]
    · rcases hsome with ⟨e', he', hsame'⟩ | hsome
      · rcases List.mem_cons.mp he' with rfl | he'
        · exact absurd hsame' hsame
        · exact .inl ⟨e', he', hsame'⟩
      · refine .inr ?_
        rw [define_apply_of_ne, hsome]
        intro hname ht'
        -- definitions of one innermost scope have the same scopes
        obtain ⟨d, hd, hdname, hdscopes⟩ := hlisted
        rw [htarget] at ht'
        rw [← hdscopes] at ht'
        have hin := h.tree.suffix_of_mem (h.mem c hc) (h.mem d hd) ht' (List.mem_of_mem_head? hv)
        have hdc := hun d hd c hc (hdname.trans hname.symm) hin
        exact hsame ⟨hname.symm, hdscopes ▸ hdc⟩

end Unshadowed

end Frost32.ScopeTable
