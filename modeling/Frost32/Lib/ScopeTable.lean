import Mathlib.Data.List.Basic
import Mathlib.Data.List.Induction
import Mathlib.Logic.Function.Basic

namespace Frost32.ScopeTable

/-!
# Definitions that look outwards first

A table for nested scopes in which a definition reuses the entry of the innermost enclosing
scope that already has one, and adds an entry to its own scope only where there is none.
Scopes, names and values are arbitrary; the scopes around a place are a list, innermost first.

* `Table`, `owner`, `lookup`, `define` — the table and its operations.
* `TreeLike` — scope lists that share a scope agree from there on outwards.
* `owner_defineAll` — once a name resolves somewhere it resolves there for ever.
-/

section LookUp

variable {κ ν α : Type}

/-- The entries of each scope. -/
abbrev Table (κ ν α : Type) := κ → ν → Option α

/-- The definition of a name, with the scopes around it. -/
structure Def (κ ν α : Type) where
  scopes : List κ
  name : ν
  value : α

def empty : Table κ ν α := fun _ _ => none

/-- The innermost of the scopes that has the name. -/
def owner (t : Table κ ν α) (scopes : List κ) (n : ν) : Option κ :=
  scopes.find? fun v => (t v n).isSome

def lookup (t : Table κ ν α) (scopes : List κ) (n : ν) : Option α :=
  (owner t scopes n).bind fun v => t v n

/-- Where a definition is recorded: with the owner of the name if there is one, else in the
    innermost scope. -/
def target (t : Table κ ν α) (scopes : List κ) (n : ν) : Option κ :=
  (owner t scopes n).or scopes.head?

variable {t t' : Table κ ν α} {scopes : List κ} {n : ν} {v : κ}

theorem owner_eq_some (h : owner t scopes n = some v) : v ∈ scopes ∧ (t v n).isSome := by
  unfold owner at h
  exact ⟨List.mem_of_find?_eq_some h, (List.find?_eq_some_iff_append.mp h).1⟩

theorem owner_eq_none : owner t scopes n = none ↔ ∀ v ∈ scopes, t v n = none := by
  simp [owner]

/-- A name with an owner has a value. -/
theorem lookup_of_owner (h : owner t scopes n = some v) : lookup t scopes n = t v n := by
  rw [lookup, h]
  rfl

theorem exists_owner_of_lookup {a : α} (h : lookup t scopes n = some a) :
    ∃ v, owner t scopes n = some v ∧ t v n = some a := Option.bind_eq_some_iff.mp h

/-- Owners depend on which entries exist only. -/
theorem owner_congr (h : ∀ v ∈ scopes, (t' v n).isSome = (t v n).isSome) :
    owner t' scopes n = owner t scopes n := by
  unfold owner
  induction scopes with
  | nil => rfl
  | cons v l ih =>
    rw [List.find?_cons, List.find?_cons, h v List.mem_cons_self,
      ih fun u hu => h u (List.mem_cons_of_mem v hu)]

/-- Scopes without the name are passed over. -/
theorem owner_append {p : List κ} (h : ∀ v ∈ p, t v n = none) :
    owner t (p ++ scopes) n = owner t scopes n := by
  unfold owner
  rw [List.find?_append, List.find?_eq_none.mpr]
  · rfl
  · intro v hv
    simp [h v hv]

/-- A definition in some scope is recorded somewhere. -/
theorem exists_target (t : Table κ ν α) {scopes : List κ} (hne : scopes ≠ []) (n : ν) :
    ∃ v, target t scopes n = some v := by
  cases ho : owner t scopes n with
  | some v => exact ⟨v, by rw [target, ho]; rfl⟩
  | none =>
    obtain ⟨v, l, rfl⟩ := List.exists_cons_of_ne_nil hne
    exact ⟨v, by rw [target, ho]; rfl⟩

theorem target_of_owner (h : owner t scopes n = some v) : target t scopes n = some v := by
  rw [target, h]
  rfl

end LookUp

section Definitions

variable {κ ν α : Type} [DecidableEq κ] [DecidableEq ν]

def set (t : Table κ ν α) (v : κ) (n : ν) (a : α) : Table κ ν α :=
  Function.update t v (Function.update (t v) n (some a))

def define (t : Table κ ν α) (d : Def κ ν α) : Table κ ν α :=
  match target t d.scopes d.name with
  | some v => set t v d.name d.value
  | none => t

def defineAll (t : Table κ ν α) (ds : List (Def κ ν α)) : Table κ ν α := ds.foldl define t

theorem defineAll_append (t : Table κ ν α) (ds ds' : List (Def κ ν α)) :
    defineAll t (ds ++ ds') = defineAll (defineAll t ds) ds' := List.foldl_append ..

theorem defineAll_concat (t : Table κ ν α) (ds : List (Def κ ν α)) (d : Def κ ν α) :
    defineAll t (ds ++ [d]) = define (defineAll t ds) d := by
  rw [defineAll_append]
  rfl

theorem set_apply (t : Table κ ν α) (v : κ) (n : ν) (a : α) (u : κ) (m : ν) :
    set t v n a u m = if u = v ∧ m = n then some a else t u m := by
  unfold set
  by_cases hu : u = v
  · subst hu
    rw [Function.update_self]
    by_cases hm : m = n
    · subst hm
      rw [Function.update_self, if_pos ⟨rfl, rfl⟩]
    · rw [Function.update_of_ne hm, if_neg fun h => hm h.2]
  · rw [Function.update_of_ne hu, if_neg fun h => hu h.1]

theorem define_of_target {t : Table κ ν α} {d : Def κ ν α} {v : κ}
    (h : target t d.scopes d.name = some v) : define t d = set t v d.name d.value := by
  rw [define, h]

/-- A definition touches one entry only: its own. -/
theorem define_apply_of_ne {t : Table κ ν α} {d : Def κ ν α} {u : κ} {m : ν}
    (h : m = d.name → target t d.scopes d.name ≠ some u) : define t d u m = t u m := by
  unfold define
  cases ht : target t d.scopes d.name with
  | none => rfl
  | some v =>
    show set t v d.name d.value u m = t u m
    rw [set_apply, if_neg]
    rintro ⟨rfl, rfl⟩
    exact h rfl ht

theorem isSome_define {t : Table κ ν α} (d : Def κ ν α) {u : κ} {m : ν} (h : (t u m).isSome) :
    (define t d u m).isSome := by
  unfold define
  cases target t d.scopes d.name with
  | none => exact h
  | some v =>
    show (set t v d.name d.value u m).isSome
    rw [set_apply]
    split
    · rfl
    · exact h

/-- A definition that finds an owner adds no entry. -/
theorem isSome_define_of_owner {t : Table κ ν α} {d : Def κ ν α} {v : κ}
    (h : owner t d.scopes d.name = some v) (u : κ) (m : ν) :
    (define t d u m).isSome = (t u m).isSome := by
  rw [define_of_target (target_of_owner h), set_apply]
  by_cases hum : u = v ∧ m = d.name
  · rw [if_pos hum, hum.1, hum.2]
    exact (owner_eq_some h).2.symm
  · rw [if_neg hum]

/-- A definition is found where it was recorded. -/
theorem owner_define_self {t : Table κ ν α} {d : Def κ ν α} {v : κ}
    (h : target t d.scopes d.name = some v) :
    owner (define t d) d.scopes d.name = some v := by
  cases ho : owner t d.scopes d.name with
  | some u =>
    rw [target_of_owner ho] at h
    rw [owner_congr fun x _ => isSome_define_of_owner ho x d.name, ho, h]
  | none =>
    -- the name is added to the innermost scope, where the search starts
    rw [target, ho] at h
    rw [define_of_target (by rw [target, ho]; exact h), owner]
    cases hs : d.scopes with
    | nil => rw [hs] at h; cases h
    | cons u l =>
      rw [hs] at h
      have hu : u = v := Option.some.inj h
      subst hu
      rw [List.find?_cons, set_apply, if_pos ⟨rfl, rfl⟩]
      rfl

theorem lookup_define_self {t : Table κ ν α} {d : Def κ ν α} {v : κ}
    (h : target t d.scopes d.name = some v) :
    lookup (define t d) d.scopes d.name = some d.value := by
  rw [lookup_of_owner (owner_define_self h), define_of_target h, set_apply, if_pos ⟨rfl, rfl⟩]

end Definitions

/-! ### Scope lists of one tree -/

section Trees

variable {κ ν α : Type}

/-- Scope lists of one tree: two that share a scope agree from there on outwards. -/
def TreeLike (S : List κ → Prop) : Prop :=
  ∀ l l', S l → S l' → ∀ v q r, v :: q <:+ l → v :: r <:+ l' → q = r

/-- A scope of a scope list starts a list that is part of every list with this scope. -/
theorem TreeLike.suffix_of_mem {S : List κ → Prop} (hS : TreeLike S) {l l' : List κ}
    (hl : S l) (hl' : S l') {v : κ}
    (hv : l'.head? = some v) (hmem : v ∈ l) : l' <:+ l := by
  cases l' with
  | nil => cases hv
  | cons u r =>
    have hu : u = v := Option.some.inj hv
    subst hu
    obtain ⟨p, q, rfl⟩ := List.append_of_mem hmem
    rw [hS _ _ hl' hl u r q List.suffix_rfl ⟨p, rfl⟩]
    exact ⟨p, rfl⟩

/-- A list that starts at one of the scopes inside `o` has `o` further out. -/
theorem TreeLike.mem_of_head {S : List κ → Prop} (hS : TreeLike S) {l p q : List κ} {o v : κ}
    (hl : S l) (hl' : S (p ++ o :: q)) (hhead : l.head? = some v) (hv : v ∈ p) : o ∈ l := by
  cases l with
  | nil => cases hhead
  | cons u r =>
    have hu : u = v := Option.some.inj hhead
    subst hu
    obtain ⟨p₁, p₂, rfl⟩ := List.append_of_mem hv
    have htail : r = p₂ ++ o :: q :=
      hS _ _ hl hl' u r (p₂ ++ o :: q) List.suffix_rfl ⟨p₁, by simp⟩
    rw [htail]
    simp

/-- No scope is its own parent. -/
theorem TreeLike.disjoint {S : List κ → Prop} (hS : TreeLike S) {p q : List κ} (h : S (p ++ q))
    {v : κ} (hv : v ∈ p) : v ∉ q := by
  intro hq
  obtain ⟨p₁, p₂, rfl⟩ := List.append_of_mem hv
  obtain ⟨q₁, q₂, rfl⟩ := List.append_of_mem hq
  have heq : p₂ ++ (q₁ ++ v :: q₂) = q₂ := by
    apply hS _ _ h h v
    · exact ⟨p₁, by simp⟩
    · exact ⟨p₁ ++ v :: p₂ ++ q₁, by simp⟩
  have hlength := congrArg List.length heq
  simp only [List.length_append, List.length_cons] at hlength
  omega

variable [DecidableEq κ] [DecidableEq ν] {S : List κ → Prop} (hS : TreeLike S)
include hS

/-- **Once a name resolves to a scope it goes on doing so.** -/
theorem owner_define {t : Table κ ν α} {d : Def κ ν α} {scopes : List κ} {n : ν} {o : κ}
    (hd : S d.scopes) (hs : S scopes) (h : owner t scopes n = some o) :
    owner (define t d) scopes n = some o := by
  by_cases hn : n = d.name
  · subst hn
    cases ho : owner t d.scopes d.name with
    | some v => rw [owner_congr fun x _ => isSome_define_of_owner ho x d.name, h]
    | none =>
      cases ht : target t d.scopes d.name with
      | none =>
        unfold define
        rw [ht]
        exact h
      | some v =>
        -- the new entry is not inside the owner: its scopes would contain the owner
        rw [define_of_target ht]
        have hhead : d.scopes.head? = some v := by rw [target, ho] at ht; exact ht
        obtain ⟨p, q, hpq, hp⟩ := List.find?_eq_some_iff_append.mp h |>.2
        have hout : v ∉ p := by
          intro hv
          have hmem : o ∈ d.scopes := hS.mem_of_head hd (hpq ▸ hs) hhead hv
          exact List.find?_eq_none.mp ho o hmem (owner_eq_some h).2
        have hfound : (set t v d.name d.value o d.name).isSome := by
          rw [set_apply]
          split
          · rfl
          · exact (owner_eq_some h).2
        rw [owner, hpq, List.find?_append, List.find?_cons, hfound]
        have hnotp : p.find? (fun x => (set t v d.name d.value x d.name).isSome) = none := by
          apply List.find?_eq_none.mpr
          intro x hx
          rw [set_apply, if_neg fun (hxv : x = v ∧ _) => hout (hxv.1 ▸ hx)]
          have hpx := hp x hx
          simpa using hpx
        rw [hnotp]
        rfl
  · have hsame : ∀ v ∈ scopes, (define t d v n).isSome = (t v n).isSome := by
      intro v _
      rw [define_apply_of_ne fun he => absurd he hn]
    rw [owner_congr hsame, h]

theorem owner_defineAll {t : Table κ ν α} {ds : List (Def κ ν α)} {scopes : List κ} {n : ν}
    {o : κ} (hds : ∀ d ∈ ds, S d.scopes) (hs : S scopes) (h : owner t scopes n = some o) :
    owner (defineAll t ds) scopes n = some o := by
  induction ds generalizing t with
  | nil => exact h
  | cons d ds ih =>
    apply ih (t := define t d) (fun d' hd' => hds d' (List.mem_cons_of_mem d hd'))
    exact owner_define hS (hds d List.mem_cons_self) hs h

end Trees

end Frost32.ScopeTable
