import Frost32.Lib.ScopeTable
import Mathlib.Data.List.MinMax

namespace Frost32.ScopeTable

/-!
# When looking outwards is lexical scoping

All definitions of a program are made once, in order, and then a second time with the same
values.  A name used at some place lexically refers to its innermost definition around that
place.

* `home` — the scope that a definition is recorded in.
* `exists_creator` — every entry was added by a definition of that very scope.
* `Agrees` — a definition further in than an earlier one of its name has the same value.
* `Consistent` — all definitions that share an entry have one value.
* `lookup_of_innermost` — **then the second time every look-up is lexical**.
* `define_eq_self`, `lookup_define_outer` — and no definition changes an outer one.
* `agrees_of_unchanged` — conversely, if none changes an outer one then they agree.
-/

variable {κ ν α : Type} [DecidableEq κ] [DecidableEq ν]

/-- The definitions of a program with nested scopes. -/
structure Nested (S : List κ → Prop) (ds : List (Def κ ν α)) : Prop where
  tree : TreeLike S
  mem : ∀ d ∈ ds, S d.scopes
  ne_nil : ∀ d ∈ ds, d.scopes ≠ []

/-- The scope that a definition is recorded in. -/
def home (ds : List (Def κ ν α)) (d : Def κ ν α) : Option κ :=
  owner (defineAll empty ds) d.scopes d.name

/-- No scope has two definitions of one name. -/
def Distinct (ds : List (Def κ ν α)) : Prop :=
  ∀ ds₁ d ds₂, ds = ds₁ ++ d :: ds₂ → ∀ c ∈ ds₁, c.name = d.name → c.scopes ≠ d.scopes

/-- A definition further in than an earlier one of the same name has the same value. -/
def Agrees (ds : List (Def κ ν α)) : Prop :=
  ∀ ds₁ d ds₂, ds = ds₁ ++ d :: ds₂ → ∀ c ∈ ds₁, c.name = d.name →
    c.scopes <:+ d.scopes → c.scopes ≠ d.scopes → c.value = d.value

/-- Definitions of one name that are recorded in one place have one value. -/
def Consistent (ds : List (Def κ ν α)) : Prop :=
  ∀ d ∈ ds, ∀ d' ∈ ds, d.name = d'.name → home ds d = home ds d' → d.value = d'.value

/-- A scope that has been left is not entered again. -/
def Contiguous (ds : List (Def κ ν α)) : Prop :=
  ∀ ds₁ d ds₂, ds = ds₁ ++ d :: ds₂ → ∀ b ∈ ds₁, ∀ c ∈ ds₂, ∀ v ∈ b.scopes, v ∈ c.scopes →
    v ∈ d.scopes

/-! ### Where definitions are recorded -/

/-- Every entry was added by a definition of that very scope. -/
theorem exists_creator {ds : List (Def κ ν α)} {o : κ} {n : ν}
    (h : (defineAll empty ds o n).isSome) :
    ∃ c ∈ ds, c.name = n ∧ c.scopes.head? = some o := by
  induction ds using List.reverseRecOn with
  | nil => cases h
  | append_singleton ds d ih =>
    rw [defineAll_concat] at h
    by_cases hold : (defineAll empty ds o n).isSome
    · obtain ⟨c, hc, hname, hhead⟩ := ih hold
      exact ⟨c, List.mem_append_left _ hc, hname, hhead⟩
    · -- the entry is new, so `d` is recorded here although nothing here had the name
      have htarget : n = d.name ∧ target (defineAll empty ds) d.scopes d.name = some o := by
        by_contra hne
        rw [define_apply_of_ne fun hn ht => hne ⟨hn, ht⟩] at h
        exact hold h
      obtain ⟨rfl, ht⟩ := htarget
      refine ⟨d, List.mem_append_right _ List.mem_cons_self, rfl, ?_⟩
      cases ho : owner (defineAll empty ds) d.scopes d.name with
      | some v =>
        rw [target_of_owner ho] at ht
        cases ht
        exact absurd (owner_eq_some ho).2 hold
      | none =>
        rw [target, ho] at ht
        exact ht

section Homes

variable {S : List κ → Prop} {ds : List (Def κ ν α)} (h : Nested S ds)
include h

/-- What a name resolves to while the definitions are made it resolves to at the end. -/
theorem Nested.owner_final {ds₁ ds₂ : List (Def κ ν α)} (hds : ds = ds₁ ++ ds₂)
    {scopes : List κ} (hs : S scopes) {n : ν} {o : κ}
    (ho : owner (defineAll empty ds₁) scopes n = some o) :
    owner (defineAll empty ds) scopes n = some o := by
  rw [hds, defineAll_append]
  exact owner_defineAll h.tree (fun d hd => h.mem d (hds ▸ List.mem_append_right _ hd)) hs ho

/-- A definition is recorded at its home. -/
theorem Nested.home_of_target {ds₁ ds₂ : List (Def κ ν α)} {d : Def κ ν α}
    (hds : ds = ds₁ ++ d :: ds₂) {o : κ}
    (ho : target (defineAll empty ds₁) d.scopes d.name = some o) : home ds d = some o := by
  have hds' : ds = (ds₁ ++ [d]) ++ ds₂ := by rw [hds, List.append_assoc]; rfl
  apply h.owner_final hds' (h.mem d (by rw [hds]; simp))
  rw [defineAll_concat]
  exact owner_define_self ho

/-- The home of a definition is where it stands, or where an earlier definition around it
    stands. -/
theorem Nested.exists_home {ds₁ ds₂ : List (Def κ ν α)} {d : Def κ ν α}
    (hds : ds = ds₁ ++ d :: ds₂) :
    ∃ o c, home ds d = some o ∧ c.name = d.name ∧ c.scopes.head? = some o ∧
      c.scopes <:+ d.scopes ∧ (c = d ∨ c ∈ ds₁) := by
  have hd : d ∈ ds := by rw [hds]; simp
  cases ho : owner (defineAll empty ds₁) d.scopes d.name with
  | some o =>
    obtain ⟨hmem, hsome⟩ := owner_eq_some ho
    obtain ⟨c, hc, hname, hhead⟩ := exists_creator hsome
    have hc' : c ∈ ds := by rw [hds]; exact List.mem_append_left _ hc
    refine ⟨o, c, h.home_of_target hds (target_of_owner ho), hname, hhead, ?_, .inr hc⟩
    exact h.tree.suffix_of_mem (h.mem d hd) (h.mem c hc') hhead hmem
  | none =>
    cases hs : d.scopes with
    | nil => exact absurd hs (h.ne_nil d hd)
    | cons o l =>
      refine ⟨o, d, h.home_of_target hds ?_, rfl, by rw [hs]; rfl, ?_, .inl rfl⟩
      · rw [target, ho, hs]
        rfl
      · exact ⟨[], by rw [hs, List.nil_append]⟩

theorem Nested.exists_home_of_mem {d : Def κ ν α} (hd : d ∈ ds) : ∃ o, home ds d = some o := by
  obtain ⟨ds₁, ds₂, hds⟩ := List.append_of_mem hd
  obtain ⟨o, c, ho, -⟩ := h.exists_home hds
  exact ⟨o, ho⟩

/-- **Definitions that agree are consistent**: they have the value of the one that added
    their entry. -/
theorem Nested.consistent_of_agrees (hdistinct : Distinct ds) (hagrees : Agrees ds) :
    Consistent ds := by
  -- the definition that added the entry is the only one of its scope
  have hcreator : ∀ d ∈ ds, ∃ o c, home ds d = some o ∧ c ∈ ds ∧ c.name = d.name ∧
      c.scopes.head? = some o ∧ c.value = d.value := by
    intro d hd
    obtain ⟨ds₁, ds₂, hds⟩ := List.append_of_mem hd
    obtain ⟨o, c, ho, hname, hhead, hsuffix, rfl | hc⟩ := h.exists_home hds
    · exact ⟨o, c, ho, hd, rfl, hhead, rfl⟩
    · refine ⟨o, c, ho, by rw [hds]; exact List.mem_append_left _ hc, hname, hhead, ?_⟩
      exact hagrees ds₁ d ds₂ hds c hc hname hsuffix (hdistinct ds₁ d ds₂ hds c hc hname)
  have hunique : ∀ c ∈ ds, ∀ c' ∈ ds, c.name = c'.name → c.scopes = c'.scopes → c = c' := by
    intro c hc c' hc' hname hscopes
    obtain ⟨ds₁, ds₂, hds⟩ := List.append_of_mem hc
    rw [hds] at hc'
    rcases List.mem_append.mp hc' with hbefore | hafter
    · exact absurd hscopes.symm (hdistinct ds₁ c ds₂ hds c' hbefore hname.symm)
    · rcases List.mem_cons.mp hafter with rfl | hafter
      · rfl
      · obtain ⟨l₁, l₂, rfl⟩ := List.append_of_mem hafter
        have hds' : ds = (ds₁ ++ c :: l₁) ++ c' :: l₂ := by rw [hds]; simp
        exact absurd hscopes (hdistinct _ c' _ hds' c (by simp) hname)
  intro d hd d' hd' hname hhome
  obtain ⟨o, c, ho, hc, hcname, hhead, hvalue⟩ := hcreator d hd
  obtain ⟨o', c', ho', hc', hcname', hhead', hvalue'⟩ := hcreator d' hd'
  rw [ho, ho'] at hhome
  cases hhome
  have hscopes : c.scopes = c'.scopes := by
    have hmem : o ∈ c'.scopes := List.mem_of_mem_head? hhead'
    have hmem' : o ∈ c.scopes := List.mem_of_mem_head? hhead
    have hin := h.tree.suffix_of_mem (h.mem c' hc') (h.mem c hc) hhead hmem
    have hout := h.tree.suffix_of_mem (h.mem c hc) (h.mem c' hc') hhead' hmem'
    exact hin.eq_of_length (Nat.le_antisymm hin.length_le hout.length_le)
  have hcc : c = c' := hunique c hc c' hc' (by rw [hcname, hcname', hname]) hscopes
  rw [← hvalue, hcc, hvalue']

end Homes

/-! ### Values -/

/-- Every value in the table is that of a definition whose home is there. -/
def Homed (ds : List (Def κ ν α)) (t : Table κ ν α) : Prop :=
  ∀ o n a, t o n = some a → ∃ d ∈ ds, d.name = n ∧ d.value = a ∧ home ds d = some o

theorem Homed.define {ds : List (Def κ ν α)} {t : Table κ ν α} (ht : Homed ds t)
    {d : Def κ ν α} (hd : d ∈ ds)
    (hhome : ∀ o, target t d.scopes d.name = some o → home ds d = some o) :
    Homed ds (define t d) := by
  intro o n a ha
  by_cases hown : n = d.name ∧ target t d.scopes d.name = some o
  · obtain ⟨rfl, ho⟩ := hown
    rw [define_of_target ho, set_apply, if_pos ⟨rfl, rfl⟩] at ha
    exact ⟨d, hd, rfl, Option.some.inj ha, hhome o ho⟩
  · rw [define_apply_of_ne fun hn ho => hown ⟨hn, ho⟩] at ha
    exact ht o n a ha

/-- An entry that only repeats a value leaves the table as it is. -/
theorem define_eq_self {ds : List (Def κ ν α)} (hc : Consistent ds) {t : Table κ ν α}
    (ht : Homed ds t) {d : Def κ ν α} (hd : d ∈ ds) {o : κ}
    (ho : owner t d.scopes d.name = some o) (hhome : home ds d = some o) : define t d = t := by
  obtain ⟨a, ha⟩ := Option.isSome_iff_exists.mp (owner_eq_some ho).2
  obtain ⟨d', hd', hname, hvalue, hhome'⟩ := ht o d.name a ha
  have hsame : d'.value = d.value := hc d' hd' d hd hname (by rw [hhome', hhome])
  funext u m
  rw [define_of_target (target_of_owner ho), set_apply]
  by_cases hum : u = o ∧ m = d.name
  · rw [if_pos hum, hum.1, hum.2, ha, ← hvalue, hsame]
  · rw [if_neg hum]

section Lookups

variable {S : List κ → Prop} {ds : List (Def κ ν α)} (h : Nested S ds)
include h

theorem Nested.homed_first {ds₁ ds₂ : List (Def κ ν α)} (hds : ds = ds₁ ++ ds₂) :
    Homed ds (defineAll empty ds₁) := by
  induction ds₁ using List.reverseRecOn generalizing ds₂ with
  | nil =>
    intro o n a ha
    cases ha
  | append_singleton ds₁ d ih =>
    have hds' : ds = ds₁ ++ d :: ds₂ := by rw [hds, List.append_assoc]; rfl
    rw [defineAll_concat]
    apply (ih hds').define (by rw [hds']; simp)
    intro o ho
    exact h.home_of_target hds' ho

/-- The second time there are the same entries, and each definition is made at its home. -/
theorem Nested.homed_again {ds₁ ds₂ : List (Def κ ν α)} (hds : ds = ds₁ ++ ds₂) :
    Homed ds (defineAll (defineAll empty ds) ds₁) ∧
      ∀ v n, (defineAll (defineAll empty ds) ds₁ v n).isSome = (defineAll empty ds v n).isSome := by
  induction ds₁ using List.reverseRecOn generalizing ds₂ with
  | nil => exact ⟨h.homed_first (List.append_nil ds).symm, fun _ _ => rfl⟩
  | append_singleton ds₁ d ih =>
    have hds' : ds = ds₁ ++ d :: ds₂ := by rw [hds, List.append_assoc]; rfl
    have hd : d ∈ ds := by rw [hds']; simp
    obtain ⟨hhomed, hsome⟩ := ih hds'
    obtain ⟨o, ho⟩ := h.exists_home_of_mem hd
    have hown : owner (defineAll (defineAll empty ds) ds₁) d.scopes d.name = some o := by
      rw [owner_congr fun v _ => hsome v d.name]
      exact ho
    rw [defineAll_concat]
    constructor
    · apply hhomed.define hd
      intro o' ho'
      rw [target_of_owner hown] at ho'
      rw [ho, ho']
    · intro v n
      rw [isSome_define_of_owner hown, hsome]

theorem Nested.owner_again {ds₁ ds₂ : List (Def κ ν α)} (hds : ds = ds₁ ++ ds₂)
    (scopes : List κ) (n : ν) :
    owner (defineAll (defineAll empty ds) ds₁) scopes n = owner (defineAll empty ds) scopes n :=
  owner_congr fun v _ => (h.homed_again hds).2 v n

end Lookups

/-! ### Lexical scoping -/

/-- The innermost definition of a name around a place. -/
structure Innermost (ds : List (Def κ ν α)) (scopes : List κ) (n : ν) (d : Def κ ν α) : Prop where
  mem : d ∈ ds
  name : d.name = n
  encloses : d.scopes <:+ scopes
  inner : ∀ d' ∈ ds, d'.name = n → d'.scopes <:+ scopes → d'.scopes <:+ d.scopes

/-- No definition changes what is recorded for an outer one of its name. -/
def Unchanged (ds : List (Def κ ν α)) : Prop :=
  ∀ ds₁ d ds₂, ds = ds₁ ++ d :: ds₂ → ∀ c ∈ ds, c.name = d.name → c.scopes <:+ d.scopes →
    c.scopes ≠ d.scopes → lookup (define (defineAll empty ds₁) d) c.scopes d.name =
      lookup (defineAll empty ds₁) c.scopes d.name

section Lexical

variable {S : List κ → Prop} {ds : List (Def κ ν α)} (h : Nested S ds)
include h

/-- A name that resolves has a definition around the place. -/
theorem Nested.exists_innermost {scopes : List κ} (hs : S scopes) {n : ν} {o : κ}
    (ho : owner (defineAll empty ds) scopes n = some o) : ∃ d, Innermost ds scopes n d := by
  classical
  obtain ⟨hmem, hsome⟩ := owner_eq_some ho
  obtain ⟨c, hc, hname, hhead⟩ := exists_creator hsome
  have hsuffix := h.tree.suffix_of_mem hs (h.mem c hc) hhead hmem
  -- the definition around the place with the most scopes
  let around := ds.filter fun d => decide (d.name = n ∧ d.scopes <:+ scopes)
  have haround : c ∈ around := by simp [around, hc, hname, hsuffix]
  cases hmax : around.argmax fun d => d.scopes.length with
  | none =>
    rw [List.argmax_eq_none.mp hmax] at haround
    cases haround
  | some d =>
    have hd := List.argmax_mem hmax
    simp only [around, List.mem_filter, decide_eq_true_eq] at hd
    refine ⟨d, hd.1, hd.2.1, hd.2.2, ?_⟩
    intro d' hd' hname' hsuffix'
    have hle : d'.scopes.length ≤ d.scopes.length := by
      apply List.le_of_mem_argmax _ hmax
      simp [around, hd', hname', hsuffix']
    exact List.suffix_of_suffix_length_le hsuffix' hd.2.2 hle

/-- Between a place and the innermost definition around it no scope has the name. -/
theorem Nested.owner_of_innermost {scopes : List κ} (hs : S scopes) {n : ν} {d : Def κ ν α}
    (hd : Innermost ds scopes n d) : owner (defineAll empty ds) scopes n = home ds d := by
  obtain ⟨p, rfl⟩ := hd.encloses
  rw [owner_append, home, hd.name]
  intro v hv
  by_contra hsome
  obtain ⟨c, hc, hname, hhead⟩ := exists_creator (Option.isSome_iff_ne_none.mpr hsome)
  have hc' := h.tree.suffix_of_mem hs (h.mem c hc) hhead (List.mem_append_left _ hv)
  have hmem : v ∈ d.scopes := (hd.inner c hc hname hc').subset (List.mem_of_mem_head? hhead)
  exact h.tree.disjoint hs hv hmem

/-- **Where definitions agree, look-ups are lexical**: the second time a name has the value
    of the innermost definition around the place, whether that has been made again or not. -/
theorem Nested.lookup_of_innermost (hc : Consistent ds) {ds₁ ds₂ : List (Def κ ν α)}
    (hds : ds = ds₁ ++ ds₂) {scopes : List κ} (hs : S scopes) {n : ν} {d : Def κ ν α}
    (hd : Innermost ds scopes n d) :
    lookup (defineAll (defineAll empty ds) ds₁) scopes n = some d.value := by
  obtain ⟨o, ho⟩ := h.exists_home_of_mem hd.mem
  have hown : owner (defineAll (defineAll empty ds) ds₁) scopes n = some o := by
    rw [h.owner_again hds, h.owner_of_innermost hs hd, ho]
  obtain ⟨a, ha⟩ := Option.isSome_iff_exists.mp (owner_eq_some hown).2
  obtain ⟨d', hd', hname, hvalue, hhome⟩ := (h.homed_again hds).1 o n a ha
  rw [lookup_of_owner hown, ha, ← hvalue]
  rw [hc d' hd' d hd.mem (by rw [hname, hd.name]) (by rw [hhome, ho])]

/-! ### Outer definitions -/

omit h in
/-- A new entry does not change what is recorded further out. -/
theorem lookup_define_outer (hS : TreeLike S) {t : Table κ ν α} {d : Def κ ν α} (hd : S d.scopes)
    (ho : owner t d.scopes d.name = none) {scopes : List κ} (hs : scopes <:+ d.scopes)
    (hne : scopes ≠ d.scopes) :
    lookup (define t d) scopes d.name = lookup t scopes d.name := by
  obtain ⟨p, hp⟩ := hs
  have hsame : ∀ v ∈ scopes, define t d v d.name = t v d.name := by
    intro v hv
    apply define_apply_of_ne
    intro _ ht
    rw [target, ho] at ht
    cases p with
    | nil => exact hne hp
    | cons u p =>
      rw [← hp] at ht hd
      have huv : u = v := Option.some.inj ht
      subst huv
      exact hS.disjoint hd List.mem_cons_self hv
  have hnone : owner t scopes d.name = none := by
    rw [owner_eq_none] at ho ⊢
    intro v hv
    exact ho v (by rw [← hp]; exact List.mem_append_right _ hv)
  rw [lookup, lookup, owner_congr fun v hv => by rw [hsame v hv], hnone]
  rfl

section Repeated

variable {l₁ l₂ ds₂ : List (Def κ ν α)} {c d : Def κ ν α} (hcont : Contiguous ds)
  (hds : ds = (l₁ ++ c :: l₂) ++ d :: ds₂) (hsuffix : c.scopes <:+ d.scopes)
include hcont hds hsuffix

/-- Up to `d` the entry keeps the value of `c`. -/
theorem Nested.lookup_kept (hdistinct : Distinct ds) (hunchanged : Unchanged ds)
    (m m' : List (Def κ ν α)) (hm : l₂ = m ++ m') :
    lookup (defineAll empty (l₁ ++ c :: m)) c.scopes c.name = some c.value := by
  have hcmem : c ∈ ds := by rw [hds]; simp
  obtain ⟨v, r, hv⟩ := List.exists_cons_of_ne_nil (h.ne_nil c hcmem)
  have hvc : v ∈ c.scopes := by rw [hv]; exact List.mem_cons_self
  induction m using List.reverseRecOn generalizing m' with
  | nil =>
    obtain ⟨o, ho⟩ := exists_target (defineAll empty l₁) (h.ne_nil c hcmem) c.name
    rw [defineAll_concat]
    exact lookup_define_self ho
  | append_singleton m e ih =>
    have hl₂ : l₂ = m ++ e :: m' := by rw [hm, List.append_assoc]; rfl
    have hdse : ds = (l₁ ++ c :: m) ++ e :: (m' ++ d :: ds₂) := by rw [hds, hl₂]; simp
    have hbefore := ih (e :: m') hl₂
    rw [← List.cons_append, ← List.append_assoc, defineAll_concat]
    by_cases hen : c.name = e.name
    · have hve : v ∈ e.scopes := by
        apply hcont _ e _ hdse c (by simp) d (by simp) v hvc
        exact hsuffix.subset hvc
      have heS := h.mem e (by rw [hdse]; simp)
      have hce : c.scopes <:+ e.scopes :=
        h.tree.suffix_of_mem heS (h.mem c hcmem) (by rw [hv]; rfl) hve
      have hnec : c.scopes ≠ e.scopes := hdistinct _ e _ hdse c (by simp) hen
      rw [hen, hunchanged _ e _ hdse c hcmem hen hce hnec, ← hen]
      exact hbefore
    · have hsame : ∀ u, define (defineAll empty (l₁ ++ c :: m)) e u c.name =
          defineAll empty (l₁ ++ c :: m) u c.name :=
        fun u => define_apply_of_ne fun hn => absurd hn hen
      rw [lookup] at hbefore ⊢
      rw [owner_congr fun u _ => by rw [hsame u]]
      simp only [hsame]
      exact hbefore

/-- Between the scopes of `c` and those of `d` no scope has the name right after `c`. -/
theorem Nested.owner_inner {o : κ}
    (hown : owner (defineAll empty (l₁ ++ [c])) c.scopes c.name = some o) :
    owner (defineAll empty (l₁ ++ [c])) d.scopes c.name = some o := by
  have hdS := h.mem d (by rw [hds]; simp)
  obtain ⟨p, hp⟩ := hsuffix
  rw [← hp, owner_append, hown]
  intro u hu
  by_contra hsome
  obtain ⟨b, hb, hbname, hhead⟩ := exists_creator (Option.isSome_iff_ne_none.mpr hsome)
  have hub := List.mem_of_mem_head? hhead
  have huc : u ∈ c.scopes := by
    rcases List.mem_append.mp hb with hb | hb
    · apply hcont l₁ c (l₂ ++ d :: ds₂) (by rw [hds]; simp) b hb d (by simp) u hub
      rw [← hp]
      exact List.mem_append_left _ hu
    · rw [List.mem_singleton.mp hb] at hub
      exact hub
  rw [← hp] at hdS
  exact h.tree.disjoint hdS hu huc

/-- `d` is recorded in the entry of `c`. -/
theorem Nested.owner_repeated (hname : c.name = d.name) {o : κ}
    (ho : target (defineAll empty l₁) c.scopes c.name = some o) :
    owner (defineAll empty (l₁ ++ c :: l₂)) c.scopes d.name = some o ∧
      owner (defineAll empty (l₁ ++ c :: l₂)) d.scopes d.name = some o := by
  have hown : owner (defineAll empty (l₁ ++ [c])) c.scopes c.name = some o := by
    rw [defineAll_concat]
    exact owner_define_self ho
  have hlater : ∀ e ∈ l₂, S e.scopes := by
    intro e he
    exact h.mem e (by rw [hds]; simp [he])
  have hsplit : l₁ ++ c :: l₂ = (l₁ ++ [c]) ++ l₂ := List.append_cons ..
  rw [hsplit, defineAll_append, ← hname]
  constructor
  · exact owner_defineAll h.tree hlater (h.mem c (by rw [hds]; simp)) hown
  · exact owner_defineAll h.tree hlater (h.mem d (by rw [hds]; simp))
      (h.owner_inner hcont hds hsuffix hown)

end Repeated

/-- **If no definition changes an outer one, definitions agree.** -/
theorem Nested.agrees_of_unchanged (hdistinct : Distinct ds) (hcont : Contiguous ds)
    (hunchanged : Unchanged ds) : Agrees ds := by
  intro ds₁ d ds₂ hds c hc hname hsuffix hne
  obtain ⟨l₁, l₂, rfl⟩ := List.append_of_mem hc
  have hcmem : c ∈ ds := by rw [hds]; simp
  have hdmem : d ∈ ds := by rw [hds]; simp
  have hcS := h.mem c hcmem
  have hdS := h.mem d hdmem
  obtain ⟨o, ho⟩ := exists_target (defineAll empty l₁) (h.ne_nil c hcmem) c.name
  obtain ⟨hcown, hdown⟩ := h.owner_repeated hcont hds hsuffix hname ho
  have hafter : lookup (define (defineAll empty (l₁ ++ c :: l₂)) d) c.scopes d.name =
      some d.value := by
    rw [lookup_of_owner (owner_define h.tree hdS hcS hcown),
      define_of_target (target_of_owner hdown), set_apply, if_pos ⟨rfl, rfl⟩]
  have hkept := h.lookup_kept hcont hds hsuffix hdistinct hunchanged l₂ []
    (List.append_nil l₂).symm
  rw [hunchanged _ d _ hds c hcmem hname hsuffix hne, ← hname, hkept] at hafter
  exact Option.some.inj hafter

end Lexical

end Frost32.ScopeTable
