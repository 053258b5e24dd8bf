import Mathlib.Data.List.Basic

namespace Frost32.Munch

/-!
# Lexers by the longest match

A lexer with a list of rules takes, at every place, the rule that matches the longest prefix
of what is left, and of several such rules the first.

* `Rule`, `Rule.literal`, `Rule.run` — how much of a text a rule matches, for a fixed text and
  for a run of characters after fixed ones.
* `pick`, `lex` — the rule that is taken, and the tokens of a text.
* `lex_of_longest` — **the text of a token is read as this token** if no rule matches more and
  every rule that matches as much gives the same token, or comes later.
* `pick_append_cases`, `forall_mem_lex` — what is known of every token of a text.
* `munch_literal_eq`, `le_munch_literal` — literals that match a text and what follows it.
-/

/-- How long a prefix a rule matches, 0 if it does not match, and the token of the matched
    text, if it is not skipped. -/
structure Rule (α τ : Type) where
  munch : List α → Nat
  token : List α → Option τ

variable {α τ : Type}

/-- The first of the rules that match the most. -/
def pick (cs : List α) : List (Rule α τ) → Option (Rule α τ)
  | [] => none
  | r :: rs =>
    match pick cs rs with
    | some r' => if r.munch cs < r'.munch cs then some r' else some r
    | none => some r

/-- The token at the start of a text, if one is not skipped, and the rest; a character at which
    no rule matches is dropped. -/
def step (rules : List (Rule α τ)) (cs : List α) : Option τ × List α :=
  match pick cs rules with
  | some r =>
    if r.munch cs = 0 then (none, cs.tail)
    else (r.token (cs.take (r.munch cs)), cs.drop (r.munch cs))
  | none => (none, cs.tail)

/-- The tokens of a text; every step uses up a character. -/
def lexFuel (rules : List (Rule α τ)) : (fuel : Nat) → List α → List τ
  | 0, _ => []
  | _, [] => []
  | fuel + 1, cs => (step rules cs).1.toList ++ lexFuel rules fuel (step rules cs).2

def lex (rules : List (Rule α τ)) (cs : List α) : List τ := lexFuel rules cs.length cs

/-! ### Step by step -/

variable {rules : List (Rule α τ)} {cs : List α}

theorem length_step (rules : List (Rule α τ)) (h : cs ≠ []) :
    (step rules cs).2.length < cs.length := by
  have hpos := List.length_pos_of_ne_nil h
  have htail : cs.tail.length < cs.length := by
    rw [List.length_tail]
    omega
  unfold step
  cases pick cs rules with
  | none => exact htail
  | some r =>
    by_cases hzero : r.munch cs = 0
    · simpa [hzero] using htail
    · simp only [if_neg hzero, List.length_drop]
      omega

/-- More steps than characters are not needed. -/
theorem lexFuel_eq {fuel : Nat} (h : cs.length ≤ fuel) : lexFuel rules fuel cs = lex rules cs := by
  induction fuel using Nat.strongRecOn generalizing cs with
  | ind fuel ih =>
    cases cs with
    | nil => cases fuel <;> rfl
    | cons c cs =>
      cases fuel with
      | zero => cases h
      | succ fuel =>
        have hlt := length_step rules (List.cons_ne_nil c cs)
        rw [List.length_cons] at h hlt
        show _ ++ lexFuel rules fuel (step rules (c :: cs)).2 =
          _ ++ lexFuel rules cs.length (step rules (c :: cs)).2
        rw [ih fuel (Nat.lt_succ_self _) (by omega)]
        by_cases hfuel : cs.length < fuel + 1
        · rw [ih cs.length hfuel (by omega)]
        · omega

@[simp] theorem lex_nil : lex rules [] = [] := rfl

/-- **The lexer step by step.** -/
theorem lex_eq (h : cs ≠ []) :
    lex rules cs = (step rules cs).1.toList ++ lex rules (step rules cs).2 := by
  have hlt := length_step rules h
  obtain ⟨c, cs, rfl⟩ := List.exists_cons_of_ne_nil h
  rw [List.length_cons] at hlt
  show _ ++ lexFuel rules cs.length _ = _
  rw [lexFuel_eq (by omega)]

/-! ### The rule that is picked -/

theorem pick_mem {r : Rule α τ} (h : pick cs rules = some r) : r ∈ rules := by
  induction rules generalizing r with
  | nil => cases h
  | cons x rules ih =>
    rw [pick] at h
    cases hrest : pick cs rules with
    | none =>
      rw [hrest] at h
      cases h
      exact List.mem_cons_self
    | some y =>
      rw [hrest] at h
      simp only at h
      split at h
      · cases h
        exact List.mem_cons_of_mem _ (ih hrest)
      · cases h
        exact List.mem_cons_self

/-- No rule matches more than the one that is picked. -/
theorem munch_le_pick (cs : List α) {r : Rule α τ} (hr : r ∈ rules) :
    ∃ r', pick cs rules = some r' ∧ r.munch cs ≤ r'.munch cs := by
  induction rules with
  | nil => cases hr
  | cons x rules ih =>
    rw [pick]
    rcases List.mem_cons.mp hr with rfl | hmem
    · cases pick cs rules with
      | none => exact ⟨r, rfl, Nat.le_refl _⟩
      | some y =>
        by_cases hlt : r.munch cs < y.munch cs
        · exact ⟨y, if_pos hlt, Nat.le_of_lt hlt⟩
        · exact ⟨r, if_neg hlt, Nat.le_refl _⟩
    · obtain ⟨y, hy, hle⟩ := ih hmem
      rw [hy]
      by_cases hlt : x.munch cs < y.munch cs
      · exact ⟨y, if_pos hlt, hle⟩
      · exact ⟨x, if_neg hlt, Nat.le_trans hle (Nat.le_of_not_lt hlt)⟩

/-- A rule that comes later is picked only if it matches more. -/
theorem pick_append_cases {before after : List (Rule α τ)} {r : Rule α τ}
    (h : pick cs (before ++ after) = some r) :
    r ∈ before ∨ r ∈ after ∧ ∀ r' ∈ before, r'.munch cs < r.munch cs := by
  induction before generalizing r with
  | nil => exact .inr ⟨pick_mem h, fun r' hr' => absurd hr' List.not_mem_nil⟩
  | cons x before ih =>
    rw [List.cons_append, pick] at h
    cases hrest : pick cs (before ++ after) with
    | none =>
      rw [hrest] at h
      cases h
      exact .inl List.mem_cons_self
    | some y =>
      rw [hrest] at h
      simp only at h
      by_cases hlt : x.munch cs < y.munch cs
      · rw [if_pos hlt] at h
        cases h
        rcases ih hrest with hmem | ⟨hmem, hless⟩
        · exact .inl (List.mem_cons_of_mem _ hmem)
        · exact .inr ⟨hmem, List.forall_mem_cons.mpr ⟨hlt, hless⟩⟩
      · rw [if_neg hlt] at h
        cases h
        exact .inl List.mem_cons_self

/-- Rules that come later are not picked if they do not match more. -/
theorem pick_append {before after : List (Rule α τ)} {r : Rule α τ}
    (hr : pick cs before = some r) (hafter : ∀ r' ∈ after, r'.munch cs ≤ r.munch cs) :
    pick cs (before ++ after) = some r := by
  induction before generalizing r with
  | nil => cases hr
  | cons x before ih =>
    rw [List.cons_append, pick]
    rw [pick] at hr
    cases hrest : pick cs before with
    | none =>
      rw [hrest] at hr
      cases hr
      have hnil : before = [] := by
        cases before with
        | nil => rfl
        | cons y ys =>
          obtain ⟨r', hr', -⟩ := munch_le_pick cs (List.mem_cons_self : y ∈ y :: ys)
          rw [hrest] at hr'
          cases hr'
      subst hnil
      cases hlast : pick cs after with
      | none =>
        rw [List.nil_append, hlast]
      | some y =>
        rw [List.nil_append, hlast]
        exact if_neg (Nat.not_lt.mpr (hafter y (pick_mem hlast)))
    | some y =>
      rw [hrest] at hr
      simp only at hr
      by_cases hlt : x.munch cs < y.munch cs
      · rw [if_pos hlt] at hr
        cases hr
        rw [ih hrest hafter]
        exact if_pos hlt
      · rw [if_neg hlt] at hr
        cases hr
        -- whichever of the others is picked, it does not match more
        obtain ⟨z, hz, hle⟩ : ∃ z, pick cs (before ++ after) = some z ∧
            z.munch cs ≤ x.munch cs := by
          obtain ⟨z, hz, -⟩ := munch_le_pick cs
            (List.mem_append_left after (pick_mem hrest))
          refine ⟨z, hz, ?_⟩
          rcases List.mem_append.mp (pick_mem hz) with hmem | hmem
          · obtain ⟨y', hy', hle⟩ := munch_le_pick cs hmem
            rw [hrest] at hy'
            cases hy'
            omega
          · exact hafter z hmem
        rw [hz]
        exact if_neg (Nat.not_lt.mpr hle)

/-- **The text of a token is read as this token** and the lexer goes on behind it, if no rule
    matches more and the rules that come first agree on what this text is. -/
theorem lex_of_longest (before after : List (Rule α τ)) (text rest : List α) (tok : Option τ)
    (hrules : rules = before ++ after) (hne : text ≠ [])
    (hsome : ∃ r ∈ before, r.munch (text ++ rest) = text.length)
    (hbefore : ∀ r ∈ before, r.munch (text ++ rest) ≤ text.length ∧
      (r.munch (text ++ rest) = text.length → r.token text = tok))
    (hafter : ∀ r ∈ after, r.munch (text ++ rest) ≤ text.length) :
    lex rules (text ++ rest) = tok.toList ++ lex rules rest := by
  have hpos := List.length_pos_of_ne_nil hne
  obtain ⟨r₀, hr₀, hlen₀⟩ := hsome
  obtain ⟨r, hr, hge⟩ := munch_le_pick (text ++ rest) hr₀
  obtain ⟨hle, htok⟩ := hbefore r (pick_mem hr)
  have hlen : r.munch (text ++ rest) = text.length := by omega
  have hpick : pick (text ++ rest) rules = some r := by
    rw [hrules]
    exact pick_append hr fun r' hr' => hlen ▸ hafter r' hr'
  have hstep : step rules (text ++ rest) = (tok, rest) := by
    unfold step
    rw [hpick]
    simp only [hlen]
    rw [if_neg (by omega), List.take_left, List.drop_left, htok hlen]
  rw [lex_eq (by simp [hne]), hstep]

/-- What holds of the token of every rule that is picked holds of all tokens. -/
theorem forall_mem_lex {P : τ → Prop}
    (h : ∀ cs r t, pick cs rules = some r → 0 < r.munch cs →
      r.token (cs.take (r.munch cs)) = some t → P t) : ∀ t ∈ lex rules cs, P t := by
  have hfuel : ∀ fuel cs, ∀ t ∈ lexFuel rules fuel cs, P t := by
    intro fuel
    induction fuel with
    | zero => exact fun cs t ht => absurd ht List.not_mem_nil
    | succ fuel ih =>
      intro cs t ht
      cases cs with
      | nil => cases ht
      | cons c cs =>
        rcases List.mem_append.mp ht with ht | ht
        · have hstep : (step rules (c :: cs)).1 = some t := Option.mem_toList.mp ht
          unfold step at hstep
          cases hpick : pick (c :: cs) rules with
          | none =>
            rw [hpick] at hstep
            cases hstep
          | some r =>
            rw [hpick] at hstep
            by_cases hzero : r.munch (c :: cs) = 0
            · simp [hzero] at hstep
            · simp only [if_neg hzero] at hstep
              exact h _ r t hpick (Nat.pos_of_ne_zero hzero) hstep
        · exact ih _ t ht
  exact hfuel cs.length cs

/-! ### Literals -/

section Literal

variable [DecidableEq α]

/-- A fixed text. -/
def Rule.literal (text : List α) (tok : Option τ) : Rule α τ where
  munch cs := if text <+: cs then text.length else 0
  token _ := tok

variable {u text rest : List α} {tok : Option τ}

theorem munch_literal_self : (Rule.literal text tok).munch (text ++ rest) = text.length :=
  if_pos (List.prefix_append text rest)

/-- A literal matches a text exactly if it is this text. -/
theorem munch_literal_eq (hne : text ≠ [])
    (h : (Rule.literal u tok).munch (text ++ rest) = text.length) : u = text := by
  have hpos := List.length_pos_of_ne_nil hne
  change (if u <+: text ++ rest then u.length else 0) = text.length at h
  by_cases hu : u <+: text ++ rest
  · rw [if_pos hu] at h
    have hpref := List.prefix_of_prefix_length_le hu (List.prefix_append text rest) (by omega)
    exact hpref.eq_of_length h
  · rw [if_neg hu] at h
    omega

/-- **A literal that matches more starts with the text and the character after it.** -/
theorem le_munch_literal
    (h : ∀ c, rest.head? = some c → ¬text ++ [c] <+: u) :
    (Rule.literal u tok).munch (text ++ rest) ≤ text.length := by
  change (if u <+: text ++ rest then u.length else 0) ≤ text.length
  by_cases hu : u <+: text ++ rest
  · rw [if_pos hu]
    by_contra hlt
    cases rest with
    | nil =>
      have hlen := hu.length_le
      rw [List.append_nil] at hlen
      exact hlt hlen
    | cons c rest =>
      have hcons : text ++ [c] <+: text ++ c :: rest := ⟨rest, by simp⟩
      refine h c rfl (List.prefix_of_prefix_length_le hcons hu ?_)
      rw [List.length_append, List.length_singleton]
      omega
  · rw [if_neg hu]
    exact Nat.zero_le _

end Literal

/-! ### Runs -/

/-- One character of each kind of `heads`, and then as many of the last kind as there are. -/
def munchRun (p : α → Bool) : (heads : List (α → Bool)) → List α → Option Nat
  | [], cs => some (cs.takeWhile p).length
  | _ :: _, [] => none
  | q :: heads, c :: cs => if q c then (munchRun p heads cs).map (· + 1) else none

def Rule.run (heads : List (α → Bool)) (p : α → Bool) (token : List α → Option τ) :
    Rule α τ where
  munch cs := (munchRun p heads cs).getD 0
  token := token

variable {p q : α → Bool} {heads : List (α → Bool)} {token : List α → Option τ}

theorem munch_run_of_head {c : α} (h : q c = false) :
    (Rule.run (q :: heads) p token).munch (c :: cs) = 0 := by
  show ((if q c then _ else none : Option Nat)).getD 0 = 0
  rw [if_neg (by simp [h])]
  rfl

/-- A text of the kinds of a run is matched up to the first character that is not. -/
theorem munchRun_append {text rest : List α} (hheads : heads.length ≤ text.length)
    (hkinds : ∀ x ∈ heads.zip text, x.1 x.2 = true)
    (hrun : ∀ c ∈ text.drop heads.length, p c = true)
    (hstop : ∀ c, rest.head? = some c → p c = false) :
    munchRun p heads (text ++ rest) = some text.length := by
  induction heads generalizing text with
  | nil =>
    have hrest : rest.takeWhile p = [] := by
      cases rest with
      | nil => rfl
      | cons c rest => exact List.takeWhile_cons_of_neg (by simp [hstop c rfl])
    have hall : ∀ c ∈ text, p c = true := hrun
    rw [munchRun, List.takeWhile_append_of_pos hall, hrest, List.append_nil]
  | cons q heads ih =>
    cases text with
    | nil => exact absurd hheads (by simp)
    | cons c text =>
      have hq : q c = true := hkinds (q, c) List.mem_cons_self
      rw [List.cons_append, munchRun, if_pos hq,
        ih (by simpa using hheads) (fun x hx => hkinds x (List.mem_cons_of_mem _ hx)) hrun]
      rfl

/-- Fixed characters in front. -/
theorem munchRun_marker [DecidableEq α] (heads : List (α → Bool)) (marker : List α) (cs : List α) :
    munchRun p (marker.map (fun m c => c == m) ++ heads) (marker ++ cs) =
      (munchRun p heads cs).map (· + marker.length) := by
  induction marker with
  | nil =>
    rw [List.map_nil, List.nil_append, List.nil_append]
    cases munchRun p heads cs <;> rfl
  | cons m marker ih =>
    rw [List.map_cons, List.cons_append, List.cons_append, munchRun,
      if_pos (beq_self_eq_true m), ih]
    cases munchRun p heads cs <;> rfl

end Frost32.Munch
