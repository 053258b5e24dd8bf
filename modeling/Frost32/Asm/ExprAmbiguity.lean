import Frost32.Asm.ExprWords

namespace Frost32.Asm

/-!
# Ambiguous expressions

A prefix operator takes a whole `expr`, but stands where the grammar binds tightest, so an
infix operator to its right can belong to its operand or not.

* `prefixesLast` — a scan of the tokens for an infix operator to the right of a prefix operator,
  within the same parentheses.
* `Expr.clear` — the same for a parse tree; `scan_tokens` connects them.
* `Expr.eq_of_clear` — **tokens without one have one parse tree.**
-/

/-! ### The scan -/

def Tok.isPrefixOp : Tok → Bool
  | .bitInvert | .minus | .exclamPoint => true
  | _ => false

/-- Go through the tokens of an expression; `operand` says that an operand is due, so that a
    `-` is a prefix operator, `pending` that there was a prefix operator since the innermost
    open parenthesis, and `outer` the same for the parentheses around it. -/
def prefixesLast : (operand pending : Bool) → (outer : List Bool) → List Tok → Bool
  | _, _, _, [] => true
  | true, pending, outer, t :: ts =>
    if t.isPrefixOp then prefixesLast true true outer ts
    else if t = .lParen then prefixesLast true false (pending :: outer) ts
    else prefixesLast false pending outer ts
  | false, pending, outer, t :: ts =>
    if t = .rParen then
      match outer with
      | p :: outer => prefixesLast false p outer ts
      | [] => false
    else !pending && prefixesLast true pending outer ts

/-- No prefix operator is followed, within its parentheses, by an infix operator. -/
def PrefixesLast (ts : List Tok) : Prop := prefixesLast true false [] ts = true

instance (ts : List Tok) : Decidable (PrefixesLast ts) :=
  inferInstanceAs (Decidable (_ = true))

mutual

/-- The scan of a parse tree. -/
def Expr.clear (pending : Bool) : Expr → Bool
  | .exprLogical e => e.clear pending
  | .opLogical l _ r =>
    l.clear pending && (!(pending || l.word.hasPrefix) &&
      r.clear (pending || l.word.hasPrefix))

def ExprLogical.clear (pending : Bool) : ExprLogical → Bool
  | .exprCompare e => e.clear pending
  | .opCompare l _ r =>
    l.clear pending && (!(pending || l.word.hasPrefix) &&
      r.clear (pending || l.word.hasPrefix))

def ExprCompare.clear (pending : Bool) : ExprCompare → Bool
  | .exprAddSub e => e.clear pending
  | .exprJustAdd l r =>
    l.clear pending && (!(pending || l.word.hasPrefix) &&
      r.clear (pending || l.word.hasPrefix))
  | .exprJustSub l r =>
    l.clear pending && (!(pending || l.word.hasPrefix) &&
      r.clear (pending || l.word.hasPrefix))

def ExprAddSub.clear (pending : Bool) : ExprAddSub → Bool
  | .exprMulDivModEtc e => e.clear
  | .opMulDivMod l _ r =>
    l.clear pending && (!(pending || l.word.hasPrefix) && r.clear)
  | .opBitwise l _ r =>
    l.clear pending && (!(pending || l.word.hasPrefix) && r.clear)

def ExprMulDivModEtc.clear : ExprMulDivModEtc → Bool
  | .exprUnary e => e.clear
  | .numExpr _ | .identName _ | .currPc => true
  | .paren e => e.clear false

/-- The operand of a prefix operator is scanned with that operator pending. -/
def ExprUnary.clear : ExprUnary → Bool
  | .exprBitInvert e => e.clear true
  | .exprNegate e => e.clear true
  | .exprLogNot e => e.clear true

end

/-- What the scan finds in a word of tokens, before it goes on with the rest. -/
def ScansAs (pending : Bool) (ts : List Tok) (clear hasPrefix : Bool) : Prop :=
  ∀ outer rest, prefixesLast true pending outer (ts ++ rest) =
    (clear && prefixesLast false (pending || hasPrefix) outer rest)

theorem prefixesLast_binary (b : BinaryOp) (pending : Bool) (outer : List Bool) (ts : List Tok) :
    prefixesLast false pending outer (b.tok :: ts) =
      (!pending && prefixesLast true pending outer ts) := by
  cases b <;> rfl

theorem prefixesLast_close (pending p : Bool) (outer : List Bool) (ts : List Tok) :
    prefixesLast false pending (p :: outer) (.rParen :: ts) = prefixesLast false p outer ts :=
  rfl

/-- An infix operator between two scanned words. -/
theorem ScansAs.join {pending : Bool} {l r : List Tok} {cl cr pl pr : Bool} (b : BinaryOp)
    (hl : ScansAs pending l cl pl) (hr : ScansAs (pending || pl) r cr pr) :
    ScansAs pending (l ++ b.tok :: r) (cl && (!(pending || pl) && cr)) (pl || pr) := by
  intro outer rest
  rw [List.append_assoc, List.cons_append, hl, prefixesLast_binary, hr, Bool.or_assoc,
    Bool.and_assoc, Bool.and_assoc]

theorem ScansAs.unary {pending : Bool} {ts : List Tok} {c h : Bool} (p : PrefixOp)
    (hts : ScansAs true ts c h) : ScansAs pending (p.tok :: ts) c true := by
  intro outer rest
  have hp : p.tok.isPrefixOp = true := by cases p <;> rfl
  rw [List.cons_append, prefixesLast, if_pos hp, hts, Bool.true_or, Bool.or_true]

theorem ScansAs.token {pending : Bool} {t : Tok} (h : t.isPrefixOp = false) (h' : t ≠ .lParen) :
    ScansAs pending [t] true false := by
  intro outer rest
  rw [List.singleton_append, prefixesLast, if_neg (by simp [h]), if_neg h', Bool.true_and,
    Bool.or_false]

theorem ScansAs.group {pending : Bool} {ts : List Tok} {c h : Bool} (hts : ScansAs false ts c h) :
    ScansAs pending (.lParen :: (ts ++ [.rParen])) c false := by
  intro outer rest
  rw [List.cons_append, prefixesLast, if_neg (by decide), if_pos rfl, List.append_assoc, hts,
    List.singleton_append, prefixesLast_close, Bool.or_false]

mutual

theorem Expr.scan_tokens (pending : Bool) : (e : Expr) →
    ScansAs pending e.tokens (e.clear pending) e.word.hasPrefix
  | .exprLogical e => by
    rw [Expr.tokens, Expr.clear, Expr.word]
    exact e.scan_tokens pending
  | .opLogical l op r => by
    rw [Expr.tokens, Expr.clear, Expr.word, InfixWord.hasPrefix_join]
    exact (l.scan_tokens pending).join (.logical op) (r.scan_tokens _)

theorem ExprLogical.scan_tokens (pending : Bool) : (e : ExprLogical) →
    ScansAs pending e.tokens (e.clear pending) e.word.hasPrefix
  | .exprCompare e => by
    rw [ExprLogical.tokens, ExprLogical.clear, ExprLogical.word]
    exact e.scan_tokens pending
  | .opCompare l op r => by
    rw [ExprLogical.tokens, ExprLogical.clear, ExprLogical.word, InfixWord.hasPrefix_join]
    exact (l.scan_tokens pending).join (.compare op) (r.scan_tokens _)

theorem ExprCompare.scan_tokens (pending : Bool) : (e : ExprCompare) →
    ScansAs pending e.tokens (e.clear pending) e.word.hasPrefix
  | .exprAddSub e => by
    rw [ExprCompare.tokens, ExprCompare.clear, ExprCompare.word]
    exact e.scan_tokens pending
  | .exprJustAdd l r => by
    rw [ExprCompare.tokens, ExprCompare.clear, ExprCompare.word, InfixWord.hasPrefix_join]
    exact (l.scan_tokens pending).join .add (r.scan_tokens _)
  | .exprJustSub l r => by
    rw [ExprCompare.tokens, ExprCompare.clear, ExprCompare.word, InfixWord.hasPrefix_join]
    exact (l.scan_tokens pending).join .sub (r.scan_tokens _)

theorem ExprAddSub.scan_tokens (pending : Bool) : (e : ExprAddSub) →
    ScansAs pending e.tokens (e.clear pending) e.word.hasPrefix
  | .exprMulDivModEtc e => by
    rw [ExprAddSub.tokens, ExprAddSub.clear, ExprAddSub.word]
    exact e.scan_tokens pending
  | .opMulDivMod l op r => by
    rw [ExprAddSub.tokens, ExprAddSub.clear, ExprAddSub.word, InfixWord.hasPrefix_join]
    exact (l.scan_tokens pending).join (.mulDivMod op) (r.scan_tokens _)
  | .opBitwise l op r => by
    rw [ExprAddSub.tokens, ExprAddSub.clear, ExprAddSub.word, InfixWord.hasPrefix_join]
    exact (l.scan_tokens pending).join (.bitwise op) (r.scan_tokens _)

theorem ExprMulDivModEtc.scan_tokens (pending : Bool) : (e : ExprMulDivModEtc) →
    ScansAs pending e.tokens e.clear e.word.hasPrefix
  | .exprUnary e => by
    rw [ExprMulDivModEtc.tokens, ExprMulDivModEtc.clear, ExprMulDivModEtc.word]
    exact e.scan_tokens pending
  | .numExpr n => by
    rw [ExprMulDivModEtc.tokens, ExprMulDivModEtc.clear, ExprMulDivModEtc.word]
    cases n <;> exact .token rfl (by simp)
  | .identName n => by
    rw [ExprMulDivModEtc.tokens, ExprMulDivModEtc.clear, ExprMulDivModEtc.word]
    cases n <;> exact .token rfl (by simp)
  | .currPc => by
    rw [ExprMulDivModEtc.tokens, ExprMulDivModEtc.clear, ExprMulDivModEtc.word]
    exact .token rfl (by simp)
  | .paren e => by
    rw [ExprMulDivModEtc.tokens, ExprMulDivModEtc.clear, ExprMulDivModEtc.word]
    exact (e.scan_tokens false).group

theorem ExprUnary.scan_tokens (pending : Bool) : (e : ExprUnary) →
    ScansAs pending e.tokens e.clear e.word.hasPrefix
  | .exprBitInvert e => by
    rw [ExprUnary.tokens, ExprUnary.clear, ExprUnary.word]
    exact (e.scan_tokens true).unary .bitInvert
  | .exprNegate e => by
    rw [ExprUnary.tokens, ExprUnary.clear, ExprUnary.word]
    exact (e.scan_tokens true).unary .negate
  | .exprLogNot e => by
    rw [ExprUnary.tokens, ExprUnary.clear, ExprUnary.word]
    exact (e.scan_tokens true).unary .logNot

end

/-- **The scan of the tokens of a tree is the scan of the tree.** -/
theorem prefixesLast_tokens (e : Expr) : PrefixesLast e.tokens ↔ e.clear false = true := by
  have hscan := e.scan_tokens false [] []
  rw [List.append_nil] at hscan
  rw [PrefixesLast, hscan, prefixesLast, Bool.and_true]

/-! ### Trees without ambiguity -/

/-- What a scan without a finding says of the word. -/
def WordClear (pending : Bool) (w : ExprWord) : Prop :=
  w.PrefixesLast ∧ (pending = true → w.ops = [])

theorem WordClear.join {pending : Bool} {w v : ExprWord} (b : BinaryOp) {cl cr : Bool}
    (hl : cl = true → WordClear pending w)
    (hr : cr = true → WordClear (pending || w.hasPrefix) v)
    (h : (cl && (!(pending || w.hasPrefix) && cr)) = true) : WordClear pending (w.join b v) := by
  simp only [Bool.and_eq_true, Bool.not_eq_true', Bool.or_eq_false_iff] at h
  obtain ⟨hcl, ⟨rfl, hw⟩, hcr⟩ := h
  refine ⟨(InfixWord.prefixesLast_join ..).mpr ⟨w.hasPrefix_eq_false.mp hw, (hr hcr).1⟩, ?_⟩
  exact fun h => Bool.noConfusion h

/-- A word that is fit to be the operand of a prefix operator. -/
theorem WordClear.of_ops {pending : Bool} {w : ExprWord} (p : PrefixOp) (h : w.ops = []) :
    WordClear pending (.pre p w) :=
  ⟨h, fun _ => h⟩

mutual

theorem Expr.wordClear (pending : Bool) : (e : Expr) → e.clear pending = true →
    WordClear pending e.word
  | .exprLogical e, h => by
    rw [Expr.clear] at h
    rw [Expr.word]
    exact e.wordClear pending h
  | .opLogical l op r, h => by
    rw [Expr.clear] at h
    rw [Expr.word]
    exact .join _ (l.wordClear pending) (r.wordClear _) h

theorem ExprLogical.wordClear (pending : Bool) : (e : ExprLogical) → e.clear pending = true →
    WordClear pending e.word
  | .exprCompare e, h => by
    rw [ExprLogical.clear] at h
    rw [ExprLogical.word]
    exact e.wordClear pending h
  | .opCompare l op r, h => by
    rw [ExprLogical.clear] at h
    rw [ExprLogical.word]
    exact .join _ (l.wordClear pending) (r.wordClear _) h

theorem ExprCompare.wordClear (pending : Bool) : (e : ExprCompare) → e.clear pending = true →
    WordClear pending e.word
  | .exprAddSub e, h => by
    rw [ExprCompare.clear] at h
    rw [ExprCompare.word]
    exact e.wordClear pending h
  | .exprJustAdd l r, h => by
    rw [ExprCompare.clear] at h
    rw [ExprCompare.word]
    exact .join _ (l.wordClear pending) (r.wordClear _) h
  | .exprJustSub l r, h => by
    rw [ExprCompare.clear] at h
    rw [ExprCompare.word]
    exact .join _ (l.wordClear pending) (r.wordClear _) h

theorem ExprAddSub.wordClear (pending : Bool) : (e : ExprAddSub) → e.clear pending = true →
    WordClear pending e.word
  | .exprMulDivModEtc e, h => by
    rw [ExprAddSub.clear] at h
    rw [ExprAddSub.word]
    exact e.wordClear pending h
  | .opMulDivMod l op r, h => by
    rw [ExprAddSub.clear] at h
    rw [ExprAddSub.word]
    exact .join _ (l.wordClear pending) (r.wordClear _) h
  | .opBitwise l op r, h => by
    rw [ExprAddSub.clear] at h
    rw [ExprAddSub.word]
    exact .join _ (l.wordClear pending) (r.wordClear _) h

theorem ExprMulDivModEtc.wordClear (pending : Bool) : (e : ExprMulDivModEtc) →
    e.clear = true → WordClear pending e.word
  | .exprUnary e, h => by
    rw [ExprMulDivModEtc.clear] at h
    rw [ExprMulDivModEtc.word]
    exact e.wordClear pending h
  | .numExpr n, _ => by
    rw [ExprMulDivModEtc.word]
    exact ⟨trivial, fun _ => rfl⟩
  | .identName n, _ => by
    rw [ExprMulDivModEtc.word]
    exact ⟨trivial, fun _ => rfl⟩
  | .currPc, _ => by
    rw [ExprMulDivModEtc.word]
    exact ⟨trivial, fun _ => rfl⟩
  | .paren e, _ => by
    rw [ExprMulDivModEtc.word]
    exact ⟨trivial, fun _ => rfl⟩

theorem ExprUnary.wordClear (pending : Bool) : (e : ExprUnary) → e.clear = true →
    WordClear pending e.word
  | .exprBitInvert e, h => by
    rw [ExprUnary.clear] at h
    rw [ExprUnary.word]
    exact .of_ops _ ((e.wordClear true h).2 rfl)
  | .exprNegate e, h => by
    rw [ExprUnary.clear] at h
    rw [ExprUnary.word]
    exact .of_ops _ ((e.wordClear true h).2 rfl)
  | .exprLogNot e, h => by
    rw [ExprUnary.clear] at h
    rw [ExprUnary.word]
    exact .of_ops _ ((e.wordClear true h).2 rfl)

end

/-- The two sides of an infix operator. -/
theorem clear_sides {pending p cl cr : Bool} (h : (cl && (!(pending || p) && cr)) = true) :
    cl = true ∧ cr = true := by
  simp only [Bool.and_eq_true] at h
  exact ⟨h.1, h.2.2⟩

/-- A tighter rule does not derive a word with a looser operator. -/
theorem word_ne_join {n : Nat} {w l r : ExprWord} {b : BinaryOp} (hw : ∀ c ∈ w.ops, n ≤ c.level)
    (hb : b.level < n) : w ≠ l.join b r := by
  rintro rfl
  have hlevel := hw b (by rw [InfixWord.ops_join]; exact List.mem_append_right _ List.mem_cons_self)
  omega

/-- The right sides of operators that are looser than they are. -/
theorem not_level_of_lt {n : Nat} {w : ExprWord} (hw : ∀ c ∈ w.ops, n + 1 ≤ c.level) :
    ∀ c ∈ w.ops, ¬ c.level = n := by
  intro c hc hlevel
  have hlt := hw c hc
  omega

/-- The first `+` or `-`. -/
theorem ExprAddSub.split {l l' : ExprAddSub} {b b' : BinaryOp} {v v' : ExprWord} {p p' : Bool}
    (hl : l.clear p = true) (hl' : l'.clear p' = true) (hb : b.level = 2) (hb' : b'.level = 2)
    (h : l.word.join b v = l'.word.join b' v') : l.word = l'.word ∧ b = b' ∧ v = v' :=
  InfixWord.join_inj_of_first (P := fun b => b.level = 2) hb hb'
    (not_level_of_lt (l.level_word (l.wordClear p hl).1))
    (not_level_of_lt (l'.level_word (l'.wordClear p' hl').1)) h

/-- The last operator of a term; there is none in its last operand. -/
theorem ExprMulDivModEtc.split {r r' : ExprMulDivModEtc} {b b' : BinaryOp} {w w' : ExprWord}
    (hr : r.clear = true) (hr' : r'.clear = true)
    (h : w.join b r.word = w'.join b' r'.word) : w = w' ∧ b = b' ∧ r.word = r'.word := by
  refine InfixWord.join_inj_of_last (P := fun _ => True) trivial trivial ?_ ?_ h
  · simp [r.ops_word (r.wordClear false hr).1]
  · simp [r'.ops_word (r'.wordClear false hr').1]

theorem ExprUnary.word_ne_operand (u : ExprUnary) (o : Operand) : u.word ≠ .operand o := by
  intro h
  cases u with
  | exprBitInvert e | exprNegate e | exprLogNot e =>
    rw [ExprUnary.word] at h
    cases h

/-- An operand is no word with an operator. -/
theorem ExprMulDivModEtc.word_ne_join {e : ExprMulDivModEtc} (h : e.clear = true)
    (w v : ExprWord) (b : BinaryOp) : e.word ≠ w.join b v := by
  intro hword
  have hops := e.ops_word (e.wordClear false h).1
  rw [hword, InfixWord.ops_join] at hops
  simp at hops

mutual

theorem Expr.eq_of_word {p p' : Bool} : (e e' : Expr) → e.clear p = true → e'.clear p' = true →
    e.word = e'.word → e = e'
  | .exprLogical a, .exprLogical b, ha, hb, h => by
    rw [Expr.clear] at ha hb
    rw [Expr.word, Expr.word] at h
    rw [a.eq_of_word b ha hb h]
  | .exprLogical a, .opLogical l op r, ha, _, h => by
    rw [Expr.clear] at ha
    rw [Expr.word, Expr.word] at h
    exact absurd h (word_ne_join (a.level_word (a.wordClear p ha).1) Nat.zero_lt_one)
  | .opLogical l op r, .exprLogical b, _, hb, h => by
    rw [Expr.clear] at hb
    rw [Expr.word, Expr.word] at h
    exact absurd h.symm (word_ne_join (b.level_word (b.wordClear p' hb).1) Nat.zero_lt_one)
  | .opLogical l op r, .opLogical l' op' r', h₁, h₂, h => by
    rw [Expr.clear] at h₁ h₂
    rw [Expr.word, Expr.word] at h
    obtain ⟨hl, hr⟩ := clear_sides h₁
    obtain ⟨hl', hr'⟩ := clear_sides h₂
    -- the last logical operator
    obtain ⟨hleft, hop, hright⟩ := InfixWord.join_inj_of_last (P := fun b => b.level = 0) rfl rfl
      (not_level_of_lt (r.level_word (r.wordClear _ hr).1))
      (not_level_of_lt (r'.level_word (r'.wordClear _ hr').1)) h
    rw [l.eq_of_word l' hl hl' hleft, BinaryOp.logical.inj hop, r.eq_of_word r' hr hr' hright]
termination_by structural e => e

theorem ExprLogical.eq_of_word {p p' : Bool} : (e e' : ExprLogical) → e.clear p = true →
    e'.clear p' = true → e.word = e'.word → e = e'
  | .exprCompare a, .exprCompare b, ha, hb, h => by
    rw [ExprLogical.clear] at ha hb
    rw [ExprLogical.word, ExprLogical.word] at h
    rw [a.eq_of_word b ha hb h]
  | .exprCompare a, .opCompare l op r, ha, _, h => by
    rw [ExprLogical.clear] at ha
    rw [ExprLogical.word, ExprLogical.word] at h
    exact absurd h (word_ne_join (a.level_word (a.wordClear p ha).1) Nat.one_lt_two)
  | .opCompare l op r, .exprCompare b, _, hb, h => by
    rw [ExprLogical.clear] at hb
    rw [ExprLogical.word, ExprLogical.word] at h
    exact absurd h.symm (word_ne_join (b.level_word (b.wordClear p' hb).1) Nat.one_lt_two)
  | .opCompare l op r, .opCompare l' op' r', h₁, h₂, h => by
    rw [ExprLogical.clear] at h₁ h₂
    rw [ExprLogical.word, ExprLogical.word] at h
    obtain ⟨hl, hr⟩ := clear_sides h₁
    obtain ⟨hl', hr'⟩ := clear_sides h₂
    -- the last comparison
    obtain ⟨hleft, hop, hright⟩ := InfixWord.join_inj_of_last (P := fun b => b.level = 1) rfl rfl
      (not_level_of_lt (r.level_word (r.wordClear _ hr).1))
      (not_level_of_lt (r'.level_word (r'.wordClear _ hr').1)) h
    rw [l.eq_of_word l' hl hl' hleft, BinaryOp.compare.inj hop, r.eq_of_word r' hr hr' hright]
termination_by structural e => e

theorem ExprCompare.eq_of_word {p p' : Bool} : (e e' : ExprCompare) → e.clear p = true →
    e'.clear p' = true → e.word = e'.word → e = e'
  | .exprAddSub a, .exprAddSub b, ha, hb, h => by
    rw [ExprCompare.clear] at ha hb
    rw [ExprCompare.word, ExprCompare.word] at h
    rw [a.eq_of_word b ha hb h]
  | .exprAddSub a, .exprJustAdd l r, ha, _, h => by
    rw [ExprCompare.clear] at ha
    rw [ExprCompare.word, ExprCompare.word] at h
    exact absurd h (word_ne_join (a.level_word (a.wordClear p ha).1) (Nat.lt_succ_self 2))
  | .exprAddSub a, .exprJustSub l r, ha, _, h => by
    rw [ExprCompare.clear] at ha
    rw [ExprCompare.word, ExprCompare.word] at h
    exact absurd h (word_ne_join (a.level_word (a.wordClear p ha).1) (Nat.lt_succ_self 2))
  | .exprJustAdd l r, .exprAddSub b, _, hb, h => by
    rw [ExprCompare.clear] at hb
    rw [ExprCompare.word, ExprCompare.word] at h
    exact absurd h.symm (word_ne_join (b.level_word (b.wordClear p' hb).1) (Nat.lt_succ_self 2))
  | .exprJustSub l r, .exprAddSub b, _, hb, h => by
    rw [ExprCompare.clear] at hb
    rw [ExprCompare.word, ExprCompare.word] at h
    exact absurd h.symm (word_ne_join (b.level_word (b.wordClear p' hb).1) (Nat.lt_succ_self 2))
  | .exprJustAdd l r, .exprJustAdd l' r', h₁, h₂, h => by
    rw [ExprCompare.clear] at h₁ h₂
    rw [ExprCompare.word, ExprCompare.word] at h
    obtain ⟨hl, hr⟩ := clear_sides h₁
    obtain ⟨hl', hr'⟩ := clear_sides h₂
    obtain ⟨hleft, -, hright⟩ := ExprAddSub.split hl hl' rfl rfl h
    rw [l.eq_of_word l' hl hl' hleft, r.eq_of_word r' hr hr' hright]
  | .exprJustSub l r, .exprJustSub l' r', h₁, h₂, h => by
    rw [ExprCompare.clear] at h₁ h₂
    rw [ExprCompare.word, ExprCompare.word] at h
    obtain ⟨hl, hr⟩ := clear_sides h₁
    obtain ⟨hl', hr'⟩ := clear_sides h₂
    obtain ⟨hleft, -, hright⟩ := ExprAddSub.split hl hl' rfl rfl h
    rw [l.eq_of_word l' hl hl' hleft, r.eq_of_word r' hr hr' hright]
  | .exprJustAdd l r, .exprJustSub l' r', h₁, h₂, h => by
    rw [ExprCompare.clear] at h₁
    rw [ExprCompare.clear] at h₂
    rw [ExprCompare.word, ExprCompare.word] at h
    have hop := (ExprAddSub.split (clear_sides h₁).1 (clear_sides h₂).1 rfl rfl h).2.1
    cases hop
  | .exprJustSub l r, .exprJustAdd l' r', h₁, h₂, h => by
    rw [ExprCompare.clear] at h₁
    rw [ExprCompare.clear] at h₂
    rw [ExprCompare.word, ExprCompare.word] at h
    have hop := (ExprAddSub.split (clear_sides h₁).1 (clear_sides h₂).1 rfl rfl h).2.1
    cases hop
termination_by structural e => e

theorem ExprAddSub.eq_of_word {p p' : Bool} : (e e' : ExprAddSub) → e.clear p = true →
    e'.clear p' = true → e.word = e'.word → e = e'
  | .exprMulDivModEtc a, .exprMulDivModEtc b, ha, hb, h => by
    rw [ExprAddSub.clear] at ha hb
    rw [ExprAddSub.word, ExprAddSub.word] at h
    rw [a.eq_of_word b ha hb h]
  | .exprMulDivModEtc a, .opMulDivMod l op r, ha, _, h => by
    rw [ExprAddSub.clear] at ha
    rw [ExprAddSub.word, ExprAddSub.word] at h
    exact (ExprMulDivModEtc.word_ne_join ha _ _ _ h).elim
  | .exprMulDivModEtc a, .opBitwise l op r, ha, _, h => by
    rw [ExprAddSub.clear] at ha
    rw [ExprAddSub.word, ExprAddSub.word] at h
    exact (ExprMulDivModEtc.word_ne_join ha _ _ _ h).elim
  | .opMulDivMod l op r, .exprMulDivModEtc b, _, hb, h => by
    rw [ExprAddSub.clear] at hb
    rw [ExprAddSub.word, ExprAddSub.word] at h
    exact (ExprMulDivModEtc.word_ne_join hb _ _ _ h.symm).elim
  | .opBitwise l op r, .exprMulDivModEtc b, _, hb, h => by
    rw [ExprAddSub.clear] at hb
    rw [ExprAddSub.word, ExprAddSub.word] at h
    exact (ExprMulDivModEtc.word_ne_join hb _ _ _ h.symm).elim
  | .opMulDivMod l op r, .opMulDivMod l' op' r', h₁, h₂, h => by
    rw [ExprAddSub.clear] at h₁ h₂
    rw [ExprAddSub.word, ExprAddSub.word] at h
    obtain ⟨hl, hr⟩ := clear_sides h₁
    obtain ⟨hl', hr'⟩ := clear_sides h₂
    obtain ⟨hleft, hop, hright⟩ := ExprMulDivModEtc.split hr hr' h
    rw [l.eq_of_word l' hl hl' hleft, BinaryOp.mulDivMod.inj hop, r.eq_of_word r' hr hr' hright]
  | .opBitwise l op r, .opBitwise l' op' r', h₁, h₂, h => by
    rw [ExprAddSub.clear] at h₁ h₂
    rw [ExprAddSub.word, ExprAddSub.word] at h
    obtain ⟨hl, hr⟩ := clear_sides h₁
    obtain ⟨hl', hr'⟩ := clear_sides h₂
    obtain ⟨hleft, hop, hright⟩ := ExprMulDivModEtc.split hr hr' h
    rw [l.eq_of_word l' hl hl' hleft, BinaryOp.bitwise.inj hop, r.eq_of_word r' hr hr' hright]
  | .opMulDivMod l op r, .opBitwise l' op' r', h₁, h₂, h => by
    rw [ExprAddSub.clear] at h₁
    rw [ExprAddSub.clear] at h₂
    rw [ExprAddSub.word, ExprAddSub.word] at h
    have hop := (ExprMulDivModEtc.split (clear_sides h₁).2 (clear_sides h₂).2 h).2.1
    cases hop
  | .opBitwise l op r, .opMulDivMod l' op' r', h₁, h₂, h => by
    rw [ExprAddSub.clear] at h₁
    rw [ExprAddSub.clear] at h₂
    rw [ExprAddSub.word, ExprAddSub.word] at h
    have hop := (ExprMulDivModEtc.split (clear_sides h₁).2 (clear_sides h₂).2 h).2.1
    cases hop
termination_by structural e => e

theorem ExprMulDivModEtc.eq_of_word : (e e' : ExprMulDivModEtc) → e.clear = true →
    e'.clear = true → e.word = e'.word → e = e'
  | .exprUnary a, e', ha, hb, h => by
    cases e' with
    | exprUnary b =>
      rw [ExprMulDivModEtc.clear] at ha hb
      rw [ExprMulDivModEtc.word, ExprMulDivModEtc.word] at h
      rw [a.eq_of_word b ha hb h]
    | _ =>
      rw [ExprMulDivModEtc.word, ExprMulDivModEtc.word] at h
      exact absurd h (a.word_ne_operand _)
  | .paren a, e', ha, hb, h => by
    cases e' with
    | exprUnary b =>
      rw [ExprMulDivModEtc.word, ExprMulDivModEtc.word] at h
      exact absurd h.symm (b.word_ne_operand _)
    | paren b =>
      rw [ExprMulDivModEtc.clear] at ha hb
      rw [ExprMulDivModEtc.word, ExprMulDivModEtc.word] at h
      -- the tokens between the parentheses have one word again
      have htokens := Operand.group.inj (InfixWord.operand.inj h)
      rw [a.eq_of_word b ha hb (Expr.word_eq_of_tokens_eq htokens)]
    | _ =>
      rw [ExprMulDivModEtc.word, ExprMulDivModEtc.word] at h
      cases h
  | .numExpr n, e', _, _, h => by
    rw [ExprMulDivModEtc.word] at h
    cases e' with
    | exprUnary b =>
      rw [ExprMulDivModEtc.word] at h
      exact absurd h.symm (b.word_ne_operand _)
    | numExpr n' =>
      rw [ExprMulDivModEtc.word] at h
      rw [Operand.num.inj (InfixWord.operand.inj h)]
    | identName _ | currPc | paren _ =>
      rw [ExprMulDivModEtc.word] at h
      cases h
  | .identName n, e', _, _, h => by
    rw [ExprMulDivModEtc.word] at h
    cases e' with
    | exprUnary b =>
      rw [ExprMulDivModEtc.word] at h
      exact absurd h.symm (b.word_ne_operand _)
    | identName n' =>
      rw [ExprMulDivModEtc.word] at h
      rw [Operand.ident.inj (InfixWord.operand.inj h)]
    | numExpr _ | currPc | paren _ =>
      rw [ExprMulDivModEtc.word] at h
      cases h
  | .currPc, e', _, _, h => by
    rw [ExprMulDivModEtc.word] at h
    cases e' with
    | exprUnary b =>
      rw [ExprMulDivModEtc.word] at h
      exact absurd h.symm (b.word_ne_operand _)
    | currPc => rfl
    | numExpr _ | identName _ | paren _ =>
      rw [ExprMulDivModEtc.word] at h
      cases h
termination_by structural e => e

theorem ExprUnary.eq_of_word : (e e' : ExprUnary) → e.clear = true → e'.clear = true →
    e.word = e'.word → e = e'
  | .exprBitInvert a, e', ha, hb, h => by
    cases e' <;> rw [ExprUnary.word, ExprUnary.word] at h <;>
      obtain ⟨hp, hw⟩ := (InfixWord.pre.injEq ..).mp h <;> cases hp
    rw [ExprUnary.clear] at ha hb
    rw [a.eq_of_word _ ha hb hw]
  | .exprNegate a, e', ha, hb, h => by
    cases e' <;> rw [ExprUnary.word, ExprUnary.word] at h <;>
      obtain ⟨hp, hw⟩ := (InfixWord.pre.injEq ..).mp h <;> cases hp
    rw [ExprUnary.clear] at ha hb
    rw [a.eq_of_word _ ha hb hw]
  | .exprLogNot a, e', ha, hb, h => by
    cases e' <;> rw [ExprUnary.word, ExprUnary.word] at h <;>
      obtain ⟨hp, hw⟩ := (InfixWord.pre.injEq ..).mp h <;> cases hp
    rw [ExprUnary.clear] at ha hb
    rw [a.eq_of_word _ ha hb hw]
termination_by structural e => e

end

end Frost32.Asm
