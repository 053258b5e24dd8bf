import Frost32.Asm.ExprWords
import Mathlib.Tactic.LinearCombination
import Mathlib.Tactic.Ring

namespace Frost32.Asm

/-!
# Chains of additions and subtractions

Rules `exprJustAdd` and `exprJustSub` have the rest of a chain on their right, so the last
operator of `t₀ op₁ t₁ … opₙ tₙ` is applied first.

* `ExprCompare.chain` — the parse tree of a chain; `exists_chain_of_tokens` — **there is no
  other grouping**.
* `leftToRight`, `rightToLeft` — the two ways to evaluate a chain.
* `turned` — the terms that the grouping from the right counts with the other sign.
* `visitExpr_chain_iff` — **a chain is evaluated from the left if and only if twice the sum of
  the turned terms is 0.**
-/

/-- The operators of rules `exprJustAdd` and `exprJustSub`. -/
inductive OpAddSub
  | plus | minus
  deriving DecidableEq

namespace OpAddSub

def binary : OpAddSub → BinaryOp
  | plus => .add
  | minus => .sub

def value (op : OpAddSub) (left right : BitVec 64) : BitVec 64 :=
  match op with
  | plus => left + right
  | minus => left - right

theorem level_binary (op : OpAddSub) : op.binary.level = 2 := by
  cases op <;> rfl

theorem binary_inj {op op' : OpAddSub} (h : op.binary = op'.binary) : op = op' := by
  cases op <;> cases op' <;> cases h <;> rfl

end OpAddSub

/-! ### The parse tree of a chain -/

def ExprMulDivModEtc.NoUnary : ExprMulDivModEtc → Prop
  | .exprUnary _ => False
  | _ => True

/-- No operand of the term itself starts with a prefix operator. -/
def ExprAddSub.NoUnary : ExprAddSub → Prop
  | .exprMulDivModEtc e => e.NoUnary
  | .opMulDivMod l _ r => l.NoUnary ∧ r.NoUnary
  | .opBitwise l _ r => l.NoUnary ∧ r.NoUnary

theorem ExprMulDivModEtc.noPrefix_word {e : ExprMulDivModEtc} (h : e.NoUnary) :
    e.word.NoPrefix := by
  cases e with
  | exprUnary u => exact h.elim
  | numExpr n => rw [ExprMulDivModEtc.word]; trivial
  | identName n => rw [ExprMulDivModEtc.word]; trivial
  | currPc => rw [ExprMulDivModEtc.word]; trivial
  | paren e => rw [ExprMulDivModEtc.word]; trivial

theorem ExprAddSub.noPrefix_word : (e : ExprAddSub) → e.NoUnary → e.word.NoPrefix
  | .exprMulDivModEtc e, h => by
    rw [ExprAddSub.word]
    exact e.noPrefix_word h
  | .opMulDivMod l op r, h => by
    rw [ExprAddSub.word, InfixWord.noPrefix_join]
    exact ⟨l.noPrefix_word h.1, r.noPrefix_word h.2⟩
  | .opBitwise l op r, h => by
    rw [ExprAddSub.word, InfixWord.noPrefix_join]
    exact ⟨l.noPrefix_word h.1, r.noPrefix_word h.2⟩

/-- What follows the first term: operators with the terms to their right. -/
abbrev ChainTail := List (OpAddSub × ExprAddSub)

/-- The parse tree of a chain. -/
def ExprCompare.chain (t : ExprAddSub) : ChainTail → ExprCompare
  | [] => .exprAddSub t
  | (.plus, u) :: us => .exprJustAdd t (chain u us)
  | (.minus, u) :: us => .exprJustSub t (chain u us)

/-- `t₀ op₁ t₁ … opₙ tₙ`. -/
def chainTokens (t : ExprAddSub) (us : ChainTail) : List Tok :=
  t.tokens ++ us.flatMap fun u => u.1.binary.tok :: u.2.tokens

theorem tokens_chain (t : ExprAddSub) (us : ChainTail) :
    (ExprCompare.chain t us).tokens = chainTokens t us := by
  induction us generalizing t with
  | nil =>
    rw [ExprCompare.chain, ExprCompare.tokens, chainTokens]
    simp
  | cons u us ih =>
    obtain ⟨op, u⟩ := u
    cases op <;> rw [ExprCompare.chain, ExprCompare.tokens, ih] <;> rfl

theorem word_chain_cons (t : ExprAddSub) (u : OpAddSub × ExprAddSub) (us : ChainTail) :
    (ExprCompare.chain t (u :: us)).word =
      t.word.join u.1.binary (ExprCompare.chain u.2 us).word := by
  obtain ⟨op, u⟩ := u
  cases op <;> rw [ExprCompare.chain, ExprCompare.word] <;> rfl

theorem noPrefix_chain {t : ExprAddSub} {us : ChainTail} (ht : t.NoUnary)
    (hus : ∀ u ∈ us, u.2.NoUnary) : (ExprCompare.chain t us).word.NoPrefix := by
  induction us generalizing t with
  | nil =>
    rw [ExprCompare.chain, ExprCompare.word]
    exact t.noPrefix_word ht
  | cons u us ih =>
    rw [word_chain_cons, InfixWord.noPrefix_join]
    exact ⟨t.noPrefix_word ht, ih (hus u List.mem_cons_self)
      fun v hv => hus v (List.mem_cons_of_mem u hv)⟩

/-- The same operators between terms that are spelled alike. -/
def SpelledAlike (t t' : ExprAddSub) (us us' : ChainTail) : Prop :=
  t.tokens = t'.tokens ∧ List.Forall₂ (fun u u' => u.1 = u'.1 ∧ u.2.tokens = u'.2.tokens) us us'

theorem ExprAddSub.tokens_eq_of_word_eq {e e' : ExprAddSub} (h : e.word = e'.word) :
    e.tokens = e'.tokens := by
  rw [e.tokens_eq_word, e'.tokens_eq_word, h]

/-- The word of a term has no `+` or `-` at the outermost level. -/
theorem ExprAddSub.not_level_two {e : ExprAddSub} (h : e.word.NoPrefix) :
    ∀ b ∈ e.word.ops, ¬ b.level = 2 := by
  intro b hb hlevel
  have h3 := e.level_word h.prefixesLast b hb
  omega

/-- A term is not spelled like a longer chain. -/
theorem ExprAddSub.word_ne_join {e : ExprAddSub} (h : e.word.NoPrefix) (op : OpAddSub)
    (w v : ExprWord) : e.word ≠ w.join op.binary v := by
  intro hword
  refine e.not_level_two h op.binary ?_ op.level_binary
  rw [hword, InfixWord.ops_join]
  exact List.mem_append_right _ List.mem_cons_self

/-- A term, an operator and a rest, spelled like a chain: the chain starts with the same term
    and the same operator. -/
theorem exists_chain_of_join {l : ExprAddSub} {op : OpAddSub} {r : ExprCompare} {t : ExprAddSub}
    {us : ChainTail} (hl : l.word.NoPrefix) (hno : (ExprCompare.chain t us).word.NoPrefix)
    (h : l.word.join op.binary r.word = (ExprCompare.chain t us).word) :
    ∃ u us', us = (op, u) :: us' ∧ l.tokens = t.tokens ∧
      r.word = (ExprCompare.chain u us').word := by
  cases us with
  | nil =>
    rw [ExprCompare.chain, ExprCompare.word] at h hno
    exact absurd h.symm (t.word_ne_join hno op l.word r.word)
  | cons u us =>
    rw [word_chain_cons] at h hno
    have ht : t.word.NoPrefix := ((InfixWord.noPrefix_join ..).mp hno).1
    -- the first `+` or `-` of the tokens is where both trees are split
    obtain ⟨hterm, hop, hrest⟩ := InfixWord.join_inj_of_first (P := fun b => b.level = 2)
      op.level_binary u.1.level_binary (l.not_level_two hl) (t.not_level_two ht) h
    exact ⟨u.2, us, by rw [OpAddSub.binary_inj hop], ExprAddSub.tokens_eq_of_word_eq hterm, hrest⟩

/-- **Every tree with the word of a chain is a chain.** -/
theorem exists_chain_of_word : (c : ExprCompare) → {t : ExprAddSub} → {us : ChainTail} →
    (ExprCompare.chain t us).word.NoPrefix → c.word = (ExprCompare.chain t us).word →
    ∃ t' us', c = .chain t' us' ∧ SpelledAlike t' t us' us
  | .exprAddSub e, t, [], hno, h => by
    refine ⟨e, [], rfl, ExprAddSub.tokens_eq_of_word_eq ?_, .nil⟩
    rwa [ExprCompare.chain, ExprCompare.word, ExprCompare.word] at h
  | .exprAddSub e, t, u :: us, hno, h => by
    rw [ExprCompare.word] at h
    rw [← h] at hno
    exact absurd (h.trans (word_chain_cons t u us)) (e.word_ne_join hno u.1 _ _)
  | .exprJustAdd l r, t, us, hno, h => by
    rw [ExprCompare.word] at h
    obtain ⟨hl, hr⟩ := (InfixWord.noPrefix_join ..).mp (h ▸ hno)
    have hjoin : l.word.join OpAddSub.plus.binary r.word = _ := h
    obtain ⟨u, us', rfl, hterm, hrest⟩ := exists_chain_of_join hl hno hjoin
    obtain ⟨u', us'', rfl, halike⟩ := exists_chain_of_word r (hrest ▸ hr) hrest
    exact ⟨l, (.plus, u') :: us'', rfl, hterm, .cons ⟨rfl, halike.1⟩ halike.2⟩
  | .exprJustSub l r, t, us, hno, h => by
    rw [ExprCompare.word] at h
    obtain ⟨hl, hr⟩ := (InfixWord.noPrefix_join ..).mp (h ▸ hno)
    have hjoin : l.word.join OpAddSub.minus.binary r.word = _ := h
    obtain ⟨u, us', rfl, hterm, hrest⟩ := exists_chain_of_join hl hno hjoin
    obtain ⟨u', us'', rfl, halike⟩ := exists_chain_of_word r (hrest ▸ hr) hrest
    exact ⟨l, (.minus, u') :: us'', rfl, hterm, .cons ⟨rfl, halike.1⟩ halike.2⟩

/-- An operator that binds less tightly than `+` is not in the word of a chain. -/
theorem exists_exprCompare_of_word {e : Expr} {c : ExprCompare} (hno : c.word.NoPrefix)
    (h : e.word = c.word) : ∃ c', e = .exprLogical (.exprCompare c') ∧ c'.word = c.word := by
  have hlow : ∀ (b : BinaryOp) (w v : ExprWord), b.level < 2 → c.word ≠ w.join b v := by
    intro b w v hb hword
    have hmem : b ∈ c.word.ops := by
      rw [hword, InfixWord.ops_join]
      exact List.mem_append_right _ List.mem_cons_self
    have hlevel := c.level_word hno.prefixesLast b hmem
    omega
  cases e with
  | opLogical l op r =>
    rw [Expr.word] at h
    exact absurd h.symm (hlow _ _ _ (by decide : (0 : Nat) < 2))
  | exprLogical e =>
    rw [Expr.word] at h
    cases e with
    | opCompare l op r =>
      rw [ExprLogical.word] at h
      exact absurd h.symm (hlow _ _ _ (by decide : (1 : Nat) < 2))
    | exprCompare c' =>
      rw [ExprLogical.word] at h
      exact ⟨c', rfl, h⟩

/-- **A parse tree of a chain has the chain's terms, grouped from the right.** -/
theorem exists_chain_of_tokens {e : Expr} {t : ExprAddSub} {us : ChainTail} (ht : t.NoUnary)
    (hus : ∀ u ∈ us, u.2.NoUnary) (h : e.tokens = chainTokens t us) :
    ∃ t' us', e = .exprLogical (.exprCompare (.chain t' us')) ∧ SpelledAlike t' t us' us := by
  have hno := noPrefix_chain ht hus
  have hword : e.word = (Expr.exprLogical (.exprCompare (.chain t us))).word := by
    apply Expr.word_eq_of_tokens_eq
    rw [h, Expr.tokens, ExprLogical.tokens, tokens_chain]
  rw [Expr.word, ExprLogical.word] at hword
  obtain ⟨c, rfl, hc⟩ := exists_exprCompare_of_word hno hword
  obtain ⟨t', us', rfl, halike⟩ := exists_chain_of_word c hno hc
  exact ⟨t', us', rfl, halike⟩

/-! ### The value of a chain -/

/-- Operators with the values to their right. -/
abbrev ValueTail := List (OpAddSub × BitVec 64)

/-- `(…((v₀ op₁ v₁) op₂ v₂) … opₙ vₙ)`. -/
def leftToRight (v : BitVec 64) : ValueTail → BitVec 64
  | [] => v
  | (op, u) :: us => leftToRight (op.value v u) us

/-- `v₀ op₁ (v₁ op₂ (… opₙ vₙ)…)`. -/
def rightToLeft (v : BitVec 64) : ValueTail → BitVec 64
  | [] => v
  | (op, u) :: us => op.value v (rightToLeft u us)

/-- The sum, with the signs of their own operators, of the values that have an odd number of
    `-` to the left of that operator. -/
def turned (odd : Bool) : ValueTail → BitVec 64
  | [] => 0
  | (op, u) :: us => (if odd then op.value 0 u else 0) + turned (odd ^^ (op == .minus)) us

def tailValues (env : Env) : ChainTail → Except AsmError ValueTail
  | [] => .ok []
  | (op, u) :: us => do
    let n ← u.eval env
    return (op, n) :: (← tailValues env us)

/-- The values of the terms, put together by `f`. -/
def chainValue (f : BitVec 64 → ValueTail → BitVec 64) (env : Env) (t : ExprAddSub)
    (us : ChainTail) : Except AsmError (BitVec 64) := do
  let v ← t.eval env
  return f v (← tailValues env us)

/-- The visitor groups a chain from the right. -/
theorem eval_chain (env : Env) (t : ExprAddSub) (us : ChainTail) :
    (ExprCompare.chain t us).eval env = chainValue rightToLeft env t us := by
  induction us generalizing t with
  | nil =>
    rw [ExprCompare.chain, ExprCompare.eval, chainValue, tailValues]
    cases t.eval env <;> rfl
  | cons u us ih =>
    obtain ⟨op, u⟩ := u
    cases op with
    | plus =>
      rw [ExprCompare.chain, ExprCompare.eval, ih, chainValue, chainValue, tailValues]
      cases t.eval env <;> cases u.eval env <;> cases tailValues env us <;> rfl
    | minus =>
      rw [ExprCompare.chain, ExprCompare.eval, ih, chainValue, chainValue, tailValues]
      cases t.eval env <;> cases u.eval env <;> cases tailValues env us <;> rfl

theorem leftToRight_eq_add (v : BitVec 64) (us : ValueTail) :
    leftToRight v us = v + leftToRight 0 us := by
  induction us generalizing v with
  | nil => exact (BitVec.add_zero v).symm
  | cons u us ih =>
    obtain ⟨op, u⟩ := u
    rw [leftToRight, leftToRight, ih (op.value v u), ih (op.value 0 u)]
    cases op <;> simp only [OpAddSub.value] <;> ring

theorem rightToLeft_eq_add (v : BitVec 64) (us : ValueTail) :
    rightToLeft v us = v + rightToLeft 0 us := by
  cases us with
  | nil => exact (BitVec.add_zero v).symm
  | cons u us =>
    obtain ⟨op, u⟩ := u
    rw [rightToLeft, rightToLeft]
    cases op <;> simp only [OpAddSub.value] <;> ring

/-- **The two groupings differ by twice the turned terms**; behind an odd number of `-` the
    whole rest counts with the other sign. -/
theorem leftToRight_sub_rightToLeft (us : ValueTail) :
    leftToRight 0 us - rightToLeft 0 us = 2 * turned false us ∧
      leftToRight 0 us + rightToLeft 0 us = 2 * turned true us := by
  induction us with
  | nil => exact ⟨rfl, rfl⟩
  | cons u us ih =>
    obtain ⟨op, u⟩ := u
    obtain ⟨heven, hodd⟩ := ih
    simp only [leftToRight, rightToLeft, turned]
    rw [leftToRight_eq_add (op.value 0 u), rightToLeft_eq_add u]
    cases op with
    | plus =>
      simp only [OpAddSub.value, show (OpAddSub.plus == .minus) = false from rfl,
        Bool.xor_false, if_true, if_false, Bool.false_eq_true]
      constructor
      · linear_combination heven
      · linear_combination hodd
    | minus =>
      simp only [OpAddSub.value, show (OpAddSub.minus == .minus) = true from rfl,
        Bool.xor_true, Bool.not_false, Bool.not_true, if_true, if_false, Bool.false_eq_true]
      constructor
      · linear_combination hodd
      · linear_combination heven

theorem leftToRight_eq_iff (v : BitVec 64) (us : ValueTail) :
    rightToLeft v us = leftToRight v us ↔ 2 * turned false us = 0 := by
  rw [leftToRight_eq_add, rightToLeft_eq_add, ← (leftToRight_sub_rightToLeft us).1]
  constructor
  · intro h
    linear_combination -h
  · intro h
    linear_combination -h

theorem turned_zeros (odd : Bool) (ops : List OpAddSub) :
    turned odd (ops.map fun op => (op, 0)) = 0 := by
  induction ops generalizing odd with
  | nil => rfl
  | cons op ops ih =>
    rw [List.map_cons, turned, ih]
    cases odd <;> cases op <;> rfl

/-- A `+` turns nothing. -/
theorem turned_plus (u : BitVec 64) (us : ValueTail) :
    turned false ((.plus, u) :: us) = turned false us :=
  BitVec.zero_add (turned false us)

/-- **Whatever the terms are worth, both groupings agree** — for the operators after which no
    term is turned: those that have `-` at the end only. -/
theorem turned_cancel_iff (ops : List OpAddSub) :
    (∀ vs : ValueTail, vs.map Prod.fst = ops → 2 * turned false vs = 0) ↔
      ∀ op ∈ ops.dropLast, op = .plus := by
  induction ops with
  | nil =>
    refine iff_of_true ?_ (by simp)
    intro vs hvs
    rw [List.map_eq_nil_iff.mp hvs]
    rfl
  | cons op ops ih =>
    cases ops with
    | nil =>
      refine iff_of_true ?_ (by simp)
      intro vs hvs
      obtain ⟨v, rfl, -⟩ := List.map_eq_singleton_iff.mp hvs
      rfl
    | cons op' ops =>
      rw [List.dropLast_cons_cons, List.forall_mem_cons, ← ih]
      constructor
      · intro h
        cases op with
        | plus =>
          refine ⟨rfl, fun vs hvs => ?_⟩
          have hcons := h ((.plus, 0) :: vs) (congrArg (OpAddSub.plus :: ·) hvs)
          rwa [turned_plus] at hcons
        | minus =>
          -- the term after the next operator is turned and may be 1
          have hone := h ((.minus, 0) :: (op', 1) :: ops.map fun op => (op, 0))
            (by simp [Function.comp_def])
          simp only [turned, turned_zeros] at hone
          cases op' <;> exact absurd hone (by decide)
      · rintro ⟨rfl, h⟩ vs hvs
        obtain ⟨u, us, rfl, hu, hus⟩ := List.map_eq_cons_iff.mp hvs
        obtain ⟨op, u⟩ := u
        obtain rfl : op = .plus := hu
        rw [turned_plus]
        exact h us hus

/-- Where all the terms have values, twice the sum of the turned ones is 0. -/
def TurnedCancel (env : Env) (t : ExprAddSub) (us : ChainTail) : Prop :=
  ∀ v vs, t.eval env = .ok v → tailValues env us = .ok vs → 2 * turned false vs = 0

theorem chainValue_eq_iff (env : Env) (t : ExprAddSub) (us : ChainTail) :
    chainValue rightToLeft env t us = chainValue leftToRight env t us ↔
      TurnedCancel env t us := by
  unfold chainValue TurnedCancel
  cases t.eval env with
  | error err => simp
  | ok v =>
    cases tailValues env us with
    | error err => simp
    | ok vs => simp [leftToRight_eq_iff]

/-- **A chain is evaluated from the left if and only if the turned terms cancel**, whatever its
    parse tree. -/
theorem visitExpr_chain_iff {e : Expr} {t : ExprAddSub} {us : ChainTail} (ht : t.NoUnary)
    (hus : ∀ u ∈ us, u.2.NoUnary) (h : e.tokens = chainTokens t us) :
    ∃ t' us', SpelledAlike t' t us' us ∧ ∀ s : Assembler,
      (visitExpr e).run s = pushing s (chainValue leftToRight s.env t' us') ↔
        TurnedCancel s.env t' us' := by
  obtain ⟨t', us', rfl, halike⟩ := exists_chain_of_tokens ht hus h
  refine ⟨t', us', halike, fun s => ?_⟩
  rw [visitExpr_run, Expr.eval, ExprLogical.eval, eval_chain, ← chainValue_eq_iff]
  exact pushing_inj

/-- A number of one digit. -/
def digitTerm (c : Char) (h : c.isDigit = true) : ExprAddSub :=
  .exprMulDivModEtc (.numExpr (.decNum ⟨[c], by simp [h]⟩))

/-- `1 + 2 - 3` is the same from both sides. -/
theorem visitExpr_chain_iff_last_minus :
    ∃ t' us', SpelledAlike t' (digitTerm '1' rfl) us'
        [(.plus, digitTerm '2' rfl), (.minus, digitTerm '3' rfl)] ∧
      ∀ s : Assembler,
        (visitExpr (.exprLogical (.exprCompare (.chain (digitTerm '1' rfl)
          [(.plus, digitTerm '2' rfl), (.minus, digitTerm '3' rfl)])))).run s =
            pushing s (chainValue leftToRight s.env t' us') ↔ TurnedCancel s.env t' us' := by
  refine visitExpr_chain_iff trivial ?_ ?_
  · intro u hu
    simp only [List.mem_cons, List.not_mem_nil, or_false] at hu
    rcases hu with rfl | rfl <;> trivial
  · rw [Expr.tokens, ExprLogical.tokens, tokens_chain]

/-- `1 - 2 + 3` is -4 and not 2. -/
theorem chain_evaluated_from_right :
    (Expr.exprLogical (.exprCompare (.chain (digitTerm '1' rfl)
        [(.minus, digitTerm '2' rfl), (.plus, digitTerm '3' rfl)]))).tokens =
      chainTokens (digitTerm '1' rfl)
        [(.minus, digitTerm '2' rfl), (.plus, digitTerm '3' rfl)] ∧
    chainValue leftToRight (Assembler.init false).env (digitTerm '1' rfl)
      [(.minus, digitTerm '2' rfl), (.plus, digitTerm '3' rfl)] = .ok 2 ∧
    (visitExpr (.exprLogical (.exprCompare (.chain (digitTerm '1' rfl)
      [(.minus, digitTerm '2' rfl), (.plus, digitTerm '3' rfl)])))).run (.init false) =
        pushing (.init false) (.ok (-4)) := by
  refine ⟨?_, by decide, ?_⟩
  · rw [Expr.tokens, ExprLogical.tokens, tokens_chain]
  · rw [visitExpr_run, pushing_inj]
    decide

end Frost32.Asm
