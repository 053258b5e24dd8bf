import Frost32.Asm.Expressions
import Frost32.Lib.InfixWord

namespace Frost32.Asm

/-!
# Expressions as words

The tokens of an expression determine its operands and operators at the outermost level, if
not always how they are grouped.

* `splitGroup` — the tokens up to the matching `)`; `ParenBalanced` lists are passed over.
* `Operand`, `PrefixOp`, `BinaryOp` — what stands between the operators, a parenthesised
  expression being one operand, and the operators of the grammar.
* `Expr.word` — the infix word of a parse tree.
* `Expr.word_eq_of_tokens_eq` — **trees with the same tokens have the same word.**
-/

/-! ### Parentheses -/

/-- The tokens before the `)` that closes `depth` more levels than are opened, and the tokens
    after it. -/
def splitGroup : (depth : Nat) → List Tok → List Tok × List Tok
  | _, [] => ([], [])
  | depth, .lParen :: ts =>
    (.lParen :: (splitGroup (depth + 1) ts).1, (splitGroup (depth + 1) ts).2)
  | 0, .rParen :: ts => ([], ts)
  | depth + 1, .rParen :: ts => (.rParen :: (splitGroup depth ts).1, (splitGroup depth ts).2)
  | depth, t :: ts => (t :: (splitGroup depth ts).1, (splitGroup depth ts).2)

/-- The list closes every parenthesis it opens, and no other. -/
def ParenBalanced (ts : List Tok) : Prop :=
  ∀ depth rest, splitGroup depth (ts ++ rest) =
    (ts ++ (splitGroup depth rest).1, (splitGroup depth rest).2)

namespace ParenBalanced

theorem append {ts us : List Tok} (h : ParenBalanced ts) (h' : ParenBalanced us) :
    ParenBalanced (ts ++ us) := by
  intro depth rest
  rw [List.append_assoc, h, h']
  simp

theorem token {t : Tok} (h : t ≠ .lParen) (h' : t ≠ .rParen) : ParenBalanced [t] := by
  intro depth rest
  rw [List.singleton_append, splitGroup]
  · rfl
  · exact h
  · exact fun _ => h'
  · exact fun _ _ => h'

theorem cons {t : Tok} {ts : List Tok} (h : t ≠ .lParen) (h' : t ≠ .rParen)
    (hts : ParenBalanced ts) : ParenBalanced (t :: ts) := (token h h').append hts

/-- A balanced list ends at the `)` after it. -/
theorem splitGroup_close {ts : List Tok} (h : ParenBalanced ts) (rest : List Tok) :
    splitGroup 0 (ts ++ .rParen :: rest) = (ts, rest) := by
  rw [h, splitGroup, List.append_nil]

theorem group {ts : List Tok} (h : ParenBalanced ts) :
    ParenBalanced (.lParen :: (ts ++ [.rParen])) := by
  intro depth rest
  show splitGroup depth (.lParen :: (ts ++ [.rParen] ++ rest)) = _
  rw [splitGroup, List.append_assoc, h, List.singleton_append, splitGroup]
  simp

end ParenBalanced

/-! ### Operands and operators -/

/-- The alternatives of rule `exprUnary`. -/
inductive PrefixOp
  | bitInvert | negate | logNot
  deriving DecidableEq

def PrefixOp.tok : PrefixOp → Tok
  | bitInvert => .bitInvert
  | negate => .minus
  | logNot => .exclamPoint

/-- The operators of the rules from `expr` to `exprAddSub`. -/
inductive BinaryOp
  | logical (op : TokOpLogical)
  | compare (op : TokOpCompare)
  | add | sub
  | mulDivMod (op : TokOpMulDivMod)
  | bitwise (op : TokOpBitwise)
  deriving DecidableEq

def BinaryOp.tok : BinaryOp → Tok
  | logical op => .opLogical op
  | compare op => .opCompare op
  | add => .plus
  | sub => .minus
  | mulDivMod op => .opMulDivMod op
  | bitwise op => .opBitwise op

/-- The alternatives of rule `exprMulDivModEtc` that start with no prefix operator. -/
inductive Operand
  | num (n : NumExpr)
  | ident (n : IdentName)
  | currPc
  | group (ts : List Tok) (h : ParenBalanced ts)

def Operand.tokens : Operand → List Tok
  | num n => n.tokens
  | ident n => n.tokens
  | currPc => [.period]
  | group ts _ => .lParen :: (ts ++ [.rParen])

/-- The operand that is a single token. -/
def Tok.operand? : Tok → Option Operand
  | .decNum ds => some (.num (.decNum ds))
  | .hexNum ds => some (.num (.hexNum ds))
  | .binNum ds => some (.num (.binNum ds))
  | .ident name => some (.ident (.ident name))
  | .instrName t => some (.ident (.instrName t))
  | .pseudoInstrName t => some (.ident (.pseudoInstrName t))
  | .reg r => some (.ident (.reg r))
  | .pcReg => some (.ident .pcReg)
  | .iretaReg => some (.ident .iretaReg)
  | .idstaReg => some (.ident .idstaReg)
  | .period => some .currPc
  | _ => none

namespace Operand

/-- An operand is one token or stands in parentheses. -/
theorem tokens_cases (o : Operand) :
    (∃ t, o.tokens = [t] ∧ t.operand? = some o) ∨ ∃ ts h, o = group ts h := by
  cases o with
  | num n => cases n <;> exact .inl ⟨_, rfl, rfl⟩
  | ident n => cases n <;> exact .inl ⟨_, rfl, rfl⟩
  | currPc => exact .inl ⟨_, rfl, rfl⟩
  | group ts h => exact .inr ⟨ts, h, rfl⟩

theorem tokens_inj {o o' : Operand} {ts ts' : List Tok} (h : o.tokens ++ ts = o'.tokens ++ ts') :
    o = o' ∧ ts = ts' := by
  rcases o.tokens_cases with ⟨t, ht, hread⟩ | ⟨us, hus, rfl⟩
  · rcases o'.tokens_cases with ⟨t', ht', hread'⟩ | ⟨us', hus', rfl⟩
    · rw [ht, ht'] at h
      obtain ⟨rfl, rfl⟩ := List.cons.inj h
      exact ⟨Option.some.inj (hread.symm.trans hread'), rfl⟩
    · rw [ht] at h
      obtain ⟨rfl, -⟩ := List.cons.inj h
      cases hread
  · rcases o'.tokens_cases with ⟨t', ht', hread'⟩ | ⟨us', hus', rfl⟩
    · rw [ht'] at h
      obtain ⟨rfl, -⟩ := List.cons.inj h
      cases hread'
    · have htail : us ++ .rParen :: ts = us' ++ .rParen :: ts' := by
        simpa [tokens] using h
      have hsplit := congrArg (splitGroup 0) htail
      rw [hus.splitGroup_close, hus'.splitGroup_close] at hsplit
      obtain ⟨rfl, rfl⟩ := Prod.mk.inj hsplit
      exact ⟨rfl, rfl⟩

theorem tokens_ne_prefix (o : Operand) (p : PrefixOp) (ts ts' : List Tok) :
    o.tokens ++ ts ≠ p.tok :: ts' := by
  intro h
  rcases o.tokens_cases with ⟨t, ht, hread⟩ | ⟨us, hus, rfl⟩
  · rw [ht] at h
    obtain ⟨rfl, -⟩ := List.cons.inj h
    cases p <;> cases hread
  · cases p <;> cases h

end Operand

/-- How the words of expressions are written as tokens. -/
def exprSpelling : InfixWord.Spelling Operand PrefixOp BinaryOp Tok where
  operand := Operand.tokens
  pre := PrefixOp.tok
  op := BinaryOp.tok
  operand_inj := Operand.tokens_inj
  pre_inj := by
    intro p p' h
    cases p <;> cases p' <;> cases h <;> rfl
  op_inj := by
    intro b b' h
    cases b <;> cases b' <;> cases h <;> rfl
  operand_ne_pre := Operand.tokens_ne_prefix

abbrev ExprWord := InfixWord Operand PrefixOp BinaryOp

/-! ### The word of a parse tree -/

theorem NumExpr.parenBalanced_tokens (n : NumExpr) : ParenBalanced n.tokens := by
  cases n <;> exact .token (by simp) (by simp)

theorem IdentName.parenBalanced_tokens (n : IdentName) : ParenBalanced n.tokens := by
  cases n <;> exact .token (by simp) (by simp)

mutual

theorem Expr.parenBalanced_tokens : (e : Expr) → ParenBalanced e.tokens
  | .exprLogical e => by
    rw [Expr.tokens]
    exact e.parenBalanced_tokens
  | .opLogical l op r => by
    rw [Expr.tokens]
    exact l.parenBalanced_tokens.append (.cons (by simp) (by simp) r.parenBalanced_tokens)

theorem ExprLogical.parenBalanced_tokens : (e : ExprLogical) → ParenBalanced e.tokens
  | .exprCompare e => by
    rw [ExprLogical.tokens]
    exact e.parenBalanced_tokens
  | .opCompare l op r => by
    rw [ExprLogical.tokens]
    exact l.parenBalanced_tokens.append (.cons (by simp) (by simp) r.parenBalanced_tokens)

theorem ExprCompare.parenBalanced_tokens : (e : ExprCompare) → ParenBalanced e.tokens
  | .exprAddSub e => by
    rw [ExprCompare.tokens]
    exact e.parenBalanced_tokens
  | .exprJustAdd l r => by
    rw [ExprCompare.tokens]
    exact l.parenBalanced_tokens.append (.cons (by simp) (by simp) r.parenBalanced_tokens)
  | .exprJustSub l r => by
    rw [ExprCompare.tokens]
    exact l.parenBalanced_tokens.append (.cons (by simp) (by simp) r.parenBalanced_tokens)

theorem ExprAddSub.parenBalanced_tokens : (e : ExprAddSub) → ParenBalanced e.tokens
  | .exprMulDivModEtc e => by
    rw [ExprAddSub.tokens]
    exact e.parenBalanced_tokens
  | .opMulDivMod l op r => by
    rw [ExprAddSub.tokens]
    exact l.parenBalanced_tokens.append (.cons (by simp) (by simp) r.parenBalanced_tokens)
  | .opBitwise l op r => by
    rw [ExprAddSub.tokens]
    exact l.parenBalanced_tokens.append (.cons (by simp) (by simp) r.parenBalanced_tokens)

theorem ExprMulDivModEtc.parenBalanced_tokens : (e : ExprMulDivModEtc) → ParenBalanced e.tokens
  | .exprUnary e => by
    rw [ExprMulDivModEtc.tokens]
    exact e.parenBalanced_tokens
  | .numExpr n => by
    rw [ExprMulDivModEtc.tokens]
    exact n.parenBalanced_tokens
  | .identName n => by
    rw [ExprMulDivModEtc.tokens]
    exact n.parenBalanced_tokens
  | .currPc => by
    rw [ExprMulDivModEtc.tokens]
    exact .token (by simp) (by simp)
  | .paren e => by
    rw [ExprMulDivModEtc.tokens]
    exact e.parenBalanced_tokens.group

theorem ExprUnary.parenBalanced_tokens : (e : ExprUnary) → ParenBalanced e.tokens
  | .exprBitInvert e => by
    rw [ExprUnary.tokens]
    exact .cons (by simp) (by simp) e.parenBalanced_tokens
  | .exprNegate e => by
    rw [ExprUnary.tokens]
    exact .cons (by simp) (by simp) e.parenBalanced_tokens
  | .exprLogNot e => by
    rw [ExprUnary.tokens]
    exact .cons (by simp) (by simp) e.parenBalanced_tokens

end

mutual

def Expr.word : Expr → ExprWord
  | .exprLogical e => e.word
  | .opLogical l op r => l.word.join (.logical op) r.word

def ExprLogical.word : ExprLogical → ExprWord
  | .exprCompare e => e.word
  | .opCompare l op r => l.word.join (.compare op) r.word

def ExprCompare.word : ExprCompare → ExprWord
  | .exprAddSub e => e.word
  | .exprJustAdd l r => l.word.join .add r.word
  | .exprJustSub l r => l.word.join .sub r.word

def ExprAddSub.word : ExprAddSub → ExprWord
  | .exprMulDivModEtc e => e.word
  | .opMulDivMod l op r => l.word.join (.mulDivMod op) r.word
  | .opBitwise l op r => l.word.join (.bitwise op) r.word

def ExprMulDivModEtc.word : ExprMulDivModEtc → ExprWord
  | .exprUnary e => e.word
  | .numExpr n => .operand (.num n)
  | .identName n => .operand (.ident n)
  | .currPc => .operand .currPc
  | .paren e => .operand (.group e.tokens e.parenBalanced_tokens)

def ExprUnary.word : ExprUnary → ExprWord
  | .exprBitInvert e => .pre .bitInvert e.word
  | .exprNegate e => .pre .negate e.word
  | .exprLogNot e => .pre .logNot e.word

end

/-- Two spelled words with an operator between them. -/
theorem tokens_join {l r : List Tok} {w v : ExprWord} (b : BinaryOp)
    (hl : l = exprSpelling.word w) (hr : r = exprSpelling.word v) :
    l ++ b.tok :: r = exprSpelling.word (w.join b v) := by
  rw [hl, hr, exprSpelling.word_join]
  rfl

mutual

theorem Expr.tokens_eq_word : (e : Expr) → e.tokens = exprSpelling.word e.word
  | .exprLogical e => by
    rw [Expr.tokens, Expr.word]
    exact e.tokens_eq_word
  | .opLogical l op r => by
    rw [Expr.tokens, Expr.word]
    exact tokens_join (.logical op) l.tokens_eq_word r.tokens_eq_word

theorem ExprLogical.tokens_eq_word : (e : ExprLogical) → e.tokens = exprSpelling.word e.word
  | .exprCompare e => by
    rw [ExprLogical.tokens, ExprLogical.word]
    exact e.tokens_eq_word
  | .opCompare l op r => by
    rw [ExprLogical.tokens, ExprLogical.word]
    exact tokens_join (.compare op) l.tokens_eq_word r.tokens_eq_word

theorem ExprCompare.tokens_eq_word : (e : ExprCompare) → e.tokens = exprSpelling.word e.word
  | .exprAddSub e => by
    rw [ExprCompare.tokens, ExprCompare.word]
    exact e.tokens_eq_word
  | .exprJustAdd l r => by
    rw [ExprCompare.tokens, ExprCompare.word]
    exact tokens_join .add l.tokens_eq_word r.tokens_eq_word
  | .exprJustSub l r => by
    rw [ExprCompare.tokens, ExprCompare.word]
    exact tokens_join .sub l.tokens_eq_word r.tokens_eq_word

theorem ExprAddSub.tokens_eq_word : (e : ExprAddSub) → e.tokens = exprSpelling.word e.word
  | .exprMulDivModEtc e => by
    rw [ExprAddSub.tokens, ExprAddSub.word]
    exact e.tokens_eq_word
  | .opMulDivMod l op r => by
    rw [ExprAddSub.tokens, ExprAddSub.word]
    exact tokens_join (.mulDivMod op) l.tokens_eq_word r.tokens_eq_word
  | .opBitwise l op r => by
    rw [ExprAddSub.tokens, ExprAddSub.word]
    exact tokens_join (.bitwise op) l.tokens_eq_word r.tokens_eq_word

theorem ExprMulDivModEtc.tokens_eq_word : (e : ExprMulDivModEtc) →
    e.tokens = exprSpelling.word e.word
  | .exprUnary e => by
    rw [ExprMulDivModEtc.tokens, ExprMulDivModEtc.word]
    exact e.tokens_eq_word
  | .numExpr n => by
    rw [ExprMulDivModEtc.tokens, ExprMulDivModEtc.word]
    rfl
  | .identName n => by
    rw [ExprMulDivModEtc.tokens, ExprMulDivModEtc.word]
    rfl
  | .currPc => by
    rw [ExprMulDivModEtc.tokens, ExprMulDivModEtc.word]
    rfl
  | .paren e => by
    rw [ExprMulDivModEtc.tokens, ExprMulDivModEtc.word]
    rfl

theorem ExprUnary.tokens_eq_word : (e : ExprUnary) → e.tokens = exprSpelling.word e.word
  | .exprBitInvert e => by
    rw [ExprUnary.tokens, ExprUnary.word, e.tokens_eq_word]
    rfl
  | .exprNegate e => by
    rw [ExprUnary.tokens, ExprUnary.word, e.tokens_eq_word]
    rfl
  | .exprLogNot e => by
    rw [ExprUnary.tokens, ExprUnary.word, e.tokens_eq_word]
    rfl

end

/-- **The tokens determine the word.** -/
theorem Expr.word_eq_of_tokens_eq {e e' : Expr} (h : e.tokens = e'.tokens) : e.word = e'.word := by
  rw [e.tokens_eq_word, e'.tokens_eq_word] at h
  exact exprSpelling.word_inj h

/-! ### The operators of each rule -/

/-- How tightly an operator binds. -/
def BinaryOp.level : BinaryOp → Nat
  | logical _ => 0
  | compare _ => 1
  | add | sub => 2
  | mulDivMod _ | bitwise _ => 3

/-- An operand of the tightest rule has no operator, unless a prefix operator stands before
    one. -/
theorem ExprMulDivModEtc.ops_word {e : ExprMulDivModEtc} (h : e.word.PrefixesLast) :
    e.word.ops = [] := by
  cases e with
  | exprUnary u =>
    rw [ExprMulDivModEtc.word] at h ⊢
    cases u with
    | exprBitInvert e =>
      rw [ExprUnary.word] at h ⊢
      exact h
    | exprNegate e =>
      rw [ExprUnary.word] at h ⊢
      exact h
    | exprLogNot e =>
      rw [ExprUnary.word] at h ⊢
      exact h
  | numExpr n => rw [ExprMulDivModEtc.word, InfixWord.ops]
  | identName n => rw [ExprMulDivModEtc.word, InfixWord.ops]
  | currPc => rw [ExprMulDivModEtc.word, InfixWord.ops]
  | paren e => rw [ExprMulDivModEtc.word, InfixWord.ops]

/-- Operators of two words and of the one between them. -/
theorem level_join {n : Nat} {w v : ExprWord} {b : BinaryOp} (h : (w.join b v).PrefixesLast)
    (hw : w.PrefixesLast → ∀ c ∈ w.ops, n ≤ c.level) (hb : n ≤ b.level)
    (hv : v.PrefixesLast → ∀ c ∈ v.ops, n ≤ c.level) : ∀ c ∈ (w.join b v).ops, n ≤ c.level := by
  obtain ⟨hw', hv'⟩ := (InfixWord.prefixesLast_join w b v).mp h
  intro c hc
  rw [InfixWord.ops_join, List.mem_append, List.mem_cons] at hc
  rcases hc with hc | rfl | hc
  · exact hw hw'.prefixesLast c hc
  · exact hb
  · exact hv hv' c hc

theorem ExprMulDivModEtc.level_word {n : Nat} {e : ExprMulDivModEtc}
    (h : e.word.PrefixesLast) : ∀ b ∈ e.word.ops, n ≤ b.level := by
  rw [e.ops_word h]
  exact fun b hb => absurd hb List.not_mem_nil

theorem ExprAddSub.level_word : (e : ExprAddSub) → e.word.PrefixesLast →
    ∀ b ∈ e.word.ops, 3 ≤ b.level
  | .exprMulDivModEtc e, h => by
    rw [ExprAddSub.word] at h ⊢
    exact e.level_word h
  | .opMulDivMod l op r, h => by
    rw [ExprAddSub.word] at h ⊢
    exact level_join h l.level_word (Nat.le_refl 3) r.level_word
  | .opBitwise l op r, h => by
    rw [ExprAddSub.word] at h ⊢
    exact level_join h l.level_word (Nat.le_refl 3) r.level_word

theorem ExprCompare.level_word : (e : ExprCompare) → e.word.PrefixesLast →
    ∀ b ∈ e.word.ops, 2 ≤ b.level
  | .exprAddSub e, h => by
    rw [ExprCompare.word] at h ⊢
    exact fun b hb => Nat.le_of_lt (e.level_word h b hb)
  | .exprJustAdd l r, h => by
    rw [ExprCompare.word] at h ⊢
    exact level_join h (fun hl b hb => Nat.le_of_lt (l.level_word hl b hb)) (Nat.le_refl 2)
      r.level_word
  | .exprJustSub l r, h => by
    rw [ExprCompare.word] at h ⊢
    exact level_join h (fun hl b hb => Nat.le_of_lt (l.level_word hl b hb)) (Nat.le_refl 2)
      r.level_word

theorem ExprLogical.level_word : (e : ExprLogical) → e.word.PrefixesLast →
    ∀ b ∈ e.word.ops, 1 ≤ b.level
  | .exprCompare e, h => by
    rw [ExprLogical.word] at h ⊢
    exact fun b hb => Nat.le_of_lt (e.level_word h b hb)
  | .opCompare l op r, h => by
    rw [ExprLogical.word] at h ⊢
    exact level_join h l.level_word (Nat.le_refl 1)
      (fun hr b hb => Nat.le_of_lt (r.level_word hr b hb))

end Frost32.Asm
