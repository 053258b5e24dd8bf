import Frost32.Asm.ExprAmbiguity

namespace Frost32.Asm

/-!
# Two groupings of one expression

Where an infix operator stands to the right of a prefix operator, the tokens have two parse
trees: in one a prefix operator takes all that follows, in the other the next operand only.

* `TreeWord` — the word of a tree with its operands as trees.
* `TreeWord.greedy`, `TreeWord.lazy` — the two trees, built from the right; `outerOps` counts
  the operators outside the operands of prefix operators and tells them apart.
* `Expr.one_parse_iff` — **an expression has one parse tree if and only if no infix operator
  stands to the right of a prefix operator.**
* `two_meanings` — the two trees of `- 1 + 2` have different values.
-/

/-! ### Operands put in front -/

/-- How many operators of the outermost level are not part of the operand of a prefix
    operator. -/
def ExprAddSub.outerOps : ExprAddSub → Nat
  | .exprMulDivModEtc _ => 0
  | .opMulDivMod l _ _ | .opBitwise l _ _ => l.outerOps + 1

def ExprCompare.outerOps : ExprCompare → Nat
  | .exprAddSub e => e.outerOps
  | .exprJustAdd l r | .exprJustSub l r => l.outerOps + 1 + r.outerOps

def ExprLogical.outerOps : ExprLogical → Nat
  | .exprCompare e => e.outerOps
  | .opCompare l _ r => l.outerOps + 1 + r.outerOps

def Expr.outerOps : Expr → Nat
  | .exprLogical e => e.outerOps
  | .opLogical l _ r => l.outerOps + 1 + r.outerOps

/-- The tree of a term alone. -/
def ExprMulDivModEtc.toAddSub (m : ExprMulDivModEtc) : ExprAddSub := .exprMulDivModEtc m
def ExprMulDivModEtc.toLogical (m : ExprMulDivModEtc) : ExprLogical :=
  .exprCompare (.exprAddSub m.toAddSub)
def ExprMulDivModEtc.toExpr (m : ExprMulDivModEtc) : Expr := .exprLogical m.toLogical

theorem ExprMulDivModEtc.tokens_toAddSub (m : ExprMulDivModEtc) :
    m.toAddSub.tokens = m.tokens := by
  rw [toAddSub, ExprAddSub.tokens]

theorem ExprMulDivModEtc.tokens_toLogical (m : ExprMulDivModEtc) :
    m.toLogical.tokens = m.tokens := by
  rw [toLogical, ExprLogical.tokens, ExprCompare.tokens, m.tokens_toAddSub]

theorem ExprMulDivModEtc.tokens_toExpr (m : ExprMulDivModEtc) : m.toExpr.tokens = m.tokens := by
  rw [toExpr, Expr.tokens, m.tokens_toLogical]

/-! The leftmost part of each rule. -/

def Expr.mapFirst (f : ExprLogical → Expr) : Expr → Expr
  | .exprLogical e => f e
  | .opLogical l op r => .opLogical (l.mapFirst f) op r

def ExprLogical.mapFirst (f : ExprCompare → ExprLogical) : ExprLogical → ExprLogical
  | .exprCompare e => f e
  | .opCompare l op r => .opCompare (l.mapFirst f) op r

def ExprCompare.mapFirst (f : ExprAddSub → ExprAddSub) : ExprCompare → ExprCompare
  | .exprAddSub e => .exprAddSub (f e)
  | .exprJustAdd l r => .exprJustAdd (f l) r
  | .exprJustSub l r => .exprJustSub (f l) r

def ExprAddSub.mapFirst (f : ExprMulDivModEtc → ExprAddSub) : ExprAddSub → ExprAddSub
  | .exprMulDivModEtc e => f e
  | .opMulDivMod l op r => .opMulDivMod (l.mapFirst f) op r
  | .opBitwise l op r => .opBitwise (l.mapFirst f) op r

section Prepend

variable {ts : List Tok} {k : Nat}

theorem ExprAddSub.mapFirst_spec {f : ExprMulDivModEtc → ExprAddSub}
    (hf : ∀ m, (f m).tokens = ts ++ m.tokens ∧ (f m).outerOps = k) (e : ExprAddSub) :
    (e.mapFirst f).tokens = ts ++ e.tokens ∧ (e.mapFirst f).outerOps = e.outerOps + k := by
  cases e with
  | opMulDivMod l op r =>
    obtain ⟨htokens, hops⟩ := l.mapFirst_spec hf
    rw [mapFirst, ExprAddSub.tokens, ExprAddSub.tokens, htokens, outerOps, outerOps, hops]
    exact ⟨List.append_assoc .., by omega⟩
  | opBitwise l op r =>
    obtain ⟨htokens, hops⟩ := l.mapFirst_spec hf
    rw [mapFirst, ExprAddSub.tokens, ExprAddSub.tokens, htokens, outerOps, outerOps, hops]
    exact ⟨List.append_assoc .., by omega⟩
  | exprMulDivModEtc e =>
    rw [mapFirst, ExprAddSub.tokens, outerOps, Nat.zero_add]
    exact hf e

theorem ExprCompare.mapFirst_spec {f : ExprAddSub → ExprAddSub}
    (hf : ∀ m, (f m).tokens = ts ++ m.tokens ∧ (f m).outerOps = m.outerOps + k)
    (e : ExprCompare) :
    (e.mapFirst f).tokens = ts ++ e.tokens ∧ (e.mapFirst f).outerOps = e.outerOps + k := by
  cases e with
  | exprAddSub e =>
    rw [mapFirst, ExprCompare.tokens, ExprCompare.tokens, outerOps, outerOps]
    exact hf e
  | exprJustAdd l r =>
    obtain ⟨htokens, hops⟩ := hf l
    rw [mapFirst, ExprCompare.tokens, ExprCompare.tokens, htokens, outerOps, outerOps, hops]
    exact ⟨List.append_assoc .., by omega⟩
  | exprJustSub l r =>
    obtain ⟨htokens, hops⟩ := hf l
    rw [mapFirst, ExprCompare.tokens, ExprCompare.tokens, htokens, outerOps, outerOps, hops]
    exact ⟨List.append_assoc .., by omega⟩

theorem ExprLogical.mapFirst_spec {f : ExprCompare → ExprLogical}
    (hf : ∀ m, (f m).tokens = ts ++ m.tokens ∧ (f m).outerOps = m.outerOps + k)
    (e : ExprLogical) :
    (e.mapFirst f).tokens = ts ++ e.tokens ∧ (e.mapFirst f).outerOps = e.outerOps + k := by
  cases e with
  | opCompare l op r =>
    obtain ⟨htokens, hops⟩ := l.mapFirst_spec hf
    rw [mapFirst, ExprLogical.tokens, ExprLogical.tokens, htokens, outerOps, outerOps, hops]
    exact ⟨List.append_assoc .., by omega⟩
  | exprCompare e =>
    rw [mapFirst, ExprLogical.tokens, outerOps]
    exact hf e

theorem Expr.mapFirst_spec {f : ExprLogical → Expr}
    (hf : ∀ m, (f m).tokens = ts ++ m.tokens ∧ (f m).outerOps = m.outerOps + k) (e : Expr) :
    (e.mapFirst f).tokens = ts ++ e.tokens ∧ (e.mapFirst f).outerOps = e.outerOps + k := by
  cases e with
  | opLogical l op r =>
    obtain ⟨htokens, hops⟩ := l.mapFirst_spec hf
    rw [mapFirst, Expr.tokens, Expr.tokens, htokens, outerOps, outerOps, hops]
    exact ⟨List.append_assoc .., by omega⟩
  | exprLogical e =>
    rw [mapFirst, Expr.tokens, outerOps]
    exact hf e

end Prepend

/-- Change the leftmost comparison operand. -/
def Expr.mapFirstCompare (f : ExprCompare → ExprLogical) (e : Expr) : Expr :=
  e.mapFirst fun l => .exprLogical (l.mapFirst f)

/-- Change the leftmost operand of all. -/
def Expr.mapFirstTerm (f : ExprMulDivModEtc → ExprAddSub) (e : Expr) : Expr :=
  e.mapFirstCompare fun c => .exprCompare (c.mapFirst (·.mapFirst f))

theorem Expr.mapFirstCompare_spec {ts : List Tok} {k : Nat} {f : ExprCompare → ExprLogical}
    (hf : ∀ m, (f m).tokens = ts ++ m.tokens ∧ (f m).outerOps = m.outerOps + k) (e : Expr) :
    (e.mapFirstCompare f).tokens = ts ++ e.tokens ∧
      (e.mapFirstCompare f).outerOps = e.outerOps + k := by
  refine mapFirst_spec (fun l => ?_) e
  rw [Expr.tokens, outerOps]
  exact l.mapFirst_spec hf

theorem Expr.mapFirstTerm_spec {ts : List Tok} {k : Nat} {f : ExprMulDivModEtc → ExprAddSub}
    (hf : ∀ m, (f m).tokens = ts ++ m.tokens ∧ (f m).outerOps = k) (e : Expr) :
    (e.mapFirstTerm f).tokens = ts ++ e.tokens ∧ (e.mapFirstTerm f).outerOps = e.outerOps + k := by
  refine mapFirstCompare_spec (fun c => ?_) e
  rw [ExprLogical.tokens, ExprLogical.outerOps]
  exact c.mapFirst_spec fun a => a.mapFirst_spec hf

/-- Put an operand and an infix operator in front. -/
def Expr.insertFirst (m : ExprMulDivModEtc) (b : BinaryOp) (e : Expr) : Expr :=
  match b with
  | .logical op => e.mapFirst fun l => .opLogical m.toExpr op l
  | .compare op => e.mapFirstCompare fun c => .opCompare m.toLogical op c
  | .add => e.mapFirstCompare fun c => .exprCompare (.exprJustAdd m.toAddSub c)
  | .sub => e.mapFirstCompare fun c => .exprCompare (.exprJustSub m.toAddSub c)
  | .mulDivMod op => e.mapFirstTerm fun t => .opMulDivMod m.toAddSub op t
  | .bitwise op => e.mapFirstTerm fun t => .opBitwise m.toAddSub op t

/-- **The operator goes where its rule is**, and the tokens are in order. -/
theorem Expr.insertFirst_spec (m : ExprMulDivModEtc) (b : BinaryOp) (e : Expr) :
    (e.insertFirst m b).tokens = (m.tokens ++ [b.tok]) ++ e.tokens ∧
      (e.insertFirst m b).outerOps = e.outerOps + 1 := by
  cases b with
  | logical op =>
    refine mapFirst_spec (fun l => ?_) e
    rw [Expr.tokens, outerOps, m.tokens_toExpr, List.append_assoc]
    exact ⟨rfl, by rw [Nat.add_comm]; rfl⟩
  | compare op =>
    refine mapFirstCompare_spec (fun c => ?_) e
    rw [ExprLogical.tokens, ExprLogical.outerOps, m.tokens_toLogical, List.append_assoc]
    exact ⟨rfl, by rw [Nat.add_comm]; rfl⟩
  | add =>
    refine mapFirstCompare_spec (fun c => ?_) e
    rw [ExprLogical.tokens, ExprLogical.outerOps, ExprCompare.tokens, ExprCompare.outerOps,
      m.tokens_toAddSub, List.append_assoc]
    exact ⟨rfl, by rw [Nat.add_comm]; rfl⟩
  | sub =>
    refine mapFirstCompare_spec (fun c => ?_) e
    rw [ExprLogical.tokens, ExprLogical.outerOps, ExprCompare.tokens, ExprCompare.outerOps,
      m.tokens_toAddSub, List.append_assoc]
    exact ⟨rfl, by rw [Nat.add_comm]; rfl⟩
  | mulDivMod op =>
    refine mapFirstTerm_spec (fun t => ?_) e
    rw [ExprAddSub.tokens, m.tokens_toAddSub, List.append_assoc]
    exact ⟨rfl, rfl⟩
  | bitwise op =>
    refine mapFirstTerm_spec (fun t => ?_) e
    rw [ExprAddSub.tokens, m.tokens_toAddSub, List.append_assoc]
    exact ⟨rfl, rfl⟩

/-! ### Two trees for a word -/

/-- A word whose operands are trees. -/
abbrev TreeWord := InfixWord ExprMulDivModEtc PrefixOp BinaryOp

/-- A prefix operator with its operand. -/
def PrefixOp.apply (p : PrefixOp) (e : Expr) : ExprMulDivModEtc :=
  .exprUnary (match p with
    | bitInvert => .exprBitInvert e
    | negate => .exprNegate e
    | logNot => .exprLogNot e)

theorem PrefixOp.tokens_apply (p : PrefixOp) (e : Expr) :
    (p.apply e).tokens = p.tok :: e.tokens := by
  cases p <;> rw [apply, ExprMulDivModEtc.tokens, ExprUnary.tokens, tok]

namespace TreeWord

def tokens : TreeWord → List Tok
  | .operand m => m.tokens
  | .pre p w => p.tok :: tokens w
  | .op m b w => (m.tokens ++ [b.tok]) ++ tokens w

/-- A prefix operator takes all that follows. -/
def greedy : TreeWord → Expr
  | .operand m => m.toExpr
  | .pre p w => (p.apply (greedy w)).toExpr
  | .op m b w => (greedy w).insertFirst m b

/-- A prefix operator takes the next operand. -/
def lazy : TreeWord → Expr
  | .operand m => m.toExpr
  | .pre p w => (lazy w).mapFirstTerm fun m => (p.apply m.toExpr).toAddSub
  | .op m b w => (lazy w).insertFirst m b

theorem tokens_greedy (w : TreeWord) : (greedy w).tokens = tokens w := by
  induction w with
  | operand m => exact m.tokens_toExpr
  | pre p w ih => rw [greedy, ExprMulDivModEtc.tokens_toExpr, p.tokens_apply, ih, tokens]
  | op m b w ih => rw [greedy, (Expr.insertFirst_spec m b _).1, ih, tokens]

theorem lazy_spec (w : TreeWord) : (lazy w).tokens = tokens w ∧
    (lazy w).outerOps = w.ops.length := by
  induction w with
  | operand m => exact ⟨m.tokens_toExpr, rfl⟩
  | pre p w ih =>
    have happly : ∀ m : ExprMulDivModEtc, (p.apply m.toExpr).toAddSub.tokens = [p.tok] ++ m.tokens ∧
        (p.apply m.toExpr).toAddSub.outerOps = 0 := by
      intro m
      rw [ExprMulDivModEtc.tokens_toAddSub, p.tokens_apply, m.tokens_toExpr]
      exact ⟨rfl, rfl⟩
    have hspec := Expr.mapFirstTerm_spec happly (lazy w)
    rw [lazy, hspec.1, hspec.2, ih.1, ih.2]
    exact ⟨rfl, rfl⟩
  | op m b w ih =>
    rw [lazy, (Expr.insertFirst_spec m b _).1, (Expr.insertFirst_spec m b _).2, ih.1, ih.2]
    exact ⟨rfl, rfl⟩

/-- An operator to the right of a prefix operator is in the operand of that one. -/
theorem outerOps_greedy (w : TreeWord) : (greedy w).outerOps ≤ w.ops.length ∧
    (¬ w.PrefixesLast → (greedy w).outerOps < w.ops.length) := by
  induction w with
  | operand m => exact ⟨Nat.zero_le _, fun h => absurd trivial h⟩
  | pre p w ih =>
    exact ⟨Nat.zero_le _, fun h => List.length_pos_iff.mpr h⟩
  | op m b w ih =>
    rw [greedy, (Expr.insertFirst_spec m b _).2, InfixWord.ops, List.length_cons]
    exact ⟨Nat.succ_le_succ ih.1, fun h => Nat.succ_lt_succ (ih.2 h)⟩

theorem greedy_ne_lazy {w : TreeWord} (h : ¬ w.PrefixesLast) : greedy w ≠ lazy w := by
  intro heq
  have hlt := (outerOps_greedy w).2 h
  rw [heq, (lazy_spec w).2] at hlt
  exact Nat.lt_irrefl _ hlt

end TreeWord

/-! ### The word of a tree with its operands -/

mutual

def Expr.treeWord : Expr → TreeWord
  | .exprLogical e => e.treeWord
  | .opLogical l op r => l.treeWord.join (.logical op) r.treeWord

def ExprLogical.treeWord : ExprLogical → TreeWord
  | .exprCompare e => e.treeWord
  | .opCompare l op r => l.treeWord.join (.compare op) r.treeWord

def ExprCompare.treeWord : ExprCompare → TreeWord
  | .exprAddSub e => e.treeWord
  | .exprJustAdd l r => l.treeWord.join .add r.treeWord
  | .exprJustSub l r => l.treeWord.join .sub r.treeWord

def ExprAddSub.treeWord : ExprAddSub → TreeWord
  | .exprMulDivModEtc e => e.treeWord
  | .opMulDivMod l op r => l.treeWord.join (.mulDivMod op) r.treeWord
  | .opBitwise l op r => l.treeWord.join (.bitwise op) r.treeWord

def ExprMulDivModEtc.treeWord : ExprMulDivModEtc → TreeWord
  | .exprUnary e => e.treeWord
  | .numExpr n => .operand (.numExpr n)
  | .identName n => .operand (.identName n)
  | .currPc => .operand .currPc
  | .paren e => .operand (.paren e)

def ExprUnary.treeWord : ExprUnary → TreeWord
  | .exprBitInvert e => .pre .bitInvert e.treeWord
  | .exprNegate e => .pre .negate e.treeWord
  | .exprLogNot e => .pre .logNot e.treeWord

end

/-- The operand a tree stands for; a tree word has none that starts with a prefix operator. -/
def ExprMulDivModEtc.operand : ExprMulDivModEtc → Operand
  | .exprUnary _ => .currPc
  | .numExpr n => .num n
  | .identName n => .ident n
  | .currPc => .currPc
  | .paren e => .group e.tokens e.parenBalanced_tokens

/-- The tree starts with a prefix operator. -/
def ExprMulDivModEtc.IsUnary : ExprMulDivModEtc → Prop
  | .exprUnary _ => True
  | _ => False

/-- The tree word has the tokens and the word of the tree, and no prefix operator is left in an
    operand. -/
structure WordOf (tw : TreeWord) (ts : List Tok) (w : ExprWord) : Prop where
  tokens : TreeWord.tokens tw = ts
  word : tw.map ExprMulDivModEtc.operand = w
  plain : ∀ m ∈ tw.operands, ¬m.IsUnary

theorem TreeWord.tokens_join (w : TreeWord) (b : BinaryOp) (v : TreeWord) :
    tokens (w.join b v) = tokens w ++ b.tok :: tokens v := by
  induction w with
  | operand m => exact List.append_assoc ..
  | pre p w ih => exact congrArg (p.tok :: ·) ih
  | op m c w ih =>
    rw [InfixWord.join, tokens, tokens, ih]
    exact (List.append_assoc ..).symm

theorem WordOf.join {l r : TreeWord} {tl tr : List Tok} {wl wr : ExprWord} (b : BinaryOp)
    (hl : WordOf l tl wl) (hr : WordOf r tr wr) :
    WordOf (l.join b r) (tl ++ b.tok :: tr) (wl.join b wr) where
  tokens := by rw [TreeWord.tokens_join, hl.tokens, hr.tokens]
  word := by rw [InfixWord.map_join, hl.word, hr.word]
  plain := by
    rw [InfixWord.operands_join]
    exact List.forall_mem_append.mpr ⟨hl.plain, hr.plain⟩

theorem WordOf.pre {tw : TreeWord} {ts : List Tok} {w : ExprWord} (p : PrefixOp)
    (h : WordOf tw ts w) : WordOf (.pre p tw) (p.tok :: ts) (.pre p w) :=
  ⟨congrArg (p.tok :: ·) h.tokens, congrArg (InfixWord.pre p) h.word, h.plain⟩

theorem WordOf.operand {m : ExprMulDivModEtc} (h : ¬m.IsUnary) :
    WordOf (.operand m) m.tokens (.operand m.operand) :=
  ⟨rfl, rfl, List.forall_mem_singleton.mpr h⟩

mutual

theorem Expr.wordOf : (e : Expr) → WordOf e.treeWord e.tokens e.word
  | .exprLogical e => by
    rw [Expr.treeWord, Expr.tokens, Expr.word]
    exact e.wordOf
  | .opLogical l op r => by
    rw [Expr.treeWord, Expr.tokens, Expr.word]
    exact l.wordOf.join (.logical op) r.wordOf

theorem ExprLogical.wordOf : (e : ExprLogical) → WordOf e.treeWord e.tokens e.word
  | .exprCompare e => by
    rw [ExprLogical.treeWord, ExprLogical.tokens, ExprLogical.word]
    exact e.wordOf
  | .opCompare l op r => by
    rw [ExprLogical.treeWord, ExprLogical.tokens, ExprLogical.word]
    exact l.wordOf.join (.compare op) r.wordOf

theorem ExprCompare.wordOf : (e : ExprCompare) → WordOf e.treeWord e.tokens e.word
  | .exprAddSub e => by
    rw [ExprCompare.treeWord, ExprCompare.tokens, ExprCompare.word]
    exact e.wordOf
  | .exprJustAdd l r => by
    rw [ExprCompare.treeWord, ExprCompare.tokens, ExprCompare.word]
    exact l.wordOf.join .add r.wordOf
  | .exprJustSub l r => by
    rw [ExprCompare.treeWord, ExprCompare.tokens, ExprCompare.word]
    exact l.wordOf.join .sub r.wordOf

theorem ExprAddSub.wordOf : (e : ExprAddSub) → WordOf e.treeWord e.tokens e.word
  | .exprMulDivModEtc e => by
    rw [ExprAddSub.treeWord, ExprAddSub.tokens, ExprAddSub.word]
    exact e.wordOf
  | .opMulDivMod l op r => by
    rw [ExprAddSub.treeWord, ExprAddSub.tokens, ExprAddSub.word]
    exact l.wordOf.join (.mulDivMod op) r.wordOf
  | .opBitwise l op r => by
    rw [ExprAddSub.treeWord, ExprAddSub.tokens, ExprAddSub.word]
    exact l.wordOf.join (.bitwise op) r.wordOf

theorem ExprMulDivModEtc.wordOf : (e : ExprMulDivModEtc) → WordOf e.treeWord e.tokens e.word
  | .exprUnary e => by
    rw [ExprMulDivModEtc.treeWord, ExprMulDivModEtc.tokens, ExprMulDivModEtc.word]
    exact e.wordOf
  | .numExpr n => by
    rw [ExprMulDivModEtc.treeWord, ExprMulDivModEtc.word]
    exact .operand id
  | .identName n => by
    rw [ExprMulDivModEtc.treeWord, ExprMulDivModEtc.word]
    exact .operand id
  | .currPc => by
    rw [ExprMulDivModEtc.treeWord, ExprMulDivModEtc.word]
    exact .operand id
  | .paren e => by
    rw [ExprMulDivModEtc.treeWord, ExprMulDivModEtc.word]
    exact .operand id

theorem ExprUnary.wordOf : (e : ExprUnary) → WordOf e.treeWord e.tokens e.word
  | .exprBitInvert e => by
    rw [ExprUnary.treeWord, ExprUnary.tokens, ExprUnary.word]
    exact e.wordOf.pre .bitInvert
  | .exprNegate e => by
    rw [ExprUnary.treeWord, ExprUnary.tokens, ExprUnary.word]
    exact e.wordOf.pre .negate
  | .exprLogNot e => by
    rw [ExprUnary.treeWord, ExprUnary.tokens, ExprUnary.word]
    exact e.wordOf.pre .logNot

end

/-- **Where a prefix operator is not last there is another tree.** -/
theorem Expr.exists_other_of_word {e : Expr} (h : ¬ e.word.PrefixesLast) :
    ∃ e' : Expr, e' ≠ e ∧ e'.tokens = e.tokens := by
  obtain ⟨htokens, hword, -⟩ := e.wordOf
  have hlast : ¬ e.treeWord.PrefixesLast := by
    rwa [← InfixWord.prefixesLast_map ExprMulDivModEtc.operand, hword]
  have hne := TreeWord.greedy_ne_lazy hlast
  by_cases heq : TreeWord.lazy e.treeWord = e
  · exact ⟨_, fun hg => hne (hg.trans heq.symm), (TreeWord.tokens_greedy _).trans htokens⟩
  · exact ⟨_, heq, (TreeWord.lazy_spec _).1.trans htokens⟩

/-! ### Parentheses inside -/

/-- There is another tree of the rule with the same tokens. -/
def Other {τ : Type} (tokens : τ → List Tok) (e : τ) : Prop :=
  ∃ e', e' ≠ e ∧ tokens e' = tokens e

/-- Another tree in one place makes another tree. -/
theorem Other.lift {τ τ' : Type} {tokens : τ → List Tok} {tokens' : τ' → List Tok} {f : τ → τ'}
    (hinj : ∀ {x y}, f x = f y → x = y)
    (htokens : ∀ {x y}, tokens x = tokens y → tokens' (f x) = tokens' (f y)) {e : τ}
    (h : Other tokens e) : Other tokens' (f e) := by
  obtain ⟨e', hne, heq⟩ := h
  exact ⟨f e', fun hf => hne (hinj hf), htokens heq⟩

/-- The finding is in the word of the whole, or in one of the sides. -/
theorem exists_other_join {pending : Bool} {w v : ExprWord} (b : BinaryOp) {cl cr : Bool}
    {left right other : Prop} (hl : cl = false → ¬ WordClear pending w ∨ left)
    (hr : cr = false → ¬ WordClear (pending || w.hasPrefix) v ∨ right)
    (hleft : left → other) (hright : right → other)
    (h : (cl && (!(pending || w.hasPrefix) && cr)) = false) :
    ¬ WordClear pending (w.join b v) ∨ other := by
  by_cases hclear : WordClear pending (w.join b v)
  · right
    obtain ⟨hlast, hops⟩ := hclear
    obtain ⟨hw, hv⟩ := (InfixWord.prefixesLast_join ..).mp hlast
    have hpending : pending = false := by
      cases pending
      · rfl
      · simpa using hops rfl
    have hclean : w.hasPrefix = false := w.hasPrefix_eq_false.mpr hw
    subst hpending
    rw [hclean] at h hr
    cases hcl : cl with
    | false => exact hleft ((hl hcl).resolve_left fun hno =>
        hno ⟨hw.prefixesLast, fun h => Bool.noConfusion h⟩)
    | true =>
      rw [hcl] at h
      exact hright ((hr (by simpa using h)).resolve_left fun hno =>
        hno ⟨hv, fun h => Bool.noConfusion h⟩)
  · exact .inl hclear

/-- The finding is in the operand of a prefix operator. -/
theorem not_wordClear_pre {pending : Bool} {w : ExprWord} (p : PrefixOp)
    (h : ¬ WordClear true w) : ¬ WordClear pending (.pre p w) := by
  intro hclear
  have hops : w.ops = [] := hclear.1
  exact h ⟨InfixWord.prefixesLast_of_ops_eq_nil hops, fun _ => hops⟩

mutual

theorem Expr.exists_other (pending : Bool) : (e : Expr) → e.clear pending = false →
    ¬ WordClear pending e.word ∨ Other Expr.tokens e
  | .exprLogical e, h => by
    rw [Expr.clear] at h
    rw [Expr.word]
    refine (e.exists_other pending h).imp_right ?_
    exact .lift (f := Expr.exprLogical) (fun h => by injection h) fun h => by
      rw [Expr.tokens, Expr.tokens, h]
  | .opLogical l op r, h => by
    rw [Expr.clear] at h
    rw [Expr.word]
    refine exists_other_join _ (l.exists_other pending) (r.exists_other _) ?_ ?_ h
    · exact .lift (f := fun l => Expr.opLogical l op r) (fun h => by injection h)
        fun hl => by simp only [Expr.tokens, hl]
    · exact .lift (f := fun r => Expr.opLogical l op r) (fun h => by injection h)
        fun hr => by simp only [Expr.tokens, hr]

theorem ExprLogical.exists_other (pending : Bool) : (e : ExprLogical) → e.clear pending = false →
    ¬ WordClear pending e.word ∨ Other ExprLogical.tokens e
  | .exprCompare e, h => by
    rw [ExprLogical.clear] at h
    rw [ExprLogical.word]
    refine (e.exists_other pending h).imp_right ?_
    exact .lift (f := ExprLogical.exprCompare) (fun h => by injection h) fun h => by
      rw [ExprLogical.tokens, ExprLogical.tokens, h]
  | .opCompare l op r, h => by
    rw [ExprLogical.clear] at h
    rw [ExprLogical.word]
    refine exists_other_join _ (l.exists_other pending) (r.exists_other _) ?_ ?_ h
    · exact .lift (f := fun l => ExprLogical.opCompare l op r) (fun h => by injection h)
        fun hl => by simp only [ExprLogical.tokens, hl]
    · exact .lift (f := fun r => ExprLogical.opCompare l op r) (fun h => by injection h)
        fun hr => by simp only [ExprLogical.tokens, hr]

theorem ExprCompare.exists_other (pending : Bool) : (e : ExprCompare) → e.clear pending = false →
    ¬ WordClear pending e.word ∨ Other ExprCompare.tokens e
  | .exprAddSub e, h => by
    rw [ExprCompare.clear] at h
    rw [ExprCompare.word]
    refine (e.exists_other pending h).imp_right ?_
    exact .lift (f := ExprCompare.exprAddSub) (fun h => by injection h) fun h => by
      rw [ExprCompare.tokens, ExprCompare.tokens, h]
  | .exprJustAdd l r, h => by
    rw [ExprCompare.clear] at h
    rw [ExprCompare.word]
    refine exists_other_join _ (l.exists_other pending) (r.exists_other _) ?_ ?_ h
    · exact .lift (f := fun l => ExprCompare.exprJustAdd l r) (fun h => by injection h)
        fun hl => by simp only [ExprCompare.tokens, hl]
    · exact .lift (f := fun r => ExprCompare.exprJustAdd l r) (fun h => by injection h)
        fun hr => by simp only [ExprCompare.tokens, hr]
  | .exprJustSub l r, h => by
    rw [ExprCompare.clear] at h
    rw [ExprCompare.word]
    refine exists_other_join _ (l.exists_other pending) (r.exists_other _) ?_ ?_ h
    · exact .lift (f := fun l => ExprCompare.exprJustSub l r) (fun h => by injection h)
        fun hl => by simp only [ExprCompare.tokens, hl]
    · exact .lift (f := fun r => ExprCompare.exprJustSub l r) (fun h => by injection h)
        fun hr => by simp only [ExprCompare.tokens, hr]

theorem ExprAddSub.exists_other (pending : Bool) : (e : ExprAddSub) → e.clear pending = false →
    ¬ WordClear pending e.word ∨ Other ExprAddSub.tokens e
  | .exprMulDivModEtc e, h => by
    rw [ExprAddSub.clear] at h
    rw [ExprAddSub.word]
    refine (e.exists_other pending h).imp_right ?_
    exact .lift (f := ExprAddSub.exprMulDivModEtc) (fun h => by injection h) fun h => by
      rw [ExprAddSub.tokens, ExprAddSub.tokens, h]
  | .opMulDivMod l op r, h => by
    rw [ExprAddSub.clear] at h
    rw [ExprAddSub.word]
    refine exists_other_join _ (l.exists_other pending) (r.exists_other _) ?_ ?_ h
    · exact .lift (f := fun l => ExprAddSub.opMulDivMod l op r) (fun h => by injection h)
        fun hl => by simp only [ExprAddSub.tokens, hl]
    · exact .lift (f := fun r => ExprAddSub.opMulDivMod l op r) (fun h => by injection h)
        fun hr => by simp only [ExprAddSub.tokens, hr]
  | .opBitwise l op r, h => by
    rw [ExprAddSub.clear] at h
    rw [ExprAddSub.word]
    refine exists_other_join _ (l.exists_other pending) (r.exists_other _) ?_ ?_ h
    · exact .lift (f := fun l => ExprAddSub.opBitwise l op r) (fun h => by injection h)
        fun hl => by simp only [ExprAddSub.tokens, hl]
    · exact .lift (f := fun r => ExprAddSub.opBitwise l op r) (fun h => by injection h)
        fun hr => by simp only [ExprAddSub.tokens, hr]

theorem ExprMulDivModEtc.exists_other (pending : Bool) : (e : ExprMulDivModEtc) →
    e.clear = false → ¬ WordClear pending e.word ∨ Other ExprMulDivModEtc.tokens e
  | .exprUnary e, h => by
    rw [ExprMulDivModEtc.clear] at h
    rw [ExprMulDivModEtc.word]
    refine (e.exists_other pending h).imp_right ?_
    exact .lift (f := ExprMulDivModEtc.exprUnary) (fun h => by injection h) fun h => by
      rw [ExprMulDivModEtc.tokens, ExprMulDivModEtc.tokens, h]
  | .numExpr n, h => by
    rw [ExprMulDivModEtc.clear] at h
    cases h
  | .identName n, h => by
    rw [ExprMulDivModEtc.clear] at h
    cases h
  | .currPc, h => by
    rw [ExprMulDivModEtc.clear] at h
    cases h
  | .paren e, h => by
    rw [ExprMulDivModEtc.clear] at h
    have hother : Other Expr.tokens e := by
      rcases e.exists_other false h with hword | hother
      · exact Expr.exists_other_of_word fun hlast =>
          hword ⟨hlast, fun h => Bool.noConfusion h⟩
      · exact hother
    exact .inr (hother.lift (f := ExprMulDivModEtc.paren) (fun h => by injection h) fun h => by
      rw [ExprMulDivModEtc.tokens, ExprMulDivModEtc.tokens, h])

theorem ExprUnary.exists_other (pending : Bool) : (e : ExprUnary) → e.clear = false →
    ¬ WordClear pending e.word ∨ Other ExprUnary.tokens e
  | .exprBitInvert e, h => by
    rw [ExprUnary.clear] at h
    rw [ExprUnary.word]
    refine (e.exists_other true h).imp (not_wordClear_pre _) ?_
    exact .lift (f := ExprUnary.exprBitInvert) (fun h => by injection h) fun h => by
      rw [ExprUnary.tokens, ExprUnary.tokens, h]
  | .exprNegate e, h => by
    rw [ExprUnary.clear] at h
    rw [ExprUnary.word]
    refine (e.exists_other true h).imp (not_wordClear_pre _) ?_
    exact .lift (f := ExprUnary.exprNegate) (fun h => by injection h) fun h => by
      rw [ExprUnary.tokens, ExprUnary.tokens, h]
  | .exprLogNot e, h => by
    rw [ExprUnary.clear] at h
    rw [ExprUnary.word]
    refine (e.exists_other true h).imp (not_wordClear_pre _) ?_
    exact .lift (f := ExprUnary.exprLogNot) (fun h => by injection h) fun h => by
      rw [ExprUnary.tokens, ExprUnary.tokens, h]

end

/-- **An expression has one parse tree if and only if no infix operator stands to the right of
    a prefix operator** in the same parentheses. -/
theorem Expr.one_parse_iff (e : Expr) :
    (∀ e' : Expr, e'.tokens = e.tokens → e' = e) ↔ PrefixesLast e.tokens := by
  rw [prefixesLast_tokens]
  constructor
  · intro hone
    cases hclear : e.clear false with
    | true => rfl
    | false =>
      obtain ⟨e', hne, htokens⟩ : Other Expr.tokens e := by
        rcases e.exists_other false hclear with hword | hother
        · exact exists_other_of_word fun hlast => hword ⟨hlast, fun h => Bool.noConfusion h⟩
        · exact hother
      exact absurd (hone e' htokens) hne
  · intro hclear e' htokens
    have hclear' : e'.clear false = true := by
      rw [← prefixesLast_tokens, htokens, prefixesLast_tokens]
      exact hclear
    exact e'.eq_of_word e hclear' hclear (word_eq_of_tokens_eq htokens)

/-- `- 1 + 2`. -/
def minusOnePlusTwo : TreeWord :=
  .pre .negate (.op (.numExpr (.decNum ⟨['1'], by decide⟩)) .add
    (.operand (.numExpr (.decNum ⟨['2'], by decide⟩))))

/-- `- 1 + 2` can be -3 and 1. -/
theorem two_meanings :
    (TreeWord.greedy minusOnePlusTwo).tokens = (TreeWord.lazy minusOnePlusTwo).tokens ∧
      (visitExpr (TreeWord.greedy minusOnePlusTwo)).run (.init false) =
        pushing (.init false) (.ok (-3)) ∧
      (visitExpr (TreeWord.lazy minusOnePlusTwo)).run (.init false) =
        pushing (.init false) (.ok 1) ∧
      (visitExpr (TreeWord.greedy minusOnePlusTwo)).run (.init false) ≠
        (visitExpr (TreeWord.lazy minusOnePlusTwo)).run (.init false) := by
  have hgreedy : (visitExpr (TreeWord.greedy minusOnePlusTwo)).run (.init false) =
      pushing (.init false) (.ok (-3)) := by
    rw [visitExpr_run, pushing_inj]
    decide
  have hlazy : (visitExpr (TreeWord.lazy minusOnePlusTwo)).run (.init false) =
      pushing (.init false) (.ok 1) := by
    rw [visitExpr_run, pushing_inj]
    decide
  refine ⟨?_, hgreedy, hlazy, ?_⟩
  · rw [TreeWord.tokens_greedy, (TreeWord.lazy_spec minusOnePlusTwo).1]
  · rw [hgreedy, hlazy, Ne, pushing_inj]
    decide

end Frost32.Asm
