import Frost32.Asm.ExprValues

namespace Frost32.Asm

/-!
# Which prefix operators have one meaning

Prefix operators between labels: where they do not commute with the infix operator after them,
or the infix operator before them does not, two groupings have different values.

* `withLabels` — a state of pass 1 in which labels have given addresses.
* `exists_telling`, `exists_telling_triple` — operands that tell the groupings apart.
* `prefix_meanings` — **expressions have one value where operators commute, and with two or three
  labels nowhere else.**
-/

/-! ### Different values -/

/-- The outermost scope with these labels. -/
def labelTable : List (String × BitVec 64) → SymbolTable
  | [] => .init
  | (name, a) :: labels =>
    (labelTable labels).insertOrAssign 1 { name := name, addr := a, foundAsLabel := true }

/-- In pass 1, in the outermost scope. -/
def withLabels (labels : List (String × BitVec 64)) : Assembler :=
  { Assembler.init false with symTbl := labelTable labels, pass := 1, currScopeNode := 1 }

theorem lookup_cons_of_ne {name name' : String} (h : name ≠ name') (a : BitVec 64)
    (labels : List (String × BitVec 64)) :
    ((name', a) :: labels).lookup name = labels.lookup name := by
  rw [List.lookup_cons, beq_eq_false_iff_ne.mpr h]

theorem table_labelTable (labels : List (String × BitVec 64)) (name : String) :
    ((labelTable labels).node 1).table name = (labels.lookup name).map fun a =>
      { name := name, addr := a, foundAsLabel := true } := by
  induction labels with
  | nil => rfl
  | cons l labels ih =>
    obtain ⟨n, a⟩ := l
    rw [labelTable, SymbolTable.table_insertOrAssign, ih]
    by_cases hn : name = n
    · simp [hn]
    · rw [if_neg fun h => hn h.2, lookup_cons_of_ne hn]

/-- Each label has its address. -/
theorem eval_withLabels {labels : List (String × BitVec 64)} {n : IdentName} {a : BitVec 64}
    (h : labels.lookup n.text = some a) : n.eval (withLabels labels).env = .ok a := by
  have htable := table_labelTable labels n.text
  rw [h] at htable
  have hfind : (labelTable labels).find 1 n.text = some 1 := by
    rw [SymbolTable.find, SymbolTable.findLoop, if_neg (by decide), htable]
    rfl
  show SymbolTable.addrFrom (labelTable labels) 1 n.text = _
  rw [SymbolTable.addrFrom, hfind]
  simp only [SymbolTable.deref, htable, Option.map_some, Option.getD_some, if_true]

section Groupings

variable {env : Env}

theorem PrefixOp.eval_apply (p : PrefixOp) (e : Expr) :
    (p.apply e).eval env = e.eval env >>= fun x => .ok (p.value x) := by
  cases p <;> rw [apply, ExprMulDivModEtc.eval, ExprUnary.eval] <;> rfl

theorem ExprMulDivModEtc.eval_toAddSub (m : ExprMulDivModEtc) :
    m.toAddSub.eval env = m.eval env := by
  rw [toAddSub, ExprAddSub.eval]

theorem ExprMulDivModEtc.eval_toLogical (m : ExprMulDivModEtc) :
    m.toLogical.eval env = m.eval env := by
  rw [toLogical, ExprLogical.eval, ExprCompare.eval, m.eval_toAddSub]

theorem ExprMulDivModEtc.eval_toExpr (m : ExprMulDivModEtc) : m.toExpr.eval env = m.eval env := by
  rw [toExpr, Expr.eval, m.eval_toLogical]

/-- A term, an operator and another term. -/
theorem Expr.eval_insertFirst (m n : ExprMulDivModEtc) (b : BinaryOp) :
    (n.toExpr.insertFirst m b).eval env =
      m.eval env >>= fun x => n.eval env >>= fun y => b.value env x y := by
  cases b with
  | logical op =>
    show (Expr.opLogical m.toExpr op n.toLogical).eval env = _
    rw [Expr.eval, m.eval_toExpr, n.eval_toLogical]
    rfl
  | compare op =>
    show (Expr.exprLogical (.opCompare m.toLogical op (.exprAddSub n.toAddSub))).eval env = _
    rw [Expr.eval, ExprLogical.eval, m.eval_toLogical, ExprCompare.eval, n.eval_toAddSub]
    rfl
  | add =>
    show (Expr.exprLogical (.exprCompare (.exprJustAdd m.toAddSub (.exprAddSub n.toAddSub)))).eval
      env = _
    rw [Expr.eval, ExprLogical.eval, ExprCompare.eval, m.eval_toAddSub, ExprCompare.eval,
      n.eval_toAddSub]
    rfl
  | sub =>
    show (Expr.exprLogical (.exprCompare (.exprJustSub m.toAddSub (.exprAddSub n.toAddSub)))).eval
      env = _
    rw [Expr.eval, ExprLogical.eval, ExprCompare.eval, m.eval_toAddSub, ExprCompare.eval,
      n.eval_toAddSub]
    rfl
  | mulDivMod op =>
    show (Expr.exprLogical (.exprCompare (.exprAddSub (.opMulDivMod m.toAddSub op n)))).eval env = _
    rw [Expr.eval, ExprLogical.eval, ExprCompare.eval, ExprAddSub.eval, m.eval_toAddSub]
    rfl
  | bitwise op =>
    show (Expr.exprLogical (.exprCompare (.exprAddSub (.opBitwise m.toAddSub op n)))).eval env = _
    rw [Expr.eval, ExprLogical.eval, ExprCompare.eval, ExprAddSub.eval, m.eval_toAddSub]
    rfl

/-- Three terms with two operators of the tightest rule. -/
theorem Expr.eval_insertFirst_insertFirst (l m n : ExprMulDivModEtc) {c b : BinaryOp}
    (hc : c.level = 3) (hb : b.level = 3) :
    ((n.toExpr.insertFirst m b).insertFirst l c).eval env =
      (l.eval env >>= fun z => m.eval env >>= fun x => c.value env z x) >>= fun v =>
        n.eval env >>= fun y => b.value env v y := by
  have htree : ∀ t : ExprAddSub,
      (Expr.exprLogical (.exprCompare (.exprAddSub t))).eval env = t.eval env := by
    intro t
    rw [Expr.eval, ExprLogical.eval, ExprCompare.eval]
  cases b with
  | mulDivMod op =>
    cases c with
    | mulDivMod op' =>
      refine (htree (.opMulDivMod (.opMulDivMod l.toAddSub op' m) op n)).trans ?_
      rw [ExprAddSub.eval, ExprAddSub.eval, l.eval_toAddSub]
      rfl
    | bitwise op' =>
      refine (htree (.opMulDivMod (.opBitwise l.toAddSub op' m) op n)).trans ?_
      rw [ExprAddSub.eval, ExprAddSub.eval, l.eval_toAddSub]
      rfl
    | _ => cases hc
  | bitwise op =>
    cases c with
    | mulDivMod op' =>
      refine (htree (.opBitwise (.opMulDivMod l.toAddSub op' m) op n)).trans ?_
      rw [ExprAddSub.eval, ExprAddSub.eval, l.eval_toAddSub]
      rfl
    | bitwise op' =>
      refine (htree (.opBitwise (.opBitwise l.toAddSub op' m) op n)).trans ?_
      rw [ExprAddSub.eval, ExprAddSub.eval, l.eval_toAddSub]
      rfl
    | _ => cases hc
  | _ => cases hb

/-- Of the environment the operators see the pass only. -/
theorem BinaryOp.value_congr {env' : Env} (h : env.pass = env'.pass) (b : BinaryOp) :
    b.value env = b.value env' := by
  funext x y
  cases b with
  | mulDivMod op => cases op <;> simp [value, opMulDivModValue, h]
  | _ => rfl

/-- `p x b y` with the prefix operator applied to the outcome, and to the left operand. -/
def wholeValue (env : Env) (p : PrefixOp) (b : BinaryOp) (x y : BitVec 64) :
    Except AsmError (BitVec 64) := p.value <$> b.value env x y

def firstValue (env : Env) (p : PrefixOp) (b : BinaryOp) (x y : BitVec 64) :
    Except AsmError (BitVec 64) := b.value env (p.value x) y

/-- Operands that tell the groupings apart. -/
def tellingOperands : List (BitVec 64 × BitVec 64) :=
  [(0, 0), (0, 1), (1, 0), (1, 1), (0, 2), (1, 2), (BitVec.intMin 64, 2), (BitVec.intMin 64, 3)]

theorem exists_telling (p : PrefixOp) (b : BinaryOp) (h : p.commutes b = false) :
    ∃ q ∈ tellingOperands, wholeValue (withLabels []).env p b q.1 q.2 ≠
      firstValue (withLabels []).env p b q.1 q.2 := by
  revert h
  cases b with
  | add | sub => cases p <;> decide +kernel
  | logical op | compare op | mulDivMod op | bitwise op =>
    cases p <;> cases op <;> decide +kernel

/-- `z c p x b y` with `b` applied to the last two operands, and to all that is before it. -/
def rightValue (env : Env) (c : BinaryOp) (p : PrefixOp) (b : BinaryOp) (z x y : BitVec 64) :
    Except AsmError (BitVec 64) := wholeValue env p b x y >>= c.value env z

def leftValue (env : Env) (c : BinaryOp) (p : PrefixOp) (b : BinaryOp) (z x y : BitVec 64) :
    Except AsmError (BitVec 64) := c.value env z (p.value x) >>= fun v => b.value env v y

def tellingTriples : List (BitVec 64 × BitVec 64 × BitVec 64) :=
  [(1, 1, 1), (1, 1, 2), (1, 1, 3), (3, 1, 2), (1, 0, 1), (-1, -1, 2), (4, -2, 1)]

theorem exists_telling_triple (c : BinaryOp) {p : PrefixOp} {b : BinaryOp}
    (hp : p.commutes b = true) (hc : c.commutes b = false) :
    ∃ q ∈ tellingTriples, rightValue (withLabels []).env c p b q.1 q.2.1 q.2.2 ≠
      leftValue (withLabels []).env c p b q.1 q.2.1 q.2.2 := by
  revert hp hc
  cases b with
  | mulDivMod op | bitwise op =>
    cases c with
    | mulDivMod op' | bitwise op' => cases p <;> cases op <;> cases op' <;> decide +kernel
    -- operators of the looser rules commute with what follows
    | _ => exact fun _ hc => by cases hc
  | _ => exact fun hp => by cases p <;> cases hp

end Groupings

/-! ### Labels with a prefix operator between them -/

/-- `p x b y`. -/
def prefixedPair (p : PrefixOp) (b : BinaryOp) (x y : IdentName) : TreeWord :=
  .pre p (.op (.identName x) b (.operand (.identName y)))

/-- `z c p x b y`. -/
def prefixedTriple (c : BinaryOp) (p : PrefixOp) (b : BinaryOp) (z x y : IdentName) : TreeWord :=
  .op (.identName z) c (prefixedPair p b x y)

section Labels

variable (c : BinaryOp) (p : PrefixOp) (b : BinaryOp) (z x y : IdentName)

/-- The scan of a word of labels. -/
theorem TreeWord.opsCommute_iff {w : TreeWord}
    (h : ∀ m ∈ w.operands, ∃ n, m = ExprMulDivModEtc.identName n) :
    OpsCommute (tokens w) ↔
      w.commutingScan PrefixOp.commutes BinaryOp.commutes none (fun _ => true) = true := by
  have hover : ∀ m ∈ w.operands, m.ScannedOver := by
    intro m hm
    obtain ⟨n, rfl⟩ := h m hm
    exact ExprMulDivModEtc.scannedOver _ id
  have hscan : w.operands.all ExprMulDivModEtc.scan = true := by
    rw [List.all_eq_true]
    intro m hm
    obtain ⟨n, rfl⟩ := h m hm
    rfl
  obtain ⟨free', htokens⟩ := opsCommute_tokens hover none (fun _ => true) [] []
  rw [hscan, List.append_nil, opsCommute, Bool.and_true, Bool.true_and] at htokens
  rw [OpsCommute, htokens]

theorem opsCommute_prefixedPair :
    OpsCommute (TreeWord.tokens (prefixedPair p b x y)) ↔ p.commutes b = true := by
  rw [TreeWord.opsCommute_iff (by simp [prefixedPair, InfixWord.operands])]
  simp [prefixedPair, InfixWord.commutingScan]

theorem opsCommute_prefixedTriple : OpsCommute (TreeWord.tokens (prefixedTriple c p b z x y)) ↔
    p.commutes b = true ∧ c.commutes b = true := by
  rw [TreeWord.opsCommute_iff (by simp [prefixedTriple, prefixedPair, InfixWord.operands])]
  simp [prefixedTriple, prefixedPair, InfixWord.commutingScan]

variable {env : Env} {u v w : BitVec 64} {c p b z x y}

theorem eval_greedy_prefixedPair (hx : x.eval env = .ok u) (hy : y.eval env = .ok v) :
    (TreeWord.greedy (prefixedPair p b x y)).eval env = wholeValue env p b u v := by
  show ((p.apply ((ExprMulDivModEtc.identName y).toExpr.insertFirst (.identName x) b)).toExpr).eval
    env = _
  rw [ExprMulDivModEtc.eval_toExpr, p.eval_apply, Expr.eval_insertFirst, ExprMulDivModEtc.eval,
    ExprMulDivModEtc.eval, hx, hy]
  exact bind_pure_comp p.value (b.value env u v)

theorem lazy_prefixedPair : TreeWord.lazy (prefixedPair p b x y) =
    (ExprMulDivModEtc.identName y).toExpr.insertFirst
      (p.apply (ExprMulDivModEtc.identName x).toExpr) b := by
  cases b <;> rfl

theorem eval_apply_label (hx : x.eval env = .ok u) :
    (p.apply (ExprMulDivModEtc.identName x).toExpr).eval env = .ok (p.value u) := by
  rw [p.eval_apply, ExprMulDivModEtc.eval_toExpr, ExprMulDivModEtc.eval, hx]
  rfl

theorem eval_lazy_prefixedPair (hx : x.eval env = .ok u) (hy : y.eval env = .ok v) :
    (TreeWord.lazy (prefixedPair p b x y)).eval env = firstValue env p b u v := by
  rw [lazy_prefixedPair, Expr.eval_insertFirst, eval_apply_label hx, ExprMulDivModEtc.eval, hy]
  rfl

theorem eval_greedy_prefixedTriple (hz : z.eval env = .ok w) (hx : x.eval env = .ok u)
    (hy : y.eval env = .ok v) :
    (TreeWord.greedy (prefixedTriple c p b z x y)).eval env = rightValue env c p b w u v := by
  show (((p.apply ((ExprMulDivModEtc.identName y).toExpr.insertFirst (.identName x) b)).toExpr)
    |>.insertFirst (.identName z) c).eval env = _
  rw [Expr.eval_insertFirst, ← ExprMulDivModEtc.eval_toExpr (p.apply _), ExprMulDivModEtc.eval, hz]
  have hpair := eval_greedy_prefixedPair (p := p) (b := b) hx hy
  exact congrArg (· >>= c.value env w) hpair

theorem eval_lazy_prefixedTriple (hc : c.level = 3) (hb : b.level = 3) (hz : z.eval env = .ok w)
    (hx : x.eval env = .ok u) (hy : y.eval env = .ok v) :
    (TreeWord.lazy (prefixedTriple c p b z x y)).eval env = leftValue env c p b w u v := by
  show ((TreeWord.lazy (prefixedPair p b x y)).insertFirst (.identName z) c).eval env = _
  rw [lazy_prefixedPair, Expr.eval_insertFirst_insertFirst _ _ _ hc hb, eval_apply_label hx,
    ExprMulDivModEtc.eval, ExprMulDivModEtc.eval, hz, hy]
  rfl

theorem oneValue_prefixedPair (p : PrefixOp) (b : BinaryOp) {x y : IdentName}
    (h : x.text ≠ y.text) :
    OneValue (TreeWord.tokens (prefixedPair p b x y)) ↔ p.commutes b = true := by
  constructor
  · intro hone
    by_contra hno
    obtain ⟨⟨u, v⟩, -, htelling⟩ := exists_telling p b (Bool.not_eq_true _ ▸ hno)
    let s := withLabels [(x.text, u), (y.text, v)]
    have hx : x.eval s.env = .ok u := eval_withLabels List.lookup_cons_self
    have hy : y.eval s.env = .ok v :=
      eval_withLabels ((lookup_cons_of_ne h.symm _ _).trans List.lookup_cons_self)
    have hpass : (withLabels []).env.pass = s.env.pass := rfl
    -- the tree in which `p` takes all, and that in which it takes `x` only
    have hsame := hone _ _ (TreeWord.tokens_greedy _) (TreeWord.lazy_spec _).1 s
    rw [visitExpr_run, visitExpr_run, pushing_inj, eval_greedy_prefixedPair hx hy,
      eval_lazy_prefixedPair hx hy] at hsame
    rw [wholeValue, firstValue, BinaryOp.value_congr hpass] at htelling
    exact htelling hsame
  · exact fun hp => oneValue_of_opsCommute ((opsCommute_prefixedPair p b x y).mpr hp)

theorem oneValue_prefixedTriple (c : BinaryOp) {p : PrefixOp} {b : BinaryOp}
    (hp : p.commutes b = true) {z x y : IdentName} (h : [z.text, x.text, y.text].Nodup) :
    OneValue (TreeWord.tokens (prefixedTriple c p b z x y)) ↔ c.commutes b = true := by
  constructor
  · intro hone
    by_contra hno
    have hc : c.level = 3 := BinaryOp.level_of_not_commutes (Bool.not_eq_true _ ▸ hno)
    obtain ⟨⟨w, u, v⟩, -, htelling⟩ := exists_telling_triple c hp (Bool.not_eq_true _ ▸ hno)
    simp only [List.nodup_cons, List.mem_cons, List.not_mem_nil, or_false, not_or] at h
    obtain ⟨⟨hzx, hzy⟩, hxy, -⟩ := h
    let s := withLabels [(z.text, w), (x.text, u), (y.text, v)]
    have hz : z.eval s.env = .ok w := eval_withLabels List.lookup_cons_self
    have hx : x.eval s.env = .ok u :=
      eval_withLabels ((lookup_cons_of_ne (Ne.symm hzx) _ _).trans List.lookup_cons_self)
    have hy : y.eval s.env = .ok v := by
      apply eval_withLabels
      rw [lookup_cons_of_ne (Ne.symm hzy), lookup_cons_of_ne (Ne.symm hxy)]
      exact List.lookup_cons_self
    have hpass : (withLabels []).env.pass = s.env.pass := rfl
    -- `p` commutes with `b`, so that `c` alone makes the difference
    have hsame := hone _ _ (TreeWord.tokens_greedy _) (TreeWord.lazy_spec _).1 s
    rw [visitExpr_run, visitExpr_run, pushing_inj, eval_greedy_prefixedTriple hz hx hy,
      eval_lazy_prefixedTriple hc (PrefixOp.level_of_commutes hp) hz hx hy] at hsame
    rw [rightValue, leftValue, wholeValue, BinaryOp.value_congr hpass,
      BinaryOp.value_congr hpass] at htelling
    exact htelling hsame
  · exact fun hc => oneValue_of_opsCommute ((opsCommute_prefixedTriple c p b z x y).mpr ⟨hp, hc⟩)

end Labels

/-- **Where prefix operators have one meaning.**  Tokens in which every prefix operator, and
    every infix operator right before one, commutes with the infix operators that follow have
    one value in every state.  This is sharp: a prefix operator between labels, and then an
    infix operator before it, that does not commute with the next infix operator gives two
    values. -/
theorem prefix_meanings :
    (∀ ts : List Tok, OpsCommute ts → OneValue ts) ∧
      (∀ (p : PrefixOp) (b : BinaryOp) (x y : IdentName), x.text ≠ y.text →
        (OneValue (p.tok :: (x.tokens ++ b.tok :: y.tokens)) ↔ p.commutes b = true)) ∧
      (∀ (c : BinaryOp) (p : PrefixOp) (b : BinaryOp) (z x y : IdentName),
        [z.text, x.text, y.text].Nodup → p.commutes b = true →
          (OneValue (z.tokens ++ c.tok :: p.tok :: (x.tokens ++ b.tok :: y.tokens)) ↔
            c.commutes b = true)) := by
  refine ⟨fun ts => oneValue_of_opsCommute, ?_, ?_⟩
  · intro p b x y h
    rw [← oneValue_prefixedPair p b h, prefixedPair]
    simp only [TreeWord.tokens, ExprMulDivModEtc.tokens, List.append_assoc, List.singleton_append]
  · intro c p b z x y h hp
    rw [← oneValue_prefixedTriple c hp h, prefixedTriple, prefixedPair]
    simp only [TreeWord.tokens, ExprMulDivModEtc.tokens, List.append_assoc, List.singleton_append]

/-- `x + -y * z` has one value, `-x + y` and `x / -y * z` do not. -/
theorem prefix_meanings_threeLabels :
    OneValue [.ident "x", .plus, .minus, .ident "y", .opMulDivMod .mul, .ident "z"] ∧
      ¬OneValue [.minus, .ident "x", .plus, .ident "y"] ∧
      ¬OneValue [.ident "x", .opMulDivMod .div, .minus, .ident "y", .opMulDivMod .mul,
        .ident "z"] := by
  have hpair := prefix_meanings.2.1 .negate .add (.ident "x") (.ident "y") (by decide)
  have htriple := prefix_meanings.2.2 (.mulDivMod .div) .negate (.mulDivMod .mul) (.ident "x")
    (.ident "y") (.ident "z") (by decide) rfl
  exact ⟨prefix_meanings.1 _ (by decide), fun h => absurd (hpair.mp h) (by decide),
    fun h => absurd (htriple.mp h) (by decide)⟩

end Frost32.Asm
