import Frost32.Asm.ExprRegroup
import Frost32.Lib.Precedence

namespace Frost32.Asm

open InfixWord (Precedence)

/-!
# Ambiguous expressions with one value

A prefix operator can take the operand to its right alone or with what follows.  Both give the
same value if the infix operators that follow commute with it.

* `PrefixOp.commutes`, `BinaryOp.commutes` — which operators do: `-` with `*` and `<<`, `~` with
  `^` and `>>>`.
* `OpsCommute` — a scan of the tokens for an infix operator that does not commute with a prefix
  operator before it.
* `exprPrecedence` — the binding powers of the grammar's operators; `Expr.eval_eq_value`, trees
  in whose words operators commute have the values of these words.
* `TreeWord.opsCommute_tokens` — the scan of the tokens is that of the word and of what stands in
  parentheses.
* `oneValue_of_opsCommute` — **tokens in which operators commute have one value.**
-/

/-! ### Operators that commute -/

/-- `p (x b y)` is `(p x) b y`. -/
def PrefixOp.commutes : PrefixOp → BinaryOp → Bool
  | negate, .mulDivMod .mul | negate, .bitwise .shl => true
  | bitInvert, .bitwise .xor | bitInvert, .bitwise .sar => true
  | _, _ => false

/-- `z b (x c y)` is `(z b x) c y`, or `b` is of a looser rule and `c` is in its right operand
    always. -/
def BinaryOp.commutes : BinaryOp → BinaryOp → Bool
  | mulDivMod .mul, mulDivMod .mul | mulDivMod .mul, bitwise .shl => true
  | bitwise .xor, bitwise .xor => true
  | b, _ => b.level < 3

/-- An operator that does not commute is one of the tightest rule. -/
theorem BinaryOp.level_of_not_commutes {b c : BinaryOp} (h : b.commutes c = false) :
    b.level = 3 := by
  cases b with
  | mulDivMod op | bitwise op => rfl
  | _ => cases h

def Tok.prefixOp? : Tok → Option PrefixOp
  | .bitInvert => some .bitInvert
  | .minus => some .negate
  | .exclamPoint => some .logNot
  | _ => none

def Tok.binaryOp? : Tok → Option BinaryOp
  | .opLogical op => some (.logical op)
  | .opCompare op => some (.compare op)
  | .plus => some .add
  | .minus => some .sub
  | .opMulDivMod op => some (.mulDivMod op)
  | .opBitwise op => some (.bitwise op)
  | _ => none

/-- Go through the tokens of an expression; `operand` says that an operand is due, `left` is the
    infix operator right before it, `free` says which infix operators commute with what is to
    the left since the innermost open parenthesis, and `outer` the same for the parentheses
    around it. -/
def opsCommute : (operand : Bool) → (left : Option BinaryOp) → (free : BinaryOp → Bool) →
    (outer : List (BinaryOp → Bool)) → List Tok → Bool
  | _, _, _, _, [] => true
  | true, left, free, outer, t :: ts =>
    match t.prefixOp? with
    | some p =>
      -- `left` takes the outcome of `p`, so what `p` may take in it may take in, too
      opsCommute true none (fun c => free c && p.commutes c && left.all (·.commutes c)) outer ts
    | none =>
      if t = .lParen then opsCommute true none (fun _ => true) (free :: outer) ts
      else opsCommute false none free outer ts
  | false, _, free, outer, t :: ts =>
    if t = .rParen then
      match outer with
      | f :: outer => opsCommute false none f outer ts
      | [] => false
    else
      match t.binaryOp? with
      | some b => free b && opsCommute true (some b) free outer ts
      | none => false

/-- Every prefix operator, and every infix operator right before one, commutes with the infix
    operators that follow within its parentheses. -/
def OpsCommute (ts : List Tok) : Prop := opsCommute true none (fun _ => true) [] ts = true

instance (ts : List Tok) : Decidable (OpsCommute ts) := inferInstanceAs (Decidable (_ = true))

/-- All trees of the tokens are evaluated alike in every state. -/
def OneValue (ts : List Tok) : Prop :=
  ∀ e e' : Expr, e.tokens = ts → e'.tokens = ts →
    ∀ s : Assembler, (visitExpr e).run s = (visitExpr e').run s

/-! ### Values of words -/

def PrefixOp.value : PrefixOp → BitVec 64 → BitVec 64
  | bitInvert, x => ~~~x
  | negate, x => -x
  | logNot, x => ofBool64 (x == 0)

namespace BinaryOp

def value (env : Env) : BinaryOp → BitVec 64 → BitVec 64 → Except AsmError (BitVec 64)
  | logical op, x, y => .ok (opLogicalValue op x y)
  | compare op, x, y => .ok (opCompareValue op x y)
  | add, x, y => .ok (x + y)
  | sub, x, y => .ok (x - y)
  | mulDivMod op, x, y => opMulDivModValue env op x y
  | bitwise op, x, y => .ok (opBitwiseValue op x y)

/-- `+` and `-` are grouped to the right, the others to the left. -/
def lbp (b : BinaryOp) : Nat := if b.level = 2 then 5 else 2 * b.level

def rbp (b : BinaryOp) : Nat := if b.level = 2 then 4 else 2 * b.level + 1

theorem lbp_lt_rbp {b c : BinaryOp} (h : b.level < c.level) : b.lbp < c.rbp := by
  unfold lbp rbp
  split <;> split <;> omega

theorem rbp_le_lbp {b c : BinaryOp} (h : b.level < c.level) : b.rbp ≤ c.lbp := by
  unfold lbp rbp
  split <;> split <;> omega

theorem lbp_lt_rbp_of_left {b c : BinaryOp} (hne : b.level ≠ 2) (h : b.level ≤ c.level) :
    b.lbp < c.rbp := by
  unfold lbp rbp
  split <;> split <;> omega

theorem rbp_le_lbp_of_addSub {b c : BinaryOp} (hb : b.level = 2) (h : 2 ≤ c.level) :
    b.rbp ≤ c.lbp := by
  unfold lbp rbp
  split <;> split <;> omega

end BinaryOp

/-- What the grammar makes of operands and operators. -/
def exprPrecedence (env : Env) :
    Precedence ExprMulDivModEtc PrefixOp BinaryOp (BitVec 64) (Except AsmError) where
  operand := ExprMulDivModEtc.eval env
  pre := PrefixOp.value
  op := BinaryOp.value env
  lbp := BinaryOp.lbp
  rbp := BinaryOp.rbp

/-- The operators of the word commute where they have to. -/
def TreeWord.Commutes (w : TreeWord) : Prop :=
  InfixWord.Commuting (fun p b => p.commutes b = true) (fun b c => b.commutes c = true) w

section Values

variable {env : Env}

theorem PrefixOp.level_of_commutes {p : PrefixOp} {b : BinaryOp} (h : p.commutes b = true) :
    b.level = 3 := by
  cases b with
  | mulDivMod op => rfl
  | bitwise op => rfl
  | _ => cases p <;> cases h

/-- `-` and `~` commute with the operators that they are said to. -/
theorem PrefixOp.value_commutes {p : PrefixOp} {b : BinaryOp} (h : p.commutes b = true)
    (x y : BitVec 64) :
    b.value env (p.value x) y = p.value <$> b.value env x y := by
  cases p with
  | bitInvert =>
    cases b with
    | bitwise op =>
      cases op with
      | xor => exact congrArg Except.ok BitVec.not_xor_left.symm
      | sar => exact congrArg Except.ok BitVec.not_sshiftRight.symm
      | _ => cases h
    | _ => cases h
  | negate =>
    cases b with
    | mulDivMod op =>
      cases op with
      | mul => exact congrArg Except.ok (BitVec.neg_mul x y)
      | _ => cases h
    | bitwise op =>
      cases op with
      | shl => exact congrArg Except.ok BitVec.shiftLeft_neg
      | _ => cases h
    | _ => cases h
  | logNot => cases h

/-- Products and exclusive sums are grouped either way. -/
theorem BinaryOp.passes {b c : BinaryOp} (h : b.commutes c = true) (hb : b.level = 3)
    (v : BitVec 64) : (exprPrecedence env).Passes (b.value env v) c := by
  cases b with
  | mulDivMod op =>
    cases op with
    | mul =>
      refine ⟨fun x => v * x, rfl, fun x y => ?_⟩
      cases c with
      | mulDivMod op =>
        cases op with
        | mul => exact congrArg Except.ok (BitVec.mul_assoc v x y)
        | _ => cases h
      | bitwise op =>
        cases op with
        | shl =>
          refine congrArg Except.ok ?_
          show (v * x) <<< (y.toNat % 64) = v * x <<< (y.toNat % 64)
          rw [BitVec.shiftLeft_eq_mul_twoPow, BitVec.mul_assoc, ← BitVec.shiftLeft_eq_mul_twoPow]
        | _ => cases h
      | _ => cases h
    | _ => cases h
  | bitwise op =>
    cases op with
    | xor =>
      refine ⟨fun x => v ^^^ x, rfl, fun x y => ?_⟩
      cases c with
      | bitwise op =>
        cases op with
        | xor => exact congrArg Except.ok (BitVec.xor_assoc v x y)
        | _ => cases h
      | _ => cases h
    | _ => cases h
  | _ => cases hb

/-! ### Trees of the tightest rules -/

theorem TreeWord.level_join {n : Nat} {w v : TreeWord} {b : BinaryOp}
    (hw : ∀ c ∈ w.ops, n ≤ c.level) (hb : n ≤ b.level) (hv : ∀ c ∈ v.ops, n ≤ c.level) :
    ∀ c ∈ (w.join b v).ops, n ≤ c.level := by
  rw [InfixWord.ops_join]
  exact List.forall_mem_append.mpr ⟨hw, List.forall_mem_cons.mpr ⟨hb, hv⟩⟩

/-- After a prefix operator there are operators that commute with it only. -/
theorem TreeWord.level_of_pre {p : PrefixOp} {w : TreeWord} (h : TreeWord.Commutes (.pre p w)) :
    ∀ c ∈ w.ops, 3 ≤ c.level :=
  fun c hc => Nat.le_of_eq (PrefixOp.level_of_commutes (h.1 c hc)).symm

theorem ExprMulDivModEtc.level_treeWord {m : ExprMulDivModEtc} (h : m.treeWord.Commutes) :
    ∀ c ∈ m.treeWord.ops, 3 ≤ c.level := by
  have hnone : ∀ c ∈ ([] : List BinaryOp), 3 ≤ c.level := fun c hc => absurd hc List.not_mem_nil
  cases m with
  | exprUnary u =>
    rw [ExprMulDivModEtc.treeWord] at h ⊢
    cases u with
    | exprBitInvert e | exprNegate e | exprLogNot e =>
      rw [ExprUnary.treeWord] at h ⊢
      exact TreeWord.level_of_pre (w := e.treeWord) h
  | _ =>
    rw [ExprMulDivModEtc.treeWord]
    exact hnone

theorem ExprAddSub.level_treeWord : (t : ExprAddSub) → t.treeWord.Commutes →
    ∀ c ∈ t.treeWord.ops, 3 ≤ c.level
  | .exprMulDivModEtc m, h => by
    rw [ExprAddSub.treeWord] at h ⊢
    exact m.level_treeWord h
  | .opMulDivMod l op r, h => by
    rw [ExprAddSub.treeWord] at h ⊢
    obtain ⟨hl, -, hr⟩ := h.of_join
    exact TreeWord.level_join (l.level_treeWord hl) (Nat.le_refl 3) (r.level_treeWord hr)
  | .opBitwise l op r, h => by
    rw [ExprAddSub.treeWord] at h ⊢
    obtain ⟨hl, -, hr⟩ := h.of_join
    exact TreeWord.level_join (l.level_treeWord hl) (Nat.le_refl 3) (r.level_treeWord hr)

theorem BinaryOp.level_le (b : BinaryOp) : b.level ≤ 3 := by
  cases b <;> simp [level]

/-- A term starts with a prefix operator if it has an infix operator. -/
theorem ExprMulDivModEtc.startsPre_treeWord {m : ExprMulDivModEtc} {c : BinaryOp}
    (hc : c ∈ m.treeWord.ops) : m.treeWord.StartsPre := by
  cases m with
  | exprUnary u =>
    rw [ExprMulDivModEtc.treeWord]
    cases u with
    | exprBitInvert e | exprNegate e | exprLogNot e =>
      rw [ExprUnary.treeWord]
      trivial
  | _ =>
    rw [ExprMulDivModEtc.treeWord] at hc
    exact absurd hc List.not_mem_nil

/-- **One more term**: what is applied to the outcome is applied to the left operand, and the
    operator with its left operand to the first operand of the term. -/
theorem TreeWord.bind_join {w v : TreeWord} {b : BinaryOp}
    {k : BitVec 64 → Except AsmError (BitVec 64)} {l r : Except AsmError (BitVec 64)}
    (hb : b.level = 3) (hw : ∀ c ∈ w.ops, 3 ≤ c.level)
    (hk : (exprPrecedence env).Passes k b) (hl : l >>= k = (exprPrecedence env).run k [] w)
    (hr : ∀ x, r >>= b.value env x = (exprPrecedence env).run (b.value env x) [] v) :
    (l >>= fun x => r >>= fun y => b.value env x y) >>= k =
      (exprPrecedence env).run k [] (w.join b v) := by
  have htight : ∀ c ∈ w.ops, b.lbp < c.rbp := fun c hc =>
    BinaryOp.lbp_lt_rbp_of_left (by omega) (hb.trans_le (hw c hc))
  have hlast : ∀ c ∈ v.ops, (exprPrecedence env).lbp c < (exprPrecedence env).rbp b := by
    intro c _
    have hc := c.level_le
    show c.lbp < b.rbp
    rw [BinaryOp.rbp, hb, if_neg (by decide), BinaryOp.lbp]
    split <;> omega
  -- first `k` goes to the left operand, then the operator to the first operand of `v`
  refine (hk.bind_join l r).trans ?_
  rw [(exprPrecedence env).run_join htight k (fun _ hf => absurd hf List.not_mem_nil), hl]
  refine bind_congr fun x => ?_
  rw [(exprPrecedence env).run_singleton hlast]
  exact hr x

/-- The operators of a term commute with the one before it. -/
theorem ExprMulDivModEtc.passes {m : ExprMulDivModEtc} {b : BinaryOp} (hb : b.level = 3)
    (h : m.treeWord.StartsPre → ∀ c ∈ m.treeWord.ops, b.commutes c = true) (x : BitVec 64) :
    ∀ c ∈ m.treeWord.ops, (exprPrecedence env).Passes (b.value env x) c :=
  fun c hc => BinaryOp.passes (h (m.startsPre_treeWord hc) c hc) hb x

/-- A prefix operator with its operand. -/
theorem TreeWord.bind_pre {w : TreeWord} {p : PrefixOp}
    {k : BitVec 64 → Except AsmError (BitVec 64)} {r : Except AsmError (BitVec 64)}
    (hw : TreeWord.Commutes (.pre p w)) (hk : ∀ c ∈ w.ops, (exprPrecedence env).Passes k c)
    (hr : ∀ {k'}, (∀ c ∈ w.ops, (exprPrecedence env).Passes k' c) →
      r >>= k' = (exprPrecedence env).run k' [] w) :
    (r >>= fun x => .ok (p.value x)) >>= k = (exprPrecedence env).run k [] (.pre p w) := by
  rw [bind_assoc]
  exact hr fun c hc => (hk c hc).pre fun x y => PrefixOp.value_commutes (hw.1 c hc) x y

mutual

/-- **A tree of the tightest rules has the value of its word**, also under what commutes with
    its operators. -/
theorem Expr.eval_bind {k : BitVec 64 → Except AsmError (BitVec 64)} : (e : Expr) →
    e.treeWord.Commutes → (∀ c ∈ e.treeWord.ops, 3 ≤ c.level) →
    (∀ c ∈ e.treeWord.ops, (exprPrecedence env).Passes k c) →
    e.eval env >>= k = (exprPrecedence env).run k [] e.treeWord
  | .exprLogical e, hw, hlevel, hk => by
    rw [Expr.treeWord] at hw hlevel hk ⊢
    rw [Expr.eval]
    exact e.eval_bind hw hlevel hk
  | .opLogical l op r, _, hlevel, _ => by
    -- an operator of a looser rule commutes with no prefix operator before it
    rw [Expr.treeWord, InfixWord.ops_join] at hlevel
    have hloose := hlevel (.logical op) (List.mem_append_right _ List.mem_cons_self)
    exact absurd hloose (show ¬3 ≤ 0 by decide)

theorem ExprLogical.eval_bind {k : BitVec 64 → Except AsmError (BitVec 64)} : (e : ExprLogical) →
    e.treeWord.Commutes → (∀ c ∈ e.treeWord.ops, 3 ≤ c.level) →
    (∀ c ∈ e.treeWord.ops, (exprPrecedence env).Passes k c) →
    e.eval env >>= k = (exprPrecedence env).run k [] e.treeWord
  | .exprCompare e, hw, hlevel, hk => by
    rw [ExprLogical.treeWord] at hw hlevel hk ⊢
    rw [ExprLogical.eval]
    exact e.eval_bind hw hlevel hk
  | .opCompare l op r, _, hlevel, _ => by
    rw [ExprLogical.treeWord, InfixWord.ops_join] at hlevel
    have hloose := hlevel (.compare op) (List.mem_append_right _ List.mem_cons_self)
    exact absurd hloose (show ¬3 ≤ 1 by decide)

theorem ExprCompare.eval_bind {k : BitVec 64 → Except AsmError (BitVec 64)} : (e : ExprCompare) →
    e.treeWord.Commutes → (∀ c ∈ e.treeWord.ops, 3 ≤ c.level) →
    (∀ c ∈ e.treeWord.ops, (exprPrecedence env).Passes k c) →
    e.eval env >>= k = (exprPrecedence env).run k [] e.treeWord
  | .exprAddSub t, hw, hlevel, hk => by
    rw [ExprCompare.treeWord] at hw hlevel hk ⊢
    rw [ExprCompare.eval]
    exact t.eval_bind hw hk
  | .exprJustAdd l r, _, hlevel, _ => by
    rw [ExprCompare.treeWord, InfixWord.ops_join] at hlevel
    have hloose := hlevel .add (List.mem_append_right _ List.mem_cons_self)
    exact absurd hloose (by decide)
  | .exprJustSub l r, _, hlevel, _ => by
    rw [ExprCompare.treeWord, InfixWord.ops_join] at hlevel
    have hloose := hlevel .sub (List.mem_append_right _ List.mem_cons_self)
    exact absurd hloose (by decide)

theorem ExprAddSub.eval_bind {k : BitVec 64 → Except AsmError (BitVec 64)} : (t : ExprAddSub) →
    t.treeWord.Commutes → (∀ c ∈ t.treeWord.ops, (exprPrecedence env).Passes k c) →
    t.eval env >>= k = (exprPrecedence env).run k [] t.treeWord
  | .exprMulDivModEtc m, hw, hk => by
    rw [ExprAddSub.treeWord] at hw hk ⊢
    rw [ExprAddSub.eval]
    exact m.eval_bind hw hk
  | .opMulDivMod l op r, hw, hk => by
    rw [ExprAddSub.treeWord] at hw hk ⊢
    rw [InfixWord.ops_join] at hk
    obtain ⟨hkl, hkr⟩ := List.forall_mem_append.mp hk
    obtain ⟨hl, hpre, hr⟩ := hw.of_join
    rw [ExprAddSub.eval]
    -- to the right of the operator its left operand takes the place of `k`
    exact TreeWord.bind_join rfl (l.level_treeWord hl) (hkr _ List.mem_cons_self)
      (l.eval_bind hl hkl) fun x => r.eval_bind hr (r.passes rfl hpre x)
  | .opBitwise l op r, hw, hk => by
    rw [ExprAddSub.treeWord] at hw hk ⊢
    rw [InfixWord.ops_join] at hk
    obtain ⟨hkl, hkr⟩ := List.forall_mem_append.mp hk
    obtain ⟨hl, hpre, hr⟩ := hw.of_join
    rw [ExprAddSub.eval]
    exact TreeWord.bind_join rfl (l.level_treeWord hl) (hkr _ List.mem_cons_self)
      (l.eval_bind hl hkl) fun x => r.eval_bind hr (r.passes rfl hpre x)

theorem ExprMulDivModEtc.eval_bind {k : BitVec 64 → Except AsmError (BitVec 64)} :
    (m : ExprMulDivModEtc) → m.treeWord.Commutes →
    (∀ c ∈ m.treeWord.ops, (exprPrecedence env).Passes k c) →
    m.eval env >>= k = (exprPrecedence env).run k [] m.treeWord
  | .exprUnary u, hw, hk => by
    rw [ExprMulDivModEtc.treeWord] at hw hk ⊢
    rw [ExprMulDivModEtc.eval]
    exact u.eval_bind hw hk
  | .numExpr n, _, _ => by
    rw [ExprMulDivModEtc.treeWord]
    exact (bind_pure _).symm
  | .identName n, _, _ => by
    rw [ExprMulDivModEtc.treeWord]
    exact (bind_pure _).symm
  | .currPc, _, _ => by
    rw [ExprMulDivModEtc.treeWord]
    exact (bind_pure _).symm
  | .paren e, _, _ => by
    rw [ExprMulDivModEtc.treeWord]
    exact (bind_pure _).symm

theorem ExprUnary.eval_bind {k : BitVec 64 → Except AsmError (BitVec 64)} : (u : ExprUnary) →
    u.treeWord.Commutes → (∀ c ∈ u.treeWord.ops, (exprPrecedence env).Passes k c) →
    u.eval env >>= k = (exprPrecedence env).run k [] u.treeWord
  | .exprBitInvert e, hw, hk => by
    rw [ExprUnary.treeWord] at hw hk ⊢
    rw [ExprUnary.eval]
    exact TreeWord.bind_pre hw hk (e.eval_bind hw.2 (TreeWord.level_of_pre hw))
  | .exprNegate e, hw, hk => by
    rw [ExprUnary.treeWord] at hw hk ⊢
    rw [ExprUnary.eval]
    exact TreeWord.bind_pre hw hk (e.eval_bind hw.2 (TreeWord.level_of_pre hw))
  | .exprLogNot e, hw, hk => by
    rw [ExprUnary.treeWord] at hw hk ⊢
    rw [ExprUnary.eval]
    exact TreeWord.bind_pre hw hk (e.eval_bind hw.2 (TreeWord.level_of_pre hw))

end

/-! ### Trees of the looser rules -/

theorem ExprCompare.level_treeWord : (e : ExprCompare) → e.treeWord.Commutes →
    ∀ c ∈ e.treeWord.ops, 2 ≤ c.level
  | .exprAddSub t, h => by
    rw [ExprCompare.treeWord] at h ⊢
    exact fun c hc => Nat.le_of_succ_le (t.level_treeWord h c hc)
  | .exprJustAdd l r, h => by
    rw [ExprCompare.treeWord] at h ⊢
    obtain ⟨hl, -, hr⟩ := h.of_join
    exact TreeWord.level_join (fun c hc => Nat.le_of_succ_le (l.level_treeWord hl c hc))
      (Nat.le_refl 2) (r.level_treeWord hr)
  | .exprJustSub l r, h => by
    rw [ExprCompare.treeWord] at h ⊢
    obtain ⟨hl, -, hr⟩ := h.of_join
    exact TreeWord.level_join (fun c hc => Nat.le_of_succ_le (l.level_treeWord hl c hc))
      (Nat.le_refl 2) (r.level_treeWord hr)

theorem ExprLogical.level_treeWord : (e : ExprLogical) → e.treeWord.Commutes →
    ∀ c ∈ e.treeWord.ops, 1 ≤ c.level
  | .exprCompare e, h => by
    rw [ExprLogical.treeWord] at h ⊢
    exact fun c hc => Nat.le_of_succ_le (e.level_treeWord h c hc)
  | .opCompare l op r, h => by
    rw [ExprLogical.treeWord] at h ⊢
    obtain ⟨hl, -, hr⟩ := h.of_join
    exact TreeWord.level_join (l.level_treeWord hl) (Nat.le_refl 1)
      fun c hc => Nat.le_of_succ_le (r.level_treeWord hr c hc)

/-- Two trees with an operator that is looser than theirs. -/
theorem TreeWord.eval_join {w v : TreeWord} {b : BinaryOp} {l r : Except AsmError (BitVec 64)}
    (hl : l = (exprPrecedence env).value w) (hr : r = (exprPrecedence env).value v)
    (hw : ∀ c ∈ w.ops, b.lbp < c.rbp) (hv : ∀ c ∈ v.ops, b.rbp ≤ c.lbp) :
    (l >>= fun x => r >>= fun y => b.value env x y) = (exprPrecedence env).value (w.join b v) := by
  rw [(exprPrecedence env).value_join hw hv, ← hl, ← hr]
  rfl

theorem ExprAddSub.eval_eq_value {t : ExprAddSub} (hw : t.treeWord.Commutes) :
    t.eval env = (exprPrecedence env).value t.treeWord := by
  have hbind : t.eval env >>= pure = (exprPrecedence env).value t.treeWord :=
    t.eval_bind hw fun c _ => Precedence.Passes.pure c
  rw [bind_pure] at hbind
  exact hbind

theorem ExprCompare.eval_eq_value : (e : ExprCompare) → e.treeWord.Commutes →
    e.eval env = (exprPrecedence env).value e.treeWord
  | .exprAddSub t, hw => by
    rw [ExprCompare.treeWord] at hw ⊢
    rw [ExprCompare.eval]
    exact t.eval_eq_value hw
  | .exprJustAdd l r, hw => by
    rw [ExprCompare.treeWord] at hw ⊢
    obtain ⟨hl, -, hr⟩ := hw.of_join
    rw [ExprCompare.eval]
    exact TreeWord.eval_join (b := .add) (l.eval_eq_value hl) (r.eval_eq_value hr)
      (fun c hc => BinaryOp.lbp_lt_rbp (l.level_treeWord hl c hc))
      fun c hc => BinaryOp.rbp_le_lbp_of_addSub rfl (r.level_treeWord hr c hc)
  | .exprJustSub l r, hw => by
    rw [ExprCompare.treeWord] at hw ⊢
    obtain ⟨hl, -, hr⟩ := hw.of_join
    rw [ExprCompare.eval]
    exact TreeWord.eval_join (b := .sub) (l.eval_eq_value hl) (r.eval_eq_value hr)
      (fun c hc => BinaryOp.lbp_lt_rbp (l.level_treeWord hl c hc))
      fun c hc => BinaryOp.rbp_le_lbp_of_addSub rfl (r.level_treeWord hr c hc)

theorem ExprLogical.eval_eq_value : (e : ExprLogical) → e.treeWord.Commutes →
    e.eval env = (exprPrecedence env).value e.treeWord
  | .exprCompare e, hw => by
    rw [ExprLogical.treeWord] at hw ⊢
    rw [ExprLogical.eval]
    exact e.eval_eq_value hw
  | .opCompare l op r, hw => by
    rw [ExprLogical.treeWord] at hw ⊢
    obtain ⟨hl, -, hr⟩ := hw.of_join
    rw [ExprLogical.eval]
    exact TreeWord.eval_join (b := .compare op) (l.eval_eq_value hl) (r.eval_eq_value hr)
      (fun c hc => BinaryOp.lbp_lt_rbp_of_left (show 1 ≠ 2 by decide) (l.level_treeWord hl c hc))
      fun c hc => BinaryOp.rbp_le_lbp (r.level_treeWord hr c hc)

/-- **A tree in whose word operators commute has the value of the word.** -/
theorem Expr.eval_eq_value : (e : Expr) → e.treeWord.Commutes →
    e.eval env = (exprPrecedence env).value e.treeWord
  | .exprLogical e, hw => by
    rw [Expr.treeWord] at hw ⊢
    rw [Expr.eval]
    exact e.eval_eq_value hw
  | .opLogical l op r, hw => by
    rw [Expr.treeWord] at hw ⊢
    obtain ⟨hl, -, hr⟩ := hw.of_join
    rw [Expr.eval]
    exact TreeWord.eval_join (b := .logical op) (l.eval_eq_value hl) (r.eval_eq_value hr)
      (fun c _ => BinaryOp.lbp_lt_rbp_of_left (show 0 ≠ 2 by decide) (Nat.zero_le c.level))
      fun c hc => BinaryOp.rbp_le_lbp (r.level_treeWord hr c hc)

end Values

/-! ### The scan of a word -/

/-- What the scan says of the tokens inside of an operand. -/
def ExprMulDivModEtc.scan : ExprMulDivModEtc → Bool
  | .paren e => opsCommute true none (fun _ => true) [] e.tokens
  | _ => true

/-- The scan goes over the operand and on as it was. -/
def ExprMulDivModEtc.ScannedOver (m : ExprMulDivModEtc) : Prop :=
  ∀ left free outer rest, opsCommute true left free outer (m.tokens ++ rest) =
    (m.scan && opsCommute false none free outer rest)

theorem opsCommute_prefix (p : PrefixOp) (left : Option BinaryOp) (free : BinaryOp → Bool)
    (outer : List (BinaryOp → Bool)) (ts : List Tok) :
    opsCommute true left free outer (p.tok :: ts) =
      opsCommute true none (fun c => free c && p.commutes c && left.all (·.commutes c)) outer
        ts := by
  cases p <;> rfl

theorem opsCommute_binary (b : BinaryOp) (left : Option BinaryOp) (free : BinaryOp → Bool)
    (outer : List (BinaryOp → Bool)) (ts : List Tok) :
    opsCommute false left free outer (b.tok :: ts) =
      (free b && opsCommute true (some b) free outer ts) := by
  cases b <;> rfl

theorem ExprMulDivModEtc.ScannedOver.token {m : ExprMulDivModEtc} {t : Tok}
    (htokens : m.tokens = [t]) (hscan : m.scan = true) (hnone : t.prefixOp? = none)
    (hparen : t ≠ .lParen) : m.ScannedOver := by
  intro left free outer rest
  rw [htokens, hscan, List.singleton_append, opsCommute, hnone, Bool.true_and]
  exact if_neg hparen

namespace TreeWord

/-- **The scan of the tokens of a word is the scan of the word** and of its operands. -/
theorem opsCommute_tokens {w : TreeWord} (h : ∀ m ∈ w.operands, m.ScannedOver)
    (left : Option BinaryOp) (free : BinaryOp → Bool) (outer : List (BinaryOp → Bool))
    (rest : List Tok) : ∃ free', opsCommute true left free outer (tokens w ++ rest) =
      ((w.operands.all ExprMulDivModEtc.scan &&
          w.commutingScan PrefixOp.commutes BinaryOp.commutes left free) &&
        opsCommute false none free' outer rest) := by
  induction w generalizing left free with
  | operand m =>
    refine ⟨free, ?_⟩
    have hm := h m List.mem_cons_self left free outer rest
    simpa [InfixWord.operands, InfixWord.commutingScan, tokens] using hm
  | pre p w ih =>
    obtain ⟨free', hw⟩ := ih h none fun c => free c && p.commutes c && left.all (·.commutes c)
    refine ⟨free', ?_⟩
    rw [tokens, List.cons_append, opsCommute_prefix, hw]
    rfl
  | op m b w ih =>
    obtain ⟨free', hw⟩ := ih (fun m' hm' => h m' (List.mem_cons_of_mem m hm')) (some b) free
    refine ⟨free', ?_⟩
    rw [tokens, List.append_assoc, List.append_assoc, h m List.mem_cons_self,
      List.singleton_append, opsCommute_binary, hw, InfixWord.operands, List.all_cons,
      InfixWord.commutingScan]
    cases m.scan <;> cases free b <;> simp

theorem length_tokens_le {w : TreeWord} {m : ExprMulDivModEtc} (hm : m ∈ w.operands) :
    m.tokens.length ≤ (tokens w).length := by
  induction w with
  | operand m' =>
    rw [List.mem_singleton.mp hm]
    exact Nat.le_refl _
  | pre p w ih => exact Nat.le_succ_of_le (ih hm)
  | op m' b w ih =>
    rw [tokens, List.length_append, List.length_append]
    rcases List.mem_cons.mp hm with rfl | hm
    · omega
    · have hle := ih hm
      omega

end TreeWord

/-- The tokens of an expression alone, and in parentheses. -/
theorem Expr.opsCommute_tokens {e : Expr} (h : ∀ m ∈ e.treeWord.operands, m.ScannedOver) :
    (opsCommute true none (fun _ => true) [] e.tokens = (e.treeWord.operands.all
        ExprMulDivModEtc.scan && e.treeWord.commutingScan PrefixOp.commutes BinaryOp.commutes none
          fun _ => true)) ∧
      (ExprMulDivModEtc.paren e).ScannedOver := by
  have htokens := e.wordOf.tokens
  have halone : opsCommute true none (fun _ => true) [] e.tokens = (e.treeWord.operands.all
      ExprMulDivModEtc.scan && e.treeWord.commutingScan PrefixOp.commutes BinaryOp.commutes none
        fun _ => true) := by
    -- whatever `free'` is, no token is left that is checked against it
    obtain ⟨free', hscan⟩ := TreeWord.opsCommute_tokens h none (fun _ => true) [] []
    rw [htokens, List.append_nil, opsCommute, Bool.and_true] at hscan
    exact hscan
  refine ⟨halone, ?_⟩
  intro left free outer rest
  obtain ⟨free', hscan⟩ :=
    TreeWord.opsCommute_tokens h none (fun _ => true) (free :: outer) (.rParen :: rest)
  rw [htokens, ← halone] at hscan
  rw [ExprMulDivModEtc.tokens, List.cons_append, List.append_assoc]
  exact hscan

/-- The induction is on the length of the operand, which is longer than those in it. -/
theorem ExprMulDivModEtc.scannedOver (m : ExprMulDivModEtc) (h : ¬m.IsUnary) : m.ScannedOver := by
  induction hn : m.tokens.length using Nat.strongRecOn generalizing m with
  | ind n ih =>
    cases m with
    | exprUnary u => exact absurd trivial h
    | numExpr n =>
      cases n <;> exact .token rfl rfl rfl (by simp)
    | identName n =>
      cases n <;> exact .token rfl rfl rfl (by simp)
    | currPc => exact .token rfl rfl rfl (by simp)
    | paren e =>
      refine (Expr.opsCommute_tokens fun m hm => ?_).2
      refine ih m.tokens.length ?_ m (e.wordOf.plain m hm) rfl
      have hle := TreeWord.length_tokens_le hm
      rw [e.wordOf.tokens] at hle
      rw [← hn, ExprMulDivModEtc.tokens, List.length_cons, List.length_append]
      omega

/-- What a scan without a finding says of the word and of its operands. -/
theorem Expr.commutes_of_scan {e : Expr} (h : OpsCommute e.tokens) :
    e.treeWord.Commutes ∧ ∀ m ∈ e.treeWord.operands, m.scan = true := by
  have hscan := (Expr.opsCommute_tokens fun m hm => m.scannedOver (e.wordOf.plain m hm)).1
  rw [OpsCommute, hscan, Bool.and_eq_true, List.all_eq_true] at h
  exact ⟨((InfixWord.commutingScan_eq_true _).mp h.2).2.2, h.1⟩

/-! ### One value -/

/-- Operands that look the same have the same value if those in parentheses do. -/
theorem ExprMulDivModEtc.eval_eq_of_operand_eq {env : Env} {m m' : ExprMulDivModEtc}
    (hm : ¬m.IsUnary) (hm' : ¬m'.IsUnary) (h : m.operand = m'.operand)
    (hparen : ∀ a b : Expr, m = .paren a → a.tokens = b.tokens → a.eval env = b.eval env) :
    m.eval env = m'.eval env := by
  cases m with
  | exprUnary u => exact absurd trivial hm
  | numExpr n =>
    cases m' with
    | exprUnary u => exact absurd trivial hm'
    | numExpr n' => rw [Operand.num.inj h]
    | _ => cases h
  | identName n =>
    cases m' with
    | exprUnary u => exact absurd trivial hm'
    | identName n' => rw [Operand.ident.inj h]
    | _ => cases h
  | currPc =>
    cases m' with
    | exprUnary u => exact absurd trivial hm'
    | currPc => rfl
    | _ => cases h
  | paren a =>
    cases m' with
    | exprUnary u => exact absurd trivial hm'
    | paren b =>
      rw [ExprMulDivModEtc.eval, ExprMulDivModEtc.eval]
      exact hparen a b rfl (Operand.group.inj h)
    | _ => cases h

/-- **Trees with the same tokens, in which operators commute, have the same value.**  The
    induction is on the number of tokens, for what is in parentheses. -/
theorem Expr.eval_eq_of_tokens_eq (env : Env) {e e' : Expr} (htokens : e.tokens = e'.tokens)
    (h : OpsCommute e.tokens) : e.eval env = e'.eval env := by
  induction hn : e.tokens.length using Nat.strongRecOn generalizing e e' with
  | ind n ih =>
    have hscan := Expr.commutes_of_scan h
    have hscan' := Expr.commutes_of_scan (htokens ▸ h)
    rw [e.eval_eq_value hscan.1, e'.eval_eq_value hscan'.1]
    -- the words differ in what stands in parentheses only
    have hmap : e.treeWord.map ExprMulDivModEtc.operand =
        e'.treeWord.map ExprMulDivModEtc.operand := by
      rw [e.wordOf.word, e'.wordOf.word, Expr.word_eq_of_tokens_eq htokens]
    refine (exprPrecedence env).run_congr hmap ?_ pure []
    intro m hm m' hm' hoperand
    refine m.eval_eq_of_operand_eq (e.wordOf.plain m hm) (e'.wordOf.plain m' hm') hoperand ?_
    rintro a b rfl hab
    refine ih a.tokens.length ?_ hab (hscan.2 _ hm) rfl
    have hle := TreeWord.length_tokens_le hm
    rw [e.wordOf.tokens, ExprMulDivModEtc.tokens, List.length_cons, List.length_append] at hle
    omega

/-- **Tokens in which operators commute have one value.** -/
theorem oneValue_of_opsCommute {ts : List Tok} (h : OpsCommute ts) : OneValue ts := by
  rintro e e' rfl he' s
  rw [visitExpr_run, visitExpr_run, Expr.eval_eq_of_tokens_eq s.env he'.symm h]

end Frost32.Asm
