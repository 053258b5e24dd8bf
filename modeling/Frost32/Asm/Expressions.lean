import Frost32.Asm.Assembler

namespace Frost32.Asm

/-!
# The value of an expression

What the expression visitors compute, without the stacks.

* `Env` — what an expression can see of the assembler: the pass, the program counter and the
  labels as the current scope sees them.
* `Expr.eval` — the value of an expression, or the error its evaluation ends in.
* `visitExpr_run` — **the visitor pushes exactly this value** and changes nothing else.
* `Expr.idents` — the identifiers an expression uses.
* `Expr.eval_lowers` — a value in one environment is also the value in another one in which
  the same identifiers have it.
-/

/-- What the evaluation of an expression depends on. -/
structure Env where
  pass : Nat
  pc : BitVec 64
  /-- The address a name stands for in pass 1. -/
  addr : String → Except AsmError (BitVec 64)

def unknownSymbol (name : String) : AsmError :=
  .err ("Error:  Unknown symbol called \"" ++ name ++ "\".")

/-- The address of a name seen from a node: only names found as labels have one. -/
def SymbolTable.addrFrom (t : SymbolTable) (curr : Nat) (name : String) :
    Except AsmError (BitVec 64) :=
  match t.find curr name with
  | some v =>
    if (t.deref name v).foundAsLabel then .ok (t.deref name v).addr
    else .error (unknownSymbol name)
  | none => .error (if curr = 0 then .undefined else unknownSymbol name)

def Assembler.env (s : Assembler) : Env where
  pass := s.pass
  pc := s.pc.curr
  addr := s.symTbl.addrFrom s.currScopeNode

/-! ### Evaluation -/

def NumExpr.eval : NumExpr → Except AsmError (BitVec 64)
  | .decNum ds => .ok (decValue ds)
  | .hexNum ds =>
    match hexValue 0 ds.val with
    | some n => .ok n
    | none => .error (.err "visitNumExpr():  Eek!")
  | .binNum _ => .error (.err "Sorry, binary literal numbers are not supported yet.")

/-- An identifier is 0 in pass 0 and an address in pass 1. -/
def IdentName.eval (env : Env) (n : IdentName) : Except AsmError (BitVec 64) :=
  if env.pass = 0 then .ok 0 else env.addr n.text

def signedDivValue (op : BitVec 64 → BitVec 64 → BitVec 64) (left right : BitVec 64) :
    Except AsmError (BitVec 64) :=
  if right = 0 ∨ left = BitVec.intMin 64 ∧ right = -1 then .error .trap
  else .ok (op left right)

def opMulDivModValue (env : Env) (op : TokOpMulDivMod) (left right : BitVec 64) :
    Except AsmError (BitVec 64) :=
  match op with
  | .mul => .ok (left * right)
  | .div =>
    if right ≠ 0 then signedDivValue BitVec.sdiv left right
    else if env.pass ≠ 0 then .error (.err "Error:  Cannot divide by zero!")
    else .ok 0
  | .mod => signedDivValue BitVec.srem left right

mutual

def Expr.eval (env : Env) : Expr → Except AsmError (BitVec 64)
  | .opLogical l op r => do return opLogicalValue op (← l.eval env) (← r.eval env)
  | .exprLogical e => e.eval env

def ExprLogical.eval (env : Env) : ExprLogical → Except AsmError (BitVec 64)
  | .opCompare l op r => do return opCompareValue op (← l.eval env) (← r.eval env)
  | .exprCompare e => e.eval env

def ExprCompare.eval (env : Env) : ExprCompare → Except AsmError (BitVec 64)
  | .exprAddSub e => e.eval env
  | .exprJustAdd l r => do return (← l.eval env) + (← r.eval env)
  | .exprJustSub l r => do return (← l.eval env) - (← r.eval env)

def ExprAddSub.eval (env : Env) : ExprAddSub → Except AsmError (BitVec 64)
  | .opMulDivMod l op r => do opMulDivModValue env op (← l.eval env) (← r.eval env)
  | .opBitwise l op r => do return opBitwiseValue op (← l.eval env) (← r.eval env)
  | .exprMulDivModEtc e => e.eval env

def ExprMulDivModEtc.eval (env : Env) : ExprMulDivModEtc → Except AsmError (BitVec 64)
  | .exprUnary e => e.eval env
  | .numExpr n => n.eval
  | .identName n => n.eval env
  | .currPc => .ok env.pc
  | .paren e => e.eval env

def ExprUnary.eval (env : Env) : ExprUnary → Except AsmError (BitVec 64)
  | .exprBitInvert e => do return ~~~(← e.eval env)
  | .exprNegate e => do return -(← e.eval env)
  | .exprLogNot e => do return ofBool64 ((← e.eval env) == 0)

end

/-! ### The visitors push the value -/

def Assembler.pushNum (n : BitVec 64) (s : Assembler) : Assembler :=
  { s with numStack := n :: s.numStack }

def Assembler.pushStr (str : String) (s : Assembler) : Assembler :=
  { s with strStack := str :: s.strStack }

/-- The outcome of a visitor that pushes a value. -/
def pushing (s : Assembler) (r : Except AsmError (BitVec 64)) :
    Except AsmError (Unit × Assembler) :=
  r.map fun n => ((), s.pushNum n)

@[simp] theorem pushing_ok (s : Assembler) (n : BitVec 64) :
    pushing s (.ok n) = .ok ((), s.pushNum n) := rfl

@[simp] theorem pushing_error (s : Assembler) (e : AsmError) :
    pushing s (.error e) = .error e := rfl

/-- Different outcomes are told apart by what is pushed. -/
theorem pushing_inj {s : Assembler} {r r' : Except AsmError (BitVec 64)} :
    pushing s r = pushing s r' ↔ r = r' := by
  constructor
  · intro h
    cases r <;> cases r'
    · simpa using h
    · cases h
    · cases h
    · have hstack := congrArg (fun x => x.map fun y => y.2.numStack) h
      simpa [pushing, Except.map, Assembler.pushNum] using hstack
  · exact fun h => congrArg (pushing s) h

@[simp] theorem ok_bind {ε α β : Type} (x : α) (f : α → Except ε β) :
    (Except.ok x >>= f) = f x := rfl

@[simp] theorem error_bind {ε α β : Type} (e : ε) (f : α → Except ε β) :
    (Except.error e >>= f) = .error e := rfl

@[simp] theorem except_pure {ε α : Type} (x : α) : (pure x : Except ε α) = .ok x := rfl

@[simp] theorem throw_run {α : Type} (e : AsmError) (s : Assembler) :
    (throw e : AsmM α).run s = .error e := rfl

@[simp] theorem err_run (msg : String) (s : Assembler) : (err msg).run s = .error (.err msg) :=
  rfl

@[simp] theorem pushNum_run (n : BitVec 64) (s : Assembler) :
    (pushNum n).run s = .ok ((), s.pushNum n) := rfl

@[simp] theorem popNum_run (n : BitVec 64) (s : Assembler) :
    popNum.run (s.pushNum n) = .ok (n, s) := rfl

@[simp] theorem pushStr_run (str : String) (s : Assembler) :
    (pushStr str).run s = .ok ((), s.pushStr str) := rfl

@[simp] theorem popStr_run (str : String) (s : Assembler) :
    popStr.run (s.pushStr str) = .ok (str, s) := rfl

@[simp] theorem Assembler.env_pushStr (str : String) (s : Assembler) :
    (s.pushStr str).env = s.env := rfl

@[simp] theorem Assembler.pass_pushStr (str : String) (s : Assembler) :
    (s.pushStr str).pass = s.pass := rfl

/-- Every instruction name is in the list of `visitInstrName`. -/
theorem InstrTok.mem_all (t : InstrTok) : t ∈ InstrTok.all := by
  cases t <;> decide

@[simp] theorem visitIdentName_run (n : IdentName) (s : Assembler) :
    (visitIdentName n).run s = .ok ((), s.pushStr n.text) := by
  cases n with
  | instrName t =>
    show (if t ∈ InstrTok.all then pushStr t.text else err _ : AsmM Unit).run s = _
    rw [if_pos t.mem_all]
    rfl
  | _ => rfl

/-- A look-up from the current scope: the table grows only when the name is unknown. -/
theorem symTblFindOrInsert_run (name : String) (s : Assembler) :
    (symTblFindOrInsert name).run s =
      match s.symTbl.findOrInsert s.currScopeNode name with
      | (some v, t) => .ok (v, { s with symTbl := t })
      | (none, _) => .error .undefined := by
  unfold symTblFindOrInsert
  simp only [StateT.run_bind, StateT.run_get, StateT.run_set, except_pure, ok_bind]
  rcases s.symTbl.findOrInsert s.currScopeNode name with ⟨v | v, t⟩ <;> rfl

/-- After an unsuccessful search the name is found where it was added, unless that is
    `__tree`. -/
theorem SymbolTable.findOrInsert_of_none {t : SymbolTable} {curr : Nat} {name : String}
    (h : t.find curr name = none) :
    t.findOrInsert curr name =
      (if curr = 0 then none else some curr, t.insertOrAssign curr { name := name }) := by
  unfold SymbolTable.findOrInsert
  rw [h]
  simp only [Prod.mk.injEq, and_true]
  cases curr with
  | zero => rfl
  | succ c =>
    rw [if_neg (Nat.succ_ne_zero c)]
    unfold SymbolTable.find SymbolTable.findLoop
    rw [if_neg (Nat.succ_ne_zero c), if_pos]
    simp [SymbolTable.insertOrAssign]

/-- The fresh symbol is not a label. -/
theorem SymbolTable.deref_insertOrAssign (t : SymbolTable) (curr : Nat) (name : String) :
    (t.insertOrAssign curr { name := name }).deref name curr = { name := name } := by
  simp [SymbolTable.deref, SymbolTable.insertOrAssign]

theorem visitExprIdentName_run (n : IdentName) (s : Assembler) :
    (visitExprIdentName n).run s = pushing s (n.eval s.env) := by
  unfold visitExprIdentName IdentName.eval
  simp only [StateT.run_bind, visitIdentName_run, ok_bind, StateT.run_get, except_pure,
    Assembler.pass_pushStr]
  by_cases hpass : s.pass = 0
  · rw [if_pos (show s.env.pass = 0 from hpass)]
    simp only [hpass, if_true, StateT.run_bind, popStr_run, ok_bind, pushNum_run, pushing_ok]
  · rw [if_neg (show ¬ s.env.pass = 0 from hpass)]
    simp only [hpass, if_false, StateT.run_bind, popStr_run, ok_bind, symTblFindOrInsert_run]
    show _ = pushing s (s.symTbl.addrFrom s.currScopeNode n.text)
    unfold SymbolTable.addrFrom
    cases hfind : s.symTbl.find s.currScopeNode n.text with
    | some v =>
      have hsame : s.symTbl.findOrInsert s.currScopeNode n.text = (some v, s.symTbl) := by
        unfold SymbolTable.findOrInsert
        rw [hfind]
      rw [hsame]
      cases hlabel : (s.symTbl.deref n.text v).foundAsLabel <;> simp [hlabel, unknownSymbol]
    | none =>
      rw [SymbolTable.findOrInsert_of_none hfind]
      by_cases hroot : s.currScopeNode = 0
      · simp [hroot]
      · rw [if_neg hroot]
        simp only [ok_bind, StateT.run_get, except_pure, SymbolTable.deref_insertOrAssign]
        simp [hroot, unknownSymbol]

theorem visitNumExpr_run (n : NumExpr) (s : Assembler) :
    (visitNumExpr n).run s = pushing s n.eval := by
  cases n with
  | decNum ds => rfl
  | hexNum ds =>
    simp only [visitNumExpr, NumExpr.eval]
    cases hexValue (0 : BitVec 64) ds.val with
    | some n => rfl
    | none => rfl
  | binNum ds => rfl

theorem signedDivOp_run (op : BitVec 64 → BitVec 64 → BitVec 64) (left right : BitVec 64)
    (s : Assembler) :
    (signedDivOp op left right).run s = (signedDivValue op left right).map fun n => (n, s) := by
  unfold signedDivOp signedDivValue
  by_cases h : right = 0 ∨ left = BitVec.intMin 64 ∧ right = -1
  · rw [if_pos h, if_pos h]
    rfl
  · rw [if_neg h, if_neg h]
    rfl

theorem opMulDivModVisit_run (op : TokOpMulDivMod) (left right : BitVec 64) (s : Assembler) :
    (opMulDivModVisit op left right).run s =
      pushing s (opMulDivModValue s.env op left right) := by
  have hdiv : ∀ f : BitVec 64 → BitVec 64 → BitVec 64,
      (do pushNum (← signedDivOp f left right) : AsmM Unit).run s =
        pushing s (signedDivValue f left right) := by
    intro f
    simp only [StateT.run_bind, signedDivOp_run]
    cases signedDivValue f left right <;> rfl
  cases op with
  | mul => rfl
  | mod => exact hdiv _
  | div =>
    unfold opMulDivModVisit opMulDivModValue
    by_cases hzero : right = 0
    · simp only [hzero, ne_eq, not_true_eq_false, if_false, StateT.run_bind, StateT.run_get,
        except_pure, ok_bind]
      by_cases hpass : s.pass = 0
      · simp [hpass, show s.env.pass = 0 from hpass]
      · simp [hpass, show ¬ s.env.pass = 0 from hpass]
    · simp only [ne_eq, hzero, not_false_eq_true, if_true]
      exact hdiv _

/-- Two operands one after the other, and a value computed from them. -/
theorem binary_run {l r : AsmM Unit} {el er : Except AsmError (BitVec 64)}
    {last : BitVec 64 → BitVec 64 → AsmM Unit}
    {value : BitVec 64 → BitVec 64 → Except AsmError (BitVec 64)} (s : Assembler)
    (hl : l.run s = pushing s el) (hr : r.run s = pushing s er)
    (hlast : ∀ a b, (last a b).run s = pushing s (value a b)) :
    (do
      l
      let left ← popNum
      r
      let right ← popNum
      last left right : AsmM Unit).run s =
      pushing s (do
        let a ← el
        let b ← er
        value a b) := by
  simp only [StateT.run_bind, hl]
  cases el with
  | error e => rfl
  | ok a =>
    simp only [pushing_ok, ok_bind, popNum_run, hr]
    cases er with
    | error e => rfl
    | ok b => simp only [pushing_ok, ok_bind, popNum_run, hlast]

/-- One operand, and a value computed from it. -/
theorem unary_run {l : AsmM Unit} {el : Except AsmError (BitVec 64)}
    (value : BitVec 64 → BitVec 64) (s : Assembler) (hl : l.run s = pushing s el) :
    (do
      l
      pushNum (value (← popNum)) : AsmM Unit).run s =
      pushing s (do
        let a ← el
        return value a) := by
  simp only [StateT.run_bind, hl]
  cases el with
  | error e => rfl
  | ok a => simp only [pushing_ok, ok_bind, popNum_run, pushNum_run, except_pure]

mutual

/-- **The visitor of an expression pushes its value** and changes nothing else. -/
theorem visitExpr_run (s : Assembler) : (e : Expr) →
    (visitExpr e).run s = pushing s (e.eval s.env)
  | .opLogical l op r => by
    rw [visitExpr, Expr.eval]
    exact binary_run s (visitExpr_run s l) (visitExprLogical_run s r) fun _ _ => rfl
  | .exprLogical e => by
    rw [visitExpr, Expr.eval]
    exact visitExprLogical_run s e

theorem visitExprLogical_run (s : Assembler) : (e : ExprLogical) →
    (visitExprLogical e).run s = pushing s (e.eval s.env)
  | .opCompare l op r => by
    rw [visitExprLogical, ExprLogical.eval]
    exact binary_run s (visitExprLogical_run s l) (visitExprCompare_run s r) fun _ _ => rfl
  | .exprCompare e => by
    rw [visitExprLogical, ExprLogical.eval]
    exact visitExprCompare_run s e

theorem visitExprCompare_run (s : Assembler) : (e : ExprCompare) →
    (visitExprCompare e).run s = pushing s (e.eval s.env)
  | .exprAddSub e => by
    rw [visitExprCompare, ExprCompare.eval]
    exact visitExprAddSub_run s e
  | .exprJustAdd l r => by
    rw [visitExprCompare, ExprCompare.eval]
    exact binary_run s (visitExprAddSub_run s l) (visitExprCompare_run s r) fun _ _ => rfl
  | .exprJustSub l r => by
    rw [visitExprCompare, ExprCompare.eval]
    exact binary_run s (visitExprAddSub_run s l) (visitExprCompare_run s r) fun _ _ => rfl

theorem visitExprAddSub_run (s : Assembler) : (e : ExprAddSub) →
    (visitExprAddSub e).run s = pushing s (e.eval s.env)
  | .opMulDivMod l op r => by
    rw [visitExprAddSub, ExprAddSub.eval]
    exact binary_run s (visitExprAddSub_run s l) (visitExprMulDivModEtc_run s r)
      fun a b => opMulDivModVisit_run op a b s
  | .opBitwise l op r => by
    rw [visitExprAddSub, ExprAddSub.eval]
    exact binary_run s (visitExprAddSub_run s l) (visitExprMulDivModEtc_run s r) fun _ _ => rfl
  | .exprMulDivModEtc e => by
    rw [visitExprAddSub, ExprAddSub.eval]
    exact visitExprMulDivModEtc_run s e

theorem visitExprMulDivModEtc_run (s : Assembler) : (e : ExprMulDivModEtc) →
    (visitExprMulDivModEtc e).run s = pushing s (e.eval s.env)
  | .exprUnary e => by
    rw [visitExprMulDivModEtc, ExprMulDivModEtc.eval]
    exact visitExprUnary_run s e
  | .numExpr n => by
    rw [visitExprMulDivModEtc, ExprMulDivModEtc.eval]
    exact visitNumExpr_run n s
  | .identName n => by
    rw [visitExprMulDivModEtc, ExprMulDivModEtc.eval]
    exact visitExprIdentName_run n s
  | .currPc => by
    rw [visitExprMulDivModEtc, ExprMulDivModEtc.eval]
    rfl
  | .paren e => by
    rw [visitExprMulDivModEtc, ExprMulDivModEtc.eval]
    exact visitExpr_run s e

theorem visitExprUnary_run (s : Assembler) : (e : ExprUnary) →
    (visitExprUnary e).run s = pushing s (e.eval s.env)
  | .exprBitInvert e => by
    rw [visitExprUnary, ExprUnary.eval]
    exact unary_run _ s (visitExpr_run s e)
  | .exprNegate e => by
    rw [visitExprUnary, ExprUnary.eval]
    exact unary_run _ s (visitExpr_run s e)
  | .exprLogNot e => by
    rw [visitExprUnary, ExprUnary.eval]
    exact unary_run (fun n => ofBool64 (n == 0)) s (visitExpr_run s e)

end

/-- Evaluating an operand leaves the state as it was. -/
theorem acceptExpr_run (e : Expr) (s : Assembler) :
    (acceptExpr e).run s = (e.eval s.env).map fun n => (n, s) := by
  unfold acceptExpr
  simp only [StateT.run_bind, visitExpr_run]
  cases e.eval s.env <;> rfl

/-! ### What the value depends on -/

mutual

/-- The identifiers an expression uses, in order. -/
def Expr.idents : Expr → List IdentName
  | .opLogical l _ r => l.idents ++ r.idents
  | .exprLogical e => e.idents

def ExprLogical.idents : ExprLogical → List IdentName
  | .opCompare l _ r => l.idents ++ r.idents
  | .exprCompare e => e.idents

def ExprCompare.idents : ExprCompare → List IdentName
  | .exprAddSub e => e.idents
  | .exprJustAdd l r => l.idents ++ r.idents
  | .exprJustSub l r => l.idents ++ r.idents

def ExprAddSub.idents : ExprAddSub → List IdentName
  | .opMulDivMod l _ r => l.idents ++ r.idents
  | .opBitwise l _ r => l.idents ++ r.idents
  | .exprMulDivModEtc e => e.idents

def ExprMulDivModEtc.idents : ExprMulDivModEtc → List IdentName
  | .exprUnary e => e.idents
  | .numExpr _ => []
  | .identName n => [n]
  | .currPc => []
  | .paren e => e.idents

def ExprUnary.idents : ExprUnary → List IdentName
  | .exprBitInvert e => e.idents
  | .exprNegate e => e.idents
  | .exprLogNot e => e.idents

end

/-- Every value of the one outcome is the value of the other. -/
def Lowers (r₁ r₀ : Except AsmError (BitVec 64)) : Prop := ∀ n, r₁ = .ok n → r₀ = .ok n

theorem Lowers.refl (r : Except AsmError (BitVec 64)) : Lowers r r := fun _ h => h

theorem Lowers.bind {r₁ r₀ : Except AsmError (BitVec 64)}
    {f₁ f₀ : BitVec 64 → Except AsmError (BitVec 64)} (h : Lowers r₁ r₀)
    (hf : ∀ n, Lowers (f₁ n) (f₀ n)) : Lowers (r₁ >>= f₁) (r₀ >>= f₀) := by
  intro n hn
  cases hr : r₁ with
  | error e => rw [hr] at hn; cases hn
  | ok m =>
    rw [hr] at hn
    rw [h m hr]
    exact hf m n hn

/-- `env₀` is at the program counter of `env`, in the same pass or in pass 0. -/
structure Env.LowerThan (env₀ env : Env) : Prop where
  pc : env₀.pc = env.pc
  pass : env₀.pass = 0 ∨ env₀.pass = env.pass

/-- Pass 0 is more lenient in one place only: there a division by 0 gives 0. -/
theorem opMulDivModValue_lowers {env env₀ : Env} (h₀ : env₀.LowerThan env) (op : TokOpMulDivMod)
    (left right : BitVec 64) :
    Lowers (opMulDivModValue env op left right) (opMulDivModValue env₀ op left right) := by
  intro n hn
  cases op with
  | mul => exact hn
  | mod => exact hn
  | div =>
    unfold opMulDivModValue at hn ⊢
    by_cases hr : right = 0
    · simp only [hr, ne_eq, not_true_eq_false, if_false] at hn ⊢
      rcases h₀.pass with hpass | hpass
      · by_cases hp : env.pass = 0
        · rw [if_neg (by simpa using hp)] at hn
          rw [if_neg (by simpa using hpass)]
          exact hn
        · rw [if_pos hp] at hn
          cases hn
      · rw [hpass]
        exact hn
    · simp only [ne_eq, hr, not_false_eq_true, if_true] at hn ⊢
      exact hn

section Lowering

variable {env env₀ : Env}

/-- The identifiers of a list have their values in `env` also in `env₀`. -/
abbrev IdentsLower (env env₀ : Env) (ns : List IdentName) : Prop :=
  ∀ n ∈ ns, Lowers (n.eval env) (n.eval env₀)

theorem IdentsLower.left {l r : List IdentName} (h : IdentsLower env env₀ (l ++ r)) :
    IdentsLower env env₀ l := fun n hn => h n (List.mem_append_left _ hn)

theorem IdentsLower.right {l r : List IdentName} (h : IdentsLower env env₀ (l ++ r)) :
    IdentsLower env env₀ r := fun n hn => h n (List.mem_append_right _ hn)

mutual

/-- **The value depends on the identifiers, the program counter and the pass only**, and on
    the pass only in that pass 0 has more values. -/
theorem Expr.eval_lowers (h₀ : env₀.LowerThan env) : (e : Expr) →
    IdentsLower env env₀ e.idents → Lowers (e.eval env) (e.eval env₀)
  | .opLogical l op r, h => by
    rw [Expr.eval, Expr.eval]
    exact (Expr.eval_lowers h₀ l h.left).bind fun _ =>
      (ExprLogical.eval_lowers h₀ r h.right).bind fun _ => .refl _
  | .exprLogical e, h => by
    rw [Expr.eval, Expr.eval]
    exact ExprLogical.eval_lowers h₀ e h

theorem ExprLogical.eval_lowers (h₀ : env₀.LowerThan env) : (e : ExprLogical) →
    IdentsLower env env₀ e.idents → Lowers (e.eval env) (e.eval env₀)
  | .opCompare l op r, h => by
    rw [ExprLogical.eval, ExprLogical.eval]
    exact (ExprLogical.eval_lowers h₀ l h.left).bind fun _ =>
      (ExprCompare.eval_lowers h₀ r h.right).bind fun _ => .refl _
  | .exprCompare e, h => by
    rw [ExprLogical.eval, ExprLogical.eval]
    exact ExprCompare.eval_lowers h₀ e h

theorem ExprCompare.eval_lowers (h₀ : env₀.LowerThan env) : (e : ExprCompare) →
    IdentsLower env env₀ e.idents → Lowers (e.eval env) (e.eval env₀)
  | .exprAddSub e, h => by
    rw [ExprCompare.eval, ExprCompare.eval]
    exact ExprAddSub.eval_lowers h₀ e h
  | .exprJustAdd l r, h => by
    rw [ExprCompare.eval, ExprCompare.eval]
    exact (ExprAddSub.eval_lowers h₀ l h.left).bind fun _ =>
      (ExprCompare.eval_lowers h₀ r h.right).bind fun _ => .refl _
  | .exprJustSub l r, h => by
    rw [ExprCompare.eval, ExprCompare.eval]
    exact (ExprAddSub.eval_lowers h₀ l h.left).bind fun _ =>
      (ExprCompare.eval_lowers h₀ r h.right).bind fun _ => .refl _

theorem ExprAddSub.eval_lowers (h₀ : env₀.LowerThan env) : (e : ExprAddSub) →
    IdentsLower env env₀ e.idents → Lowers (e.eval env) (e.eval env₀)
  | .opMulDivMod l op r, h => by
    rw [ExprAddSub.eval, ExprAddSub.eval]
    exact (ExprAddSub.eval_lowers h₀ l h.left).bind fun a =>
      (ExprMulDivModEtc.eval_lowers h₀ r h.right).bind fun b => opMulDivModValue_lowers h₀ op a b
  | .opBitwise l op r, h => by
    rw [ExprAddSub.eval, ExprAddSub.eval]
    exact (ExprAddSub.eval_lowers h₀ l h.left).bind fun _ =>
      (ExprMulDivModEtc.eval_lowers h₀ r h.right).bind fun _ => .refl _
  | .exprMulDivModEtc e, h => by
    rw [ExprAddSub.eval, ExprAddSub.eval]
    exact ExprMulDivModEtc.eval_lowers h₀ e h

theorem ExprMulDivModEtc.eval_lowers (h₀ : env₀.LowerThan env) : (e : ExprMulDivModEtc) →
    IdentsLower env env₀ e.idents → Lowers (e.eval env) (e.eval env₀)
  | .exprUnary e, h => by
    rw [ExprMulDivModEtc.eval, ExprMulDivModEtc.eval]
    exact ExprUnary.eval_lowers h₀ e h
  | .numExpr n, _ => by
    rw [ExprMulDivModEtc.eval, ExprMulDivModEtc.eval]
    exact .refl _
  | .identName n, h => by
    rw [ExprMulDivModEtc.eval, ExprMulDivModEtc.eval]
    exact h n (List.mem_singleton_self n)
  | .currPc, _ => by
    rw [ExprMulDivModEtc.eval, ExprMulDivModEtc.eval, h₀.pc]
    exact .refl _
  | .paren e, h => by
    rw [ExprMulDivModEtc.eval, ExprMulDivModEtc.eval]
    exact Expr.eval_lowers h₀ e h

theorem ExprUnary.eval_lowers (h₀ : env₀.LowerThan env) : (e : ExprUnary) →
    IdentsLower env env₀ e.idents → Lowers (e.eval env) (e.eval env₀)
  | .exprBitInvert e, h => by
    rw [ExprUnary.eval, ExprUnary.eval]
    exact (Expr.eval_lowers h₀ e h).bind fun _ => .refl _
  | .exprNegate e, h => by
    rw [ExprUnary.eval, ExprUnary.eval]
    exact (Expr.eval_lowers h₀ e h).bind fun _ => .refl _
  | .exprLogNot e, h => by
    rw [ExprUnary.eval, ExprUnary.eval]
    exact (Expr.eval_lowers h₀ e h).bind fun _ => .refl _

end

end Lowering

end Frost32.Asm
