import Frost32.Asm.DocWords

namespace Frost32.Asm

open Fallible

/-!
# How a line can fail

The errors that lines of the source end in, as rules for any property of errors.

* `Expr.errorsIn` — the errors of an expression are its own and those of its identifiers.
* `Item.errorsIn` — **the errors of a line without labels are its own and those of its
  expressions**.
* `Item.effect_eq_error` — a line fails as its expression does.
* `stepItem_plain_errorsIn`, `stepItem_label_errorsIn` — the errors of lines and of labels.
* `stepItem_enter_errorsIn`, `stepItem_leave_errorsIn` — the errors of scopes.
-/

/-! ### Expressions -/

/-- The errors of the expression visitors themselves. -/
def exprErrors : List AsmError :=
  [.trap, .err "Error:  Cannot divide by zero!", .err "visitNumExpr():  Eek!",
    .err "Sorry, binary literal numbers are not supported yet."]

section Expressions

variable {P : AsmError → Prop}

theorem NumExpr.errorsIn (hP : ∀ x ∈ exprErrors, P x) (n : NumExpr) : ErrorsIn P n.eval := by
  cases n with
  | decNum ds => exact errorsIn_ok ..
  | hexNum ds =>
    simp only [NumExpr.eval]
    cases hexValue (0 : BitVec 64) ds.val with
    | some v => exact errorsIn_ok ..
    | none => exact errorsIn_error (hP _ (by decide))
  | binNum ds => exact errorsIn_error (hP _ (by decide))

theorem opMulDivModValue_errorsIn (hP : ∀ x ∈ exprErrors, P x) (env : Env) (op : TokOpMulDivMod)
    (left right : BitVec 64) : ErrorsIn P (opMulDivModValue env op left right) := by
  have hdiv : ∀ f, ErrorsIn P (signedDivValue f left right) := by
    intro f
    unfold signedDivValue
    split
    · exact errorsIn_error (hP _ (by decide))
    · exact errorsIn_ok ..
  cases op with
  | mul => exact errorsIn_ok ..
  | mod => exact hdiv _
  | div =>
    simp only [opMulDivModValue]
    split
    · exact hdiv _
    · split
      · exact errorsIn_error (hP _ (by decide))
      · exact errorsIn_ok ..

/-- Two operands one after the other. -/
theorem errorsIn_binary {α : Type} {l r : Except AsmError (BitVec 64)}
    {f : BitVec 64 → BitVec 64 → Except AsmError α} (hl : ErrorsIn P l) (hr : ErrorsIn P r)
    (hf : ∀ a b, ErrorsIn P (f a b)) : ErrorsIn P (l >>= fun a => r >>= f a) :=
  hl.bind fun a => hr.bind (hf a)

variable {env : Env}

mutual

/-- **The errors of an expression are its own and those of its identifiers.** -/
theorem Expr.errorsIn (hP : ∀ x ∈ exprErrors, P x) : (e : Expr) →
    (∀ n ∈ e.idents, ErrorsIn P (n.eval env)) → ErrorsIn P (e.eval env)
  | .opLogical l op r, h => by
    rw [Expr.idents, List.forall_mem_append] at h
    rw [Expr.eval]
    exact errorsIn_binary (l.errorsIn hP h.1) (r.errorsIn hP h.2) fun _ _ => errorsIn_ok ..
  | .exprLogical e, h => by
    rw [Expr.eval]
    exact e.errorsIn hP h

theorem ExprLogical.errorsIn (hP : ∀ x ∈ exprErrors, P x) : (e : ExprLogical) →
    (∀ n ∈ e.idents, ErrorsIn P (n.eval env)) → ErrorsIn P (e.eval env)
  | .opCompare l op r, h => by
    rw [ExprLogical.idents, List.forall_mem_append] at h
    rw [ExprLogical.eval]
    exact errorsIn_binary (l.errorsIn hP h.1) (r.errorsIn hP h.2) fun _ _ => errorsIn_ok ..
  | .exprCompare e, h => by
    rw [ExprLogical.eval]
    exact e.errorsIn hP h

theorem ExprCompare.errorsIn (hP : ∀ x ∈ exprErrors, P x) : (e : ExprCompare) →
    (∀ n ∈ e.idents, ErrorsIn P (n.eval env)) → ErrorsIn P (e.eval env)
  | .exprAddSub e, h => by
    rw [ExprCompare.eval]
    exact e.errorsIn hP h
  | .exprJustAdd l r, h => by
    rw [ExprCompare.idents, List.forall_mem_append] at h
    rw [ExprCompare.eval]
    exact errorsIn_binary (l.errorsIn hP h.1) (r.errorsIn hP h.2) fun _ _ => errorsIn_ok ..
  | .exprJustSub l r, h => by
    rw [ExprCompare.idents, List.forall_mem_append] at h
    rw [ExprCompare.eval]
    exact errorsIn_binary (l.errorsIn hP h.1) (r.errorsIn hP h.2) fun _ _ => errorsIn_ok ..

theorem ExprAddSub.errorsIn (hP : ∀ x ∈ exprErrors, P x) : (e : ExprAddSub) →
    (∀ n ∈ e.idents, ErrorsIn P (n.eval env)) → ErrorsIn P (e.eval env)
  | .opMulDivMod l op r, h => by
    rw [ExprAddSub.idents, List.forall_mem_append] at h
    rw [ExprAddSub.eval]
    exact errorsIn_binary (l.errorsIn hP h.1) (r.errorsIn hP h.2) fun a b =>
      opMulDivModValue_errorsIn hP env op a b
  | .opBitwise l op r, h => by
    rw [ExprAddSub.idents, List.forall_mem_append] at h
    rw [ExprAddSub.eval]
    exact errorsIn_binary (l.errorsIn hP h.1) (r.errorsIn hP h.2) fun _ _ => errorsIn_ok ..
  | .exprMulDivModEtc e, h => by
    rw [ExprAddSub.eval]
    exact e.errorsIn hP h

theorem ExprMulDivModEtc.errorsIn (hP : ∀ x ∈ exprErrors, P x) :
    (e : ExprMulDivModEtc) → (∀ n ∈ e.idents, ErrorsIn P (n.eval env)) → ErrorsIn P (e.eval env)
  | .exprUnary e, h => by
    rw [ExprMulDivModEtc.eval]
    exact e.errorsIn hP h
  | .numExpr n, _ => by
    rw [ExprMulDivModEtc.eval]
    exact n.errorsIn hP
  | .identName n, h => by
    rw [ExprMulDivModEtc.eval]
    exact h n (List.mem_singleton_self n)
  | .currPc, _ => by
    rw [ExprMulDivModEtc.eval]
    exact errorsIn_ok ..
  | .paren e, h => by
    rw [ExprMulDivModEtc.eval]
    exact e.errorsIn hP h

theorem ExprUnary.errorsIn (hP : ∀ x ∈ exprErrors, P x) : (e : ExprUnary) →
    (∀ n ∈ e.idents, ErrorsIn P (n.eval env)) → ErrorsIn P (e.eval env)
  | .exprBitInvert e, h => by
    rw [ExprUnary.eval]
    exact (e.errorsIn hP h).bind fun _ => errorsIn_ok ..
  | .exprNegate e, h => by
    rw [ExprUnary.eval]
    exact (e.errorsIn hP h).bind fun _ => errorsIn_ok ..
  | .exprLogNot e, h => by
    rw [ExprUnary.eval]
    exact (e.errorsIn hP h).bind fun _ => errorsIn_ok ..

end

end Expressions

/-- The errors of an identifier: it is unknown, or it is looked for outside of all scopes. -/
theorem IdentName.errorsIn {P : AsmError → Prop} {s : Assembler}
    (hunknown : ∀ name, P (unknownSymbol name)) (hroot : s.currScopeNode = 0 → P .undefined)
    (n : IdentName) : ErrorsIn P (n.eval s.env) where
  of_error := by
    intro e he
    unfold IdentName.eval at he
    split at he
    · cases he
    · change s.symTbl.addrFrom s.currScopeNode n.text = _ at he
      unfold SymbolTable.addrFrom at he
      split at he
      · split at he
        · cases he
        · cases he
          exact hunknown _
      · cases he
        split
        · rename_i hcurr
          exact hroot hcurr
        · exact hunknown _

/-! ### Lines without labels -/

/-- The error of a line that is refused, which has no operand: a name that is in no opcode map
    or a token that the visitor does not look for. -/
def refusals : List AsmError := [.outOfRange, .err "visitInstrOpGrp0ThreeRegs():  Eek!"]

theorem Instruction.effect_of_refused {i : Instruction} (h : i.Refused) (env : Env) :
    i.exprs = [] ∧ ∃ x ∈ refusals, i.effect env = .error x := by
  cases i with
  | instrOpGrp0ThreeRegs t rA rB rC =>
    refine ⟨rfl, ?_⟩
    rcases h with h | h | h
    · exact ⟨.outOfRange, by decide, by rw [Instruction.effect, h]; rfl⟩
    · exact ⟨.outOfRange, by decide, by rw [Instruction.effect, h]; rfl⟩
    · exact ⟨.err "visitInstrOpGrp0ThreeRegs():  Eek!", by decide, by
        rw [Instruction.effect, h]; rfl⟩
  | _ => cases h

theorem PseudoInstruction.effect_of_refused {p : PseudoInstruction} (h : p.Refused) (env : Env) :
    p.exprs = [] ∧ ∃ x ∈ refusals, p.effect env = .error x := by
  cases p with
  | pseudoInstrOpAluOpTwoReg t rA rB =>
    refine ⟨rfl, ?_⟩
    rcases h with h | h
    · exact ⟨.outOfRange, by decide, by rw [PseudoInstruction.effect, h]; rfl⟩
    · exact ⟨.outOfRange, by decide, by rw [PseudoInstruction.effect, h]; rfl⟩
  | _ => cases h

/-- **A line without labels is refused, or it fails exactly as its operand does.** -/
theorem Item.effect_cases (it : Item) (env : Env) :
    (it.exprs = [] ∧ ∃ x ∈ refusals, it.effect env = .error x) ∨
      ∃ f : BitVec 64 → Effect, it.effect env = (operandValue env it.exprs).map f := by
  have hbind : ∀ (e : Expr) (f : BitVec 64 → Effect),
      (e.eval env >>= fun n => .ok (f n)) = (operandValue env [e]).map f := by
    intro e f
    show _ = (e.eval env).map f
    cases e.eval env <;> rfl
  cases it with
  | enter | leave | label n => exact .inr ⟨fun _ => {}, rfl⟩
  | instruction i =>
    by_cases h : i.Refused
    · exact .inl (i.effect_of_refused h env)
    · exact .inr ⟨_, i.encodesWith env h⟩
  | pseudoInstruction p =>
    by_cases h : p.Refused
    · exact .inl (p.effect_of_refused h env)
    · exact .inr ⟨_, p.encodesWith env h⟩
  | org e => exact .inr ⟨_, hbind e fun n => { jump := some n }⟩
  | space e => exact .inr ⟨_, hbind e fun n => { jump := some (env.pc + n) }⟩
  | db e => exact .inr ⟨_, hbind e fun n => { data := [.b32 (n.setWidth 32)] }⟩
  | db16 e => exact .inr ⟨_, hbind e fun n => { data := [.b16 (n.setWidth 16)] }⟩
  | db8 e => exact .inr ⟨_, hbind e fun n => { data := [.b8 (n.setWidth 8)] }⟩

/-- A line has at most one operand. -/
theorem Item.exprs_of_mem {it : Item} {e : Expr} (h : e ∈ it.exprs) : it.exprs = [e] := by
  have hone : ∀ {es : List Expr}, es.length ≤ 1 → e ∈ es → es = [e] := by
    intro es hlength hmem
    match es, hlength, hmem with
    | [e'], _, hmem => rw [List.mem_singleton.mp hmem]
  apply hone _ h
  cases it with
  | instruction i => cases i <;> simp [Item.exprs, Instruction.exprs]
  | pseudoInstruction p => cases p <;> simp [Item.exprs, PseudoInstruction.exprs]
  | enter | leave | label n => exact Nat.zero_le 1
  | org e | space e | db e | db16 e | db8 e => exact Nat.le_refl 1

/-- An operand that fails is an error of its line. -/
theorem Item.effect_eq_error {it : Item} {env : Env} {e : Expr} (he : e ∈ it.exprs) {x : AsmError}
    (h : e.eval env = .error x) : it.effect env = .error x := by
  have hexprs := it.exprs_of_mem he
  rcases it.effect_cases env with ⟨hnil, -⟩ | ⟨f, hf⟩
  · rw [hexprs] at hnil
    cases hnil
  · rw [hf, hexprs]
    show (e.eval env).map f = _
    rw [h]
    rfl

/-- **The errors of a line without labels are refusals and those of its operand.** -/
theorem Item.errorsIn {P : AsmError → Prop} (hP : ∀ x ∈ refusals, P x) {env : Env} (it : Item)
    (h : ∀ e ∈ it.exprs, ErrorsIn P (e.eval env)) : ErrorsIn P (it.effect env) where
  of_error := by
    intro x hx
    rcases it.effect_cases env with ⟨-, y, hy, hrefused⟩ | ⟨f, hf⟩
    · rw [hrefused] at hx
      cases hx
      exact hP x hy
    · rw [hf] at hx
      cases hexprs : it.exprs with
      | nil =>
        rw [hexprs] at hx
        cases hx
      | cons e es =>
        rw [hexprs] at hx h
        cases heval : e.eval env with
        | ok n =>
          rw [operandValue, heval] at hx
          cases hx
        | error y =>
          rw [operandValue, heval] at hx
          cases hx
          exact (h e List.mem_cons_self).of_error x heval

section Steps

variable {P : AsmError → Prop} {s : Assembler} (hroot : s.currScopeNode = 0 → P .undefined)
include hroot

theorem stepItem_plain_errorsIn (hexpr : ∀ x ∈ exprErrors, P x) (hrefused : ∀ x ∈ refusals, P x)
    (hunknown : ∀ name, P (unknownSymbol name)) {it : Item} (h : it.plain = true) :
    ErrorsIn P (stepItem it s) where
  of_error := by
    intro x hx
    rw [stepItem_of_plain h] at hx
    cases heffect : it.effect s.env with
    | ok ef =>
      rw [heffect] at hx
      cases hx
    | error y =>
      rw [heffect] at hx
      cases hx
      refine (it.errorsIn hrefused ?_).of_error x heffect
      intro e _
      exact e.errorsIn hexpr fun n _ => n.errorsIn hunknown hroot

theorem stepItem_label_errorsIn {n : IdentName} (hdup : P (identicalIdentifiers n.text)) :
    ErrorsIn P (stepItem (.label n) s) where
  of_error := by
    intro x hx
    by_cases hfinds : s.FindsLabel n.text
    · rw [stepItem_label_of_finds hfinds] at hx
      cases hx
      exact hdup
    · rw [stepItem_label_of_not_finds hfinds] at hx
      rcases hfind : s.symTbl.findOrInsert s.currScopeNode n.text with ⟨v | v, tbl⟩
      · -- only outside of all scopes nothing is found or inserted
        rw [hfind] at hx
        cases hx
        apply hroot
        by_contra hcurr
        cases hsearch : s.symTbl.find s.currScopeNode n.text with
        | none =>
          rw [SymbolTable.findOrInsert_of_none hsearch, if_neg hcurr] at hfind
          cases hfind
        | some v =>
          unfold SymbolTable.findOrInsert at hfind
          rw [hsearch] at hfind
          cases hfind
      · rw [hfind] at hx
        cases hx

end Steps

/-! ### Scopes -/

section Scopes

variable {P : AsmError → Prop} {s : Assembler} (hstack : s.scopeChildNumStack = [] → P .undefined)
include hstack

theorem stepItem_enter_errorsIn (hchild : P .outOfRange) : ErrorsIn P (stepItem .enter s) where
  of_error := by
    intro e h
    by_cases hpass : s.pass = 0
    · rw [stepItem_enter_zero hpass] at h
      cases h
    · unfold stepItem visitItem enterScope getTopScopeChildNum at h
      cases hs : s.scopeChildNumStack with
      | nil =>
        simp [hpass, hs] at h
        cases h
        exact hstack hs
      | cons i cs =>
        cases hnode : (s.symTbl.node s.currScopeNode).children[i]? with
        | none =>
          simp [hpass, hs, hnode, orThrow] at h
          cases h
          exact hchild
        | some v =>
          simp [hpass, hs, hnode, orThrow, pushScopeChildNum] at h

theorem stepItem_leave_errorsIn (hroot : P (.err "ScopedTableBase::rmscope():  Eek!\n")) :
    ErrorsIn P (stepItem .leave s) where
  of_error := by
    intro e h
    by_cases hpass : s.pass = 0
    · by_cases hcurr : s.currScopeNode = 0
      · unfold stepItem visitItem leaveScope SymbolTable.rmscope at h
        simp [hpass, hcurr] at h
        cases h
        exact hroot
      · rw [stepItem_leave_zero hpass hcurr] at h
        cases h
    · unfold stepItem visitItem leaveScope popScopeChildNum at h
      cases hs : s.scopeChildNumStack with
      | nil =>
        simp [hpass, hs] at h
        cases h
        exact hstack hs
      | cons i cs =>
        cases cs with
        | nil => simp [hpass, hs] at h
        | cons n cs => simp [hpass, hs, pushScopeChildNum] at h

end Scopes

end Frost32.Asm
