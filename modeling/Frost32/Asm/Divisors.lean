import Frost32.Asm.Errors
import Frost32.Asm.KnownLabels

namespace Frost32.Asm

open Fallible

/-!
# Divisors that are 0

`visitExprAddSub` looks at the right operand of `/` before it divides, but not at that of `%`.

* `Expr.ops` — the operations `*`, `/` and `%` that the visitors of an expression perform, with
  the values they pop.
* `Expr.eval_eq_trap_iff` — **an expression traps exactly if one of them does.**
* `passZero_eq_trap_iff` — so does pass 0.
* `DivisorsHandled` — a zero divisor gives 0 in pass 0 and an error in pass 1, and pass 0 does
  not trap if none of the divisors is 0 with the final addresses.
* `divisorsHandled_iff` — this is so exactly if no right operand of `%` is 0, and the least
  number is not divided by -1.
-/

/-! ### The operations of an expression -/

/-- One operation `*`, `/` or `%`, with the operands that are popped for it. -/
structure MulDivModOp where
  op : TokOpMulDivMod
  left : BitVec 64
  right : BitVec 64
  deriving DecidableEq

namespace MulDivModOp

/-- The visitor of the operation. -/
def visit (o : MulDivModOp) : AsmM Unit := opMulDivModVisit o.op o.left o.right

/-- A quotient or remainder by 0. -/
def DividesByZero (o : MulDivModOp) : Prop := o.op ≠ .mul ∧ o.right = 0

def IsZeroMod (o : MulDivModOp) : Prop := o.op = .mod ∧ o.right = 0

/-- The one quotient that does not fit, and the remainder that goes with it. -/
def Overflows (o : MulDivModOp) : Prop :=
  o.op ≠ .mul ∧ o.left = BitVec.intMin 64 ∧ o.right = -1

instance (o : MulDivModOp) : Decidable o.DividesByZero := inferInstanceAs (Decidable (_ ∧ _))

instance (o : MulDivModOp) : Decidable o.IsZeroMod := inferInstanceAs (Decidable (_ ∧ _))

instance (o : MulDivModOp) : Decidable o.Overflows := inferInstanceAs (Decidable (_ ∧ _ ∧ _))

end MulDivModOp

/-- Two operands one after the other: the second is visited if the first has a value, and `last`
    is what is done if both have. -/
def binaryOps (l r : Except AsmError (BitVec 64)) (opsL opsR : List MulDivModOp)
    (last : BitVec 64 → BitVec 64 → List MulDivModOp) : List MulDivModOp :=
  opsL ++
    match l with
    | .error _ => []
    | .ok a =>
      opsR ++
        match r with
        | .error _ => []
        | .ok b => last a b

mutual

def Expr.ops (env : Env) : Expr → List MulDivModOp
  | .opLogical l _ r => binaryOps (l.eval env) (r.eval env) (l.ops env) (r.ops env) fun _ _ => []
  | .exprLogical e => e.ops env

def ExprLogical.ops (env : Env) : ExprLogical → List MulDivModOp
  | .opCompare l _ r => binaryOps (l.eval env) (r.eval env) (l.ops env) (r.ops env) fun _ _ => []
  | .exprCompare e => e.ops env

def ExprCompare.ops (env : Env) : ExprCompare → List MulDivModOp
  | .exprAddSub e => e.ops env
  | .exprJustAdd l r => binaryOps (l.eval env) (r.eval env) (l.ops env) (r.ops env) fun _ _ => []
  | .exprJustSub l r => binaryOps (l.eval env) (r.eval env) (l.ops env) (r.ops env) fun _ _ => []

def ExprAddSub.ops (env : Env) : ExprAddSub → List MulDivModOp
  | .opMulDivMod l op r =>
    binaryOps (l.eval env) (r.eval env) (l.ops env) (r.ops env) fun a b => [⟨op, a, b⟩]
  | .opBitwise l _ r => binaryOps (l.eval env) (r.eval env) (l.ops env) (r.ops env) fun _ _ => []
  | .exprMulDivModEtc e => e.ops env

def ExprMulDivModEtc.ops (env : Env) : ExprMulDivModEtc → List MulDivModOp
  | .exprUnary e => e.ops env
  | .numExpr _ => []
  | .identName _ => []
  | .currPc => []
  | .paren e => e.ops env

def ExprUnary.ops (env : Env) : ExprUnary → List MulDivModOp
  | .exprBitInvert e => e.ops env
  | .exprNegate e => e.ops env
  | .exprLogNot e => e.ops env

end

/-! ### Traps -/

namespace MulDivModOp

def Traps (o : MulDivModOp) : Prop := o.IsZeroMod ∨ o.Overflows

theorem signedDivValue_eq_trap_iff (f : BitVec 64 → BitVec 64 → BitVec 64)
    (left right : BitVec 64) : signedDivValue f left right = .error .trap ↔
      right = 0 ∨ left = BitVec.intMin 64 ∧ right = -1 := by
  unfold signedDivValue
  by_cases h : right = 0 ∨ left = BitVec.intMin 64 ∧ right = -1
  · rw [if_pos h]
    exact iff_of_true rfl h
  · rw [if_neg h]
    exact iff_of_false (fun he => by cases he) h

/-- **A remainder by 0 traps, a quotient does not.** -/
theorem value_eq_trap_iff (env : Env) (o : MulDivModOp) :
    opMulDivModValue env o.op o.left o.right = .error .trap ↔ o.Traps := by
  obtain ⟨op, left, right⟩ := o
  unfold Traps IsZeroMod Overflows opMulDivModValue
  cases op with
  | mul => simp
  | mod => simp [signedDivValue_eq_trap_iff]
  | div =>
    by_cases hzero : right = 0
    · subst hzero
      by_cases hpass : env.pass = 0 <;> simp [hpass]
    · show (if right ≠ 0 then _ else _) = _ ↔ _
      rw [if_pos hzero, signedDivValue_eq_trap_iff]
      simp [show ¬right = 0#64 from hzero]

end MulDivModOp

/-- The outcome traps exactly if one of the operations does. -/
def TrapsWith (r : Except AsmError (BitVec 64)) (ops : List MulDivModOp) : Prop :=
  r = .error .trap ↔ ∃ o ∈ ops, o.Traps

theorem trapsWith_ok (n : BitVec 64) : TrapsWith (.ok n) [] := by
  constructor
  · intro h
    cases h
  · rintro ⟨o, ho, -⟩
    cases ho

theorem trapsWith_binary {l r : Except AsmError (BitVec 64)} {opsL opsR : List MulDivModOp}
    {f : BitVec 64 → BitVec 64 → Except AsmError (BitVec 64)}
    {last : BitVec 64 → BitVec 64 → List MulDivModOp} (hl : TrapsWith l opsL)
    (hr : TrapsWith r opsR) (hlast : ∀ a b, TrapsWith (f a b) (last a b)) :
    TrapsWith (l >>= fun a => r >>= f a) (binaryOps l r opsL opsR last) := by
  -- an operand that has a value performs nothing that traps
  have hvalue : ∀ {x : Except AsmError (BitVec 64)} {ops : List MulDivModOp} {n : BitVec 64},
      TrapsWith x ops → x = .ok n → ¬∃ o ∈ ops, o.Traps := by
    intro x ops n hx hn hops
    rw [hx.mpr hops] at hn
    cases hn
  unfold TrapsWith binaryOps
  cases l with
  | error e =>
    rw [List.append_nil]
    exact hl
  | ok a =>
    have hleft := hvalue hl rfl
    cases r with
    | error e =>
      show (Except.error e : Except AsmError (BitVec 64)) = .error .trap ↔
        ∃ o ∈ opsL ++ (opsR ++ []), o.Traps
      have hfails : Except.error e = .error .trap ↔ ∃ o ∈ opsR, o.Traps := hr
      rw [List.append_nil, hfails]
      simp only [List.mem_append, or_and_right, exists_or, hleft, false_or]
    | ok b =>
      have hright := hvalue hr rfl
      show f a b = .error .trap ↔ ∃ o ∈ opsL ++ (opsR ++ last a b), o.Traps
      have hboth : f a b = .error .trap ↔ ∃ o ∈ last a b, o.Traps := hlast a b
      rw [hboth]
      simp only [List.mem_append, or_and_right, exists_or, hleft, hright, false_or]

theorem trapsWith_map {r : Except AsmError (BitVec 64)} {ops : List MulDivModOp}
    (h : TrapsWith r ops) (f : BitVec 64 → BitVec 64) :
    TrapsWith (r >>= fun a => .ok (f a)) ops := by
  cases r with
  | error e => exact h
  | ok a =>
    constructor
    · intro he
      cases he
    · intro hops
      cases h.mpr hops

section Traps

variable {env : Env}

/-- No identifier traps. -/
abbrev IdentsDoNotTrap (env : Env) : Prop := ∀ n : IdentName, n.eval env ≠ .error .trap

mutual

/-- **An expression traps exactly if one of its operations does.** -/
theorem Expr.eval_eq_trap_iff (hident : IdentsDoNotTrap env) :
    (e : Expr) → TrapsWith (e.eval env) (e.ops env)
  | .opLogical l op r => by
    rw [Expr.eval, Expr.ops]
    exact trapsWith_binary (l.eval_eq_trap_iff hident) (r.eval_eq_trap_iff hident)
      fun _ _ => trapsWith_ok _
  | .exprLogical e => by
    rw [Expr.eval, Expr.ops]
    exact e.eval_eq_trap_iff hident

theorem ExprLogical.eval_eq_trap_iff (hident : IdentsDoNotTrap env) :
    (e : ExprLogical) → TrapsWith (e.eval env) (e.ops env)
  | .opCompare l op r => by
    rw [ExprLogical.eval, ExprLogical.ops]
    exact trapsWith_binary (l.eval_eq_trap_iff hident) (r.eval_eq_trap_iff hident)
      fun _ _ => trapsWith_ok _
  | .exprCompare e => by
    rw [ExprLogical.eval, ExprLogical.ops]
    exact e.eval_eq_trap_iff hident

theorem ExprCompare.eval_eq_trap_iff (hident : IdentsDoNotTrap env) :
    (e : ExprCompare) → TrapsWith (e.eval env) (e.ops env)
  | .exprAddSub e => by
    rw [ExprCompare.eval, ExprCompare.ops]
    exact e.eval_eq_trap_iff hident
  | .exprJustAdd l r => by
    rw [ExprCompare.eval, ExprCompare.ops]
    exact trapsWith_binary (l.eval_eq_trap_iff hident) (r.eval_eq_trap_iff hident)
      fun _ _ => trapsWith_ok _
  | .exprJustSub l r => by
    rw [ExprCompare.eval, ExprCompare.ops]
    exact trapsWith_binary (l.eval_eq_trap_iff hident) (r.eval_eq_trap_iff hident)
      fun _ _ => trapsWith_ok _

theorem ExprAddSub.eval_eq_trap_iff (hident : IdentsDoNotTrap env) :
    (e : ExprAddSub) → TrapsWith (e.eval env) (e.ops env)
  | .opMulDivMod l op r => by
    rw [ExprAddSub.eval, ExprAddSub.ops]
    apply trapsWith_binary (l.eval_eq_trap_iff hident) (r.eval_eq_trap_iff hident)
    intro a b
    have hop := MulDivModOp.value_eq_trap_iff env ⟨op, a, b⟩
    unfold TrapsWith
    rw [hop]
    simp
  | .opBitwise l op r => by
    rw [ExprAddSub.eval, ExprAddSub.ops]
    exact trapsWith_binary (l.eval_eq_trap_iff hident) (r.eval_eq_trap_iff hident)
      fun _ _ => trapsWith_ok _
  | .exprMulDivModEtc e => by
    rw [ExprAddSub.eval, ExprAddSub.ops]
    exact e.eval_eq_trap_iff hident

theorem ExprMulDivModEtc.eval_eq_trap_iff (hident : IdentsDoNotTrap env) :
    (e : ExprMulDivModEtc) → TrapsWith (e.eval env) (e.ops env)
  | .exprUnary e => by
    rw [ExprMulDivModEtc.eval, ExprMulDivModEtc.ops]
    exact e.eval_eq_trap_iff hident
  | .numExpr n => by
    rw [ExprMulDivModEtc.eval, ExprMulDivModEtc.ops]
    refine iff_of_false ?_ fun ⟨o, ho, _⟩ => by cases ho
    cases n with
    | decNum ds => exact fun h => by cases h
    | hexNum ds =>
      simp only [NumExpr.eval]
      cases hexValue (0 : BitVec 64) ds.val with
      | some v => exact fun h => by cases h
      | none => exact fun h => by cases h
    | binNum ds => exact fun h => by cases h
  | .identName n => by
    rw [ExprMulDivModEtc.eval, ExprMulDivModEtc.ops]
    exact iff_of_false (hident n) fun ⟨o, ho, _⟩ => by cases ho
  | .currPc => by
    rw [ExprMulDivModEtc.eval, ExprMulDivModEtc.ops]
    exact trapsWith_ok _
  | .paren e => by
    rw [ExprMulDivModEtc.eval, ExprMulDivModEtc.ops]
    exact e.eval_eq_trap_iff hident

theorem ExprUnary.eval_eq_trap_iff (hident : IdentsDoNotTrap env) :
    (e : ExprUnary) → TrapsWith (e.eval env) (e.ops env)
  | .exprBitInvert e => by
    rw [ExprUnary.eval, ExprUnary.ops]
    exact trapsWith_map (e.eval_eq_trap_iff hident) _
  | .exprNegate e => by
    rw [ExprUnary.eval, ExprUnary.ops]
    exact trapsWith_map (e.eval_eq_trap_iff hident) _
  | .exprLogNot e => by
    rw [ExprUnary.eval, ExprUnary.ops]
    exact trapsWith_map (e.eval_eq_trap_iff hident) _

end

end Traps

/-! ### Lines and passes -/

/-- Pass `p` performs the operation in an operand of some line, which it visits in the state
    `s`. -/
def Performs (showWords : Bool) (program : Program) (p : Nat) (s : Assembler)
    (o : MulDivModOp) : Prop :=
  ∃ pre it post e, program.items = pre ++ it :: post ∧
    afterItems showWords program p pre = .ok s ∧ e ∈ it.exprs ∧ o ∈ e.ops s.env

theorem idents_do_not_trap (s : Assembler) : IdentsDoNotTrap s.env := by
  intro n h
  have herrors : ErrorsIn (· ≠ .trap) (n.eval s.env) :=
    n.errorsIn (fun _ he => by cases he) fun _ he => by cases he
  exact herrors.of_error _ h rfl

/-- Scopes and labels do not trap. -/
theorem stepItem_ne_trap {it : Item} {s : Assembler} (hplain : it.plain = false) :
    stepItem it s ≠ .error .trap := by
  intro h
  cases it with
  | enter =>
    exact (stepItem_enter_errorsIn (P := (· ≠ .trap)) (fun _ he => by cases he)
      (fun he => by cases he)).of_error _ h rfl
  | leave =>
    exact (stepItem_leave_errorsIn (P := (· ≠ .trap)) (fun _ he => by cases he)
      (fun he => by cases he)).of_error _ h rfl
  | label n =>
    exact (stepItem_label_errorsIn (P := (· ≠ .trap)) (fun _ he => by cases he)
      (fun he => by cases he)).of_error _ h rfl
  | _ => cases hplain

/-- **A line traps exactly if an operation of its operand does.** -/
theorem stepItem_eq_trap_iff (it : Item) (s : Assembler) :
    stepItem it s = .error .trap ↔ ∃ e ∈ it.exprs, ∃ o ∈ e.ops s.env, o.Traps := by
  constructor
  · intro h
    by_contra hnone
    have hexprs : ∀ e ∈ it.exprs, ErrorsIn (· ≠ .trap) (e.eval s.env) := by
      intro e he
      constructor
      rintro x hx rfl
      exact hnone ⟨e, he, (e.eval_eq_trap_iff (idents_do_not_trap s)).mp hx⟩
    cases hplain : it.plain with
    | true =>
      rw [stepItem_of_plain hplain] at h
      cases heffect : it.effect s.env with
      | ok ef =>
        rw [heffect] at h
        cases h
      | error x =>
        rw [heffect] at h
        cases h
        exact (it.errorsIn (P := (· ≠ .trap)) (by decide) hexprs).of_error _ heffect rfl
    | false => exact stepItem_ne_trap hplain h
  · rintro ⟨e, he, hops⟩
    have hplain : it.plain = true := by
      cases it with
      | enter | leave | label n => cases he
      | _ => rfl
    have htrap := (e.eval_eq_trap_iff (idents_do_not_trap s)).mpr hops
    rw [stepItem_of_plain hplain, Item.effect_eq_error he htrap]
    rfl

/-- **Pass 0 traps exactly if it performs an operation that does.** -/
theorem passZero_eq_trap_iff (showWords : Bool) (program : Program) :
    afterItems showWords program 0 program.items = .error .trap ↔
      ∃ s o, Performs showWords program 0 s o ∧ o.Traps := by
  constructor
  · intro h
    obtain ⟨q, hq, pre, it, post, s, hitems, hs, hit⟩ := exists_item_of_error h
    obtain rfl : q = 0 := Nat.le_zero.mp hq
    obtain ⟨e, he, o, ho, htraps⟩ := (stepItem_eq_trap_iff it s).mp hit
    exact ⟨s, o, ⟨pre, it, post, e, hitems, hs, he, ho⟩, htraps⟩
  · rintro ⟨s, o, ⟨pre, it, post, e, hitems, hs, he, ho⟩, htraps⟩
    have hit := (stepItem_eq_trap_iff it s).mpr ⟨e, he, o, ho, htraps⟩
    obtain ⟨s₀, hs₀, hrun⟩ := bind_eq_ok.mp hs
    rw [afterItems, hs₀, hitems]
    exact runList_eq_error hrun hit

/-! ### Divisors that are 0 -/

/-- The visitor of a quotient or remainder by 0 pushes 0 in pass 0 and reports an error in
    pass 1. -/
structure ZeroHandled (o : MulDivModOp) (s : Assembler) : Prop where
  passZero : s.pass = 0 → o.visit.run s = .ok ((), s.pushNum 0)
  passOne : s.pass = 1 → ∃ msg, o.visit.run s = .error (.err msg)

theorem visit_run (o : MulDivModOp) (s : Assembler) :
    o.visit.run s = pushing s (opMulDivModValue s.env o.op o.left o.right) :=
  opMulDivModVisit_run o.op o.left o.right s

/-- A quotient by 0 is 0 in pass 0. -/
theorem opMulDivModValue_div_zero (env : Env) (left : BitVec 64) :
    opMulDivModValue env .div left 0 =
      if env.pass ≠ 0 then .error (.err "Error:  Cannot divide by zero!") else .ok 0 := by
  rw [opMulDivModValue, if_neg (fun h => h rfl)]

/-- **A division by 0 is handled exactly if it is not a remainder.** -/
theorem zeroHandled_iff {o : MulDivModOp} (ho : o.DividesByZero) {s : Assembler}
    (hpass : s.pass < 2) : ZeroHandled o s ↔ ¬o.IsZeroMod := by
  obtain ⟨op, left, right⟩ := o
  obtain ⟨hop, rfl⟩ : op ≠ .mul ∧ right = 0 := ho
  cases op with
  | mul => exact absurd rfl hop
  | mod =>
    refine iff_of_false ?_ fun h => h ⟨rfl, rfl⟩
    intro h
    have htrap := visit_run ⟨.mod, left, 0⟩ s
    rw [(MulDivModOp.value_eq_trap_iff s.env ⟨.mod, left, 0⟩).mpr (.inl ⟨rfl, rfl⟩)] at htrap
    obtain hzero | hone : s.pass = 0 ∨ s.pass = 1 := by omega
    · rw [h.passZero hzero] at htrap
      cases htrap
    · obtain ⟨msg, herr⟩ := h.passOne hone
      rw [herr] at htrap
      cases htrap
  | div =>
    refine iff_of_true ?_ fun h => by cases h.1
    constructor
    · intro hzero
      have hpass : ¬s.env.pass ≠ 0 := fun h => h hzero
      rw [visit_run, opMulDivModValue_div_zero, if_neg hpass]
      rfl
    · intro hone
      have hpass : s.env.pass ≠ 0 := by
        show s.pass ≠ 0
        rw [hone]
        decide
      refine ⟨"Error:  Cannot divide by zero!", ?_⟩
      rw [visit_run, opMulDivModValue_div_zero, if_pos hpass]
      rfl

/-- No line has a divisor that is 0, with the program counter and the labels as they are in the
    end at each place of the program. -/
def NonzeroDivisors (program : Program) (final : List Item → Env) : Prop :=
  ∀ pre it post, program.items = pre ++ it :: post →
    ∀ e ∈ it.exprs, ∀ o ∈ e.ops (final pre), ¬o.DividesByZero

/-- Every division by 0 in either pass is handled, whatever else is on the stacks; and pass 0
    does not trap if no divisor is 0 in the end. -/
structure DivisorsHandled (showWords : Bool) (program : Program) (final : List Item → Env) :
    Prop where
  zero : ∀ p < 2, ∀ {s o}, Performs showWords program p s o → o.DividesByZero →
    ∀ ns ss, ZeroHandled o { s with numStack := ns, strStack := ss }
  not_aborted : NonzeroDivisors program final →
    afterItems showWords program 0 program.items ≠ .error .trap

/-- This does not depend on what the environments in the end are. -/
theorem divisorsHandled_iff_of_final (showWords : Bool) (program : Program)
    (final : List Item → Env) :
    DivisorsHandled showWords program final ↔
      (∀ p < 2, ∀ s o, Performs showWords program p s o → ¬o.IsZeroMod) ∧
      (NonzeroDivisors program final → ∀ s o, Performs showWords program 0 s o → ¬o.Overflows) := by
  have hzero : ∀ {p s o}, p < 2 → Performs showWords program p s o → o.DividesByZero →
      ∀ ns ss, ZeroHandled o { s with numStack := ns, strStack := ss } ↔ ¬o.IsZeroMod := by
    intro p s o hp hperforms ho ns ss
    obtain ⟨pre, it, post, e, -, hs, -⟩ := hperforms
    exact zeroHandled_iff ho (by rw [(modes_afterItems hs).1]; exact hp)
  constructor
  · intro h
    refine ⟨?_, ?_⟩
    · intro p hp s o hperforms hmod
      have ho : o.DividesByZero := ⟨by rw [hmod.1]; decide, hmod.2⟩
      exact (hzero hp hperforms ho [] []).mp (h.zero p hp hperforms ho [] []) hmod
    · intro hfinal s o hperforms hoverflow
      apply h.not_aborted hfinal
      exact (passZero_eq_trap_iff showWords program).mpr ⟨s, o, hperforms, .inr hoverflow⟩
  · rintro ⟨hmod, hoverflow⟩
    constructor
    · intro p hp s o hperforms ho ns ss
      exact (hzero hp hperforms ho ns ss).mpr (hmod p hp s o hperforms)
    · intro hfinal htrap
      obtain ⟨s, o, hperforms, htraps⟩ := (passZero_eq_trap_iff showWords program).mp htrap
      rcases htraps with h | h
      · exact hmod 0 (by decide) s o hperforms h
      · exact hoverflow hfinal s o hperforms h

theorem nonzeroDivisors_of_forall {program : Program} {final : List Item → Env}
    (h : ∀ k < program.items.length, ∀ it ∈ program.items[k]?, ∀ e ∈ it.exprs,
      ∀ o ∈ e.ops (final (program.items.take k)), ¬o.DividesByZero) :
    NonzeroDivisors program final := by
  intro pre it post hitems
  obtain ⟨k, hk, hit, rfl⟩ := exists_index hitems
  exact h k hk it hit

theorem forall_performs_of_forall {showWords : Bool} {program : Program} {p : Nat}
    {P : MulDivModOp → Prop}
    (h : ∀ k < program.items.length, ∀ it ∈ program.items[k]?,
      ∀ s ∈ (afterItems showWords program p (program.items.take k)).toOption, ∀ e ∈ it.exprs,
        ∀ o ∈ e.ops s.env, P o) (s : Assembler) (o : MulDivModOp)
    (hperforms : Performs showWords program p s o) : P o := by
  obtain ⟨pre, it, post, e, hitems, hs, he, ho⟩ := hperforms
  obtain ⟨k, hk, hit, rfl⟩ := exists_index hitems
  exact h k hk it hit s (by rw [hs]; rfl) e he o ho

/-! ### A remainder by a label -/

/-- `.org 4`, a label, and a number divided by the label. -/
def dividedByLabel (op : TokOpMulDivMod) : Program :=
  [.directive (.dotOrgDirective (.ofAtom (.numExpr (.decNum ⟨['4'], by decide⟩)))),
    .label (.ident "a"),
    .directive (.dotDbDirective
      (.exprLogical (.exprCompare (.exprAddSub (.opMulDivMod
        (.exprMulDivModEtc (.numExpr (.decNum ⟨['3'], by decide⟩))) op
        (.identName (.ident "a")))))) [])]

theorem eq_trap_of_match {α : Type} {r : Except AsmError α}
    (h : (match r with | .error e => decide (e = .trap) | .ok _ => false) = true) :
    r = .error .trap := by
  cases r with
  | error e => rw [of_decide_eq_true h]
  | ok x => cases h

end Frost32.Asm
