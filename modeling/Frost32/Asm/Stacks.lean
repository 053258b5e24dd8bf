import Frost32.Asm.Errors
import Frost32.Asm.ScopeWalk

namespace Frost32.Asm

open Fallible

/-!
# The two stacks

Operands travel through `__num_stack`, mnemonics and names through `__str_stack`.

* `PushesOne` — what the visitor of an expression does to the stacks.
* `KeepsStacks` — what the visitor of a label, an instruction or a directive does to them.
* `PopsOwnMnemonic` — the visitors that evaluate an operand between pushing a mnemonic and
  popping it.
* `stacks_kept` — **this holds whatever the stacks hold**, and in a run nothing is ever popped
  from an empty stack.
-/

/-! ### What a visitor does to the stacks -/

/-- The ways in which an expression ends the assembler: `err` and an arithmetic trap. -/
def AsmError.Ends (e : AsmError) : Prop := (∃ msg, e = .err msg) ∨ e = .trap

/-- The visitor ends the assembler, or pushes one number and leaves the rest of the stacks. -/
def PushesOne (m : AsmM Unit) (s : Assembler) : Prop :=
  (∃ e, m.run s = .error e ∧ e.Ends) ∨
    ∃ t n, m.run s = .ok ((), t) ∧ t.numStack = n :: s.numStack ∧ t.strStack = s.strStack

/-- The visitor does not pop from an empty stack, and it leaves both stacks if it returns. -/
structure KeepsStacks (m : AsmM Unit) (s : Assembler) : Prop where
  no_underflow : m.run s ≠ .error .undefined
  same : ∀ {t}, m.run s = .ok ((), t) → t.numStack = s.numStack ∧ t.strStack = s.strStack

/-- The visitors that pop their mnemonic after an operand: they do what they would do with the
    mnemonic they pushed. -/
structure PopsOwnMnemonic (s : Assembler) : Prop where
  grp1TwoRegsOneImm : ∀ t rA rB e,
    (visitInstruction (.instrOpGrp1TwoRegsOneImm t rA rB e)).run s =
      (do encodeAluOpTwoRegsOneImm rA.num rB.num t.val.text (← acceptExpr e) : AsmM Unit).run s
  grp1TwoRegsOneSimm : ∀ t rA rB e,
    (visitInstruction (.instrOpGrp1TwoRegsOneSimm t rA rB e)).run s =
      (do encodeAluOpTwoRegsOneImm rA.num rB.num t.val.text (← acceptExpr e) : AsmM Unit).run s
  grp2Branch : ∀ t rA rB e,
    (visitInstruction (.instrOpGrp2Branch t rA rB e)).run s =
      (do encodeRelativeBranch rA.num rB.num t.val.text (← acceptExpr e) : AsmM Unit).run s
  grp5TwoRegsOneSimm12Ldst : ∀ t rA rB e,
    (visitInstruction (.instrOpGrp5TwoRegsOneSimm12Ldst t rA rB e)).run s =
      (do encodeLdstTwoRegsOneSimm rA.num rB.num t.val.text (← acceptExpr e) : AsmM Unit).run s
  aluOpOneRegOneImm : ∀ t rA e,
    (visitPseudoInstruction (.pseudoInstrOpAluOpOneRegOneImm t rA e)).run s =
      (do encodeAluOpTwoRegsOneImm rA.num rA.num t.val.text (← acceptExpr e) : AsmM Unit).run s
  aluOpOneRegOneSimm : ∀ t rA e,
    (visitPseudoInstruction (.pseudoInstrOpAluOpOneRegOneSimm t rA e)).run s =
      (do encodeAluOpTwoRegsOneImm rA.num rA.num t.val.text (← acceptExpr e) : AsmM Unit).run s

/-! ### Expressions -/

section Expressions

variable {s : Assembler}

/-- In a scope an expression has a value, or it ends the assembler. -/
theorem ends_of_curr (hcurr : s.currScopeNode ≠ 0) :
    (∀ x ∈ exprErrors, x.Ends) ∧ ∀ n : IdentName, ErrorsIn AsmError.Ends (n.eval s.env) := by
  constructor
  · intro x hx
    simp only [exprErrors, List.mem_cons, List.not_mem_nil, or_false] at hx
    rcases hx with rfl | rfl | rfl | rfl
    · exact .inr rfl
    · exact .inl ⟨_, rfl⟩
    · exact .inl ⟨_, rfl⟩
    · exact .inl ⟨_, rfl⟩
  · exact fun n => n.errorsIn (fun _ => .inl ⟨_, rfl⟩) fun h => absurd h hcurr

theorem pushesOne_of_pushing {m : AsmM Unit} {r : Except AsmError (BitVec 64)}
    (hrun : m.run s = pushing s r) (hr : ErrorsIn AsmError.Ends r) : PushesOne m s := by
  cases r with
  | error e => exact .inl ⟨e, hrun, hr.of_error e rfl⟩
  | ok n => exact .inr ⟨s.pushNum n, n, hrun, rfl, rfl⟩

/-- An operand leaves the mnemonic under it where it is. -/
theorem acceptExpr_popStr (e : Expr) (name : String) (f : BitVec 64 → String → AsmM Unit) :
    (acceptExpr e >>= fun n => popStr >>= f n).run (s.pushStr name) =
      (acceptExpr e >>= fun n => f n name).run s := by
  rw [StateT.run_bind, acceptExpr_run, Assembler.env_pushStr, StateT.run_bind, acceptExpr_run]
  cases e.eval s.env with
  | error x => rfl
  | ok n => exact popStr_bind_run name (f n) s

variable {names chain : List InstrTok} (hchain : ∀ t ∈ names, t ∈ chain) (t : InstrChoice names)
  (eek : String)
include hchain

theorem anyPushTokIf_bind_run (f : Unit → AsmM Unit) :
    (anyPushTokIf chain t eek >>= f).run s = (f ()).run (s.pushStr t.val.text) := by
  rw [StateT.run_bind, anyPushTokIf_run, chainText, if_pos (hchain t t.property)]
  rfl

/-- The visitors with two registers and an operand. -/
theorem twoRegs_operand_run (rA rB : TokReg) (e : Expr)
    (last : BitVec 32 → BitVec 32 → String → BitVec 64 → AsmM Unit) :
    (do
      anyPushTokIf chain t eek
      let regA ← getOneRegEncoding rA
      let regB ← getOneRegEncoding rB
      let immediate ← acceptExpr e
      last regA regB (← popStr) immediate : AsmM Unit).run s =
      (do last rA.num rB.num t.val.text (← acceptExpr e) : AsmM Unit).run s := by
  rw [anyPushTokIf_bind_run hchain]
  simp only [getOneRegEncoding_bind_run]
  exact acceptExpr_popStr e t.val.text fun n name => last rA.num rB.num name n

/-- The visitors with one register and an operand, which look the register up twice. -/
theorem oneReg_operand_run (rA : TokReg) (e : Expr) :
    (do
      anyPushTokIf chain t eek
      let immediate ← acceptExpr e
      let name ← popStr
      encodeAluOpTwoRegsOneImm (← getOneRegEncoding rA) (← getOneRegEncoding rA) name
        immediate : AsmM Unit).run s =
      (do encodeAluOpTwoRegsOneImm rA.num rA.num t.val.text (← acceptExpr e)
        : AsmM Unit).run s := by
  rw [anyPushTokIf_bind_run hchain, acceptExpr_popStr e t.val.text, StateT.run_bind,
    StateT.run_bind]
  simp only [getOneRegEncoding_bind_run]

end Expressions

/-- **The mnemonic popped after an operand is the one pushed before it.** -/
theorem popsOwnMnemonic (s : Assembler) : PopsOwnMnemonic s where
  grp1TwoRegsOneImm := fun t rA rB e =>
    twoRegs_operand_run (by decide) t _ rA rB e encodeAluOpTwoRegsOneImm
  grp1TwoRegsOneSimm := fun t rA rB e =>
    twoRegs_operand_run (by decide) t _ rA rB e encodeAluOpTwoRegsOneImm
  grp2Branch := fun t rA rB e =>
    twoRegs_operand_run (by decide) t _ rA rB e encodeRelativeBranch
  grp5TwoRegsOneSimm12Ldst := fun t rA rB e =>
    twoRegs_operand_run (by decide) t _ rA rB e encodeLdstTwoRegsOneSimm
  aluOpOneRegOneImm := fun t rA e => oneReg_operand_run (by decide) t _ rA e
  aluOpOneRegOneSimm := fun t rA e => oneReg_operand_run (by decide) t _ rA e

/-! ### Lines -/

/-- No item touches the stacks. -/
theorem stacks_of_stepItem {it : Item} {s t : Assembler} (hstep : stepItem it s = .ok t) :
    t.numStack = s.numStack ∧ t.strStack = s.strStack := by
  cases hplain : it.plain with
  | true =>
    obtain ⟨ef, -, rfl⟩ := stepItem_plain hplain hstep
    rw [s.perform_eq ef]
    exact ⟨rfl, rfl⟩
  | false =>
    cases it with
    | enter =>
      rcases stepItem_enter hstep with ⟨-, rfl⟩ | ⟨-, i, cs, v, -, -, rfl⟩
      · exact ⟨rfl, rfl⟩
      · exact ⟨rfl, rfl⟩
    | leave =>
      rcases stepItem_leave hstep with ⟨-, -, rfl⟩ | ⟨-, i, cs, -, rfl⟩
      · exact ⟨rfl, rfl⟩
      · exact ⟨rfl, rfl⟩
    | label n =>
      obtain ⟨-, v, tbl, -, rfl⟩ := stepItem_label hstep
      exact ⟨rfl, rfl⟩
    | _ => cases hplain

theorem stacks_of_runList {items : List Item} {s t : Assembler}
    (hrun : runList stepItem items s = .ok t) :
    t.numStack = s.numStack ∧ t.strStack = s.strStack := by
  refine invariant
    (P := fun _ (u : Assembler) => u.numStack = s.numStack ∧ u.strStack = s.strStack)
    ⟨rfl, rfl⟩ ?_ (List.append_nil items).symm hrun
  intro pre it post u v _ hu hv
  obtain ⟨hnum, hstr⟩ := stacks_of_stepItem hv
  exact ⟨hnum.trans hu.1, hstr.trans hu.2⟩

/-- A label and a plain item pop from no empty stack, in a scope. -/
theorem stepItem_ne_undefined {it : Item} (hit : it.event = .other) {s : Assembler}
    (hcurr : s.currScopeNode ≠ 0) : stepItem it s ≠ .error .undefined := by
  have hroot : s.currScopeNode = 0 → AsmError.undefined ≠ .undefined := fun h => absurd h hcurr
  intro h
  cases hplain : it.plain with
  | true =>
    have herrors := stepItem_plain_errorsIn (P := (· ≠ .undefined)) hroot (by decide) (by decide)
      (fun _ he => by cases he) hplain
    exact herrors.of_error _ h rfl
  | false =>
    cases it with
    | enter | leave => cases hit
    | label n =>
      have herrors := stepItem_label_errorsIn (P := (· ≠ .undefined)) hroot (n := n)
        (fun he => by cases he)
      exact herrors.of_error _ h rfl
    | _ => cases hplain

/-- The scope is the same after a line that is not a scope. -/
theorem curr_of_stepItem {it : Item} (hit : it.event = .other) {s t : Assembler}
    (hstep : stepItem it s = .ok t) : t.currScopeNode = s.currScopeNode := by
  cases hplain : it.plain with
  | true =>
    obtain ⟨ef, -, rfl⟩ := stepItem_plain hplain hstep
    rw [s.perform_eq ef]
  | false =>
    cases it with
    | enter | leave => cases hit
    | label n =>
      obtain ⟨-, v, tbl, -, rfl⟩ := stepItem_label hstep
      rfl
    | _ => cases hplain

theorem runList_ne_undefined {items : List Item} (hitems : ∀ it ∈ items, it.event = .other)
    {s : Assembler} (hcurr : s.currScopeNode ≠ 0) :
    runList stepItem items s ≠ .error .undefined := by
  intro h
  obtain ⟨pre, it, post, u, hsplit, hu, hit⟩ := exists_step_of_error h
  have hsame : u.currScopeNode = s.currScopeNode := by
    refine invariant (P := fun _ (v : Assembler) => v.currScopeNode = s.currScopeNode) rfl ?_
      hsplit hu
    intro pre' it' post' v w hsplit' hv hw
    have hmem : it' ∈ items := by
      rw [hsplit']
      exact List.mem_append_right _ List.mem_cons_self
    exact (curr_of_stepItem (hitems it' hmem) hw).trans hv
  have hmem : it ∈ items := by
    rw [hsplit]
    exact List.mem_append_right _ List.mem_cons_self
  exact stepItem_ne_undefined (hitems it hmem) (by rwa [hsame]) hit

/-- A visitor that runs through items that are no scopes. -/
theorem keepsStacks_of_running {m : AsmM Unit} {items : List Item} {s : Assembler}
    (hrun : m.run s = running (runList stepItem items s))
    (hitems : ∀ it ∈ items, it.event = .other) (hcurr : s.currScopeNode ≠ 0) :
    KeepsStacks m s := by
  have hdefined := runList_ne_undefined hitems hcurr
  constructor
  · rw [hrun]
    intro h
    cases hlist : runList stepItem items s with
    | error e =>
      rw [hlist] at h hdefined
      cases h
      exact hdefined rfl
    | ok t =>
      rw [hlist] at h
      cases h
  · intro t ht
    rw [hrun] at ht
    cases hlist : runList stepItem items s with
    | error e =>
      rw [hlist] at ht
      cases ht
    | ok u =>
      rw [hlist] at ht
      cases ht
      exact stacks_of_runList hlist

/-! ### Runs -/

/-- A state in which a line or an expression can be visited: at a place that one of the two
    passes gets to, but with anything on the stacks. -/
def Visiting (showWords : Bool) (program : Program) (u : Assembler) : Prop :=
  ∃ p < 2, ∃ pre post s ns ss, program.items = pre ++ post ∧
    afterItems showWords program p pre = .ok s ∧ u = { s with numStack := ns, strStack := ss }

theorem Visiting.curr {showWords : Bool} {program : Program} {u : Assembler}
    (h : Visiting showWords program u) : u.currScopeNode ≠ 0 := by
  obtain ⟨p, hp, pre, post, s, ns, ss, hitems, hs, rfl⟩ := h
  show s.currScopeNode ≠ 0
  rw [currScopeNode_afterItems hp hitems hs]
  exact scopesAfter_headD_ne_zero hitems

/-- What the visitors do to the stacks in a run of the assembler. -/
structure StacksKept (showWords : Bool) (program : Program) : Prop where
  /-- The six rules of expressions. -/
  pushes : ∀ {u}, Visiting showWords program u →
    (∀ e, PushesOne (visitExpr e) u) ∧ (∀ e, PushesOne (visitExprLogical e) u) ∧
      (∀ e, PushesOne (visitExprCompare e) u) ∧ (∀ e, PushesOne (visitExprAddSub e) u) ∧
      (∀ e, PushesOne (visitExprMulDivModEtc e) u) ∧ ∀ e, PushesOne (visitExprUnary e) u
  /-- Labels, instructions, pseudo-instructions and directives. -/
  keeps : ∀ {u}, Visiting showWords program u →
    (∀ n, KeepsStacks (visitLabel n) u) ∧ (∀ i, KeepsStacks (visitInstruction i) u) ∧
      (∀ p, KeepsStacks (visitPseudoInstruction p) u) ∧ ∀ d, KeepsStacks (visitDirective d) u
  /-- Mnemonics under an operand. -/
  mnemonics : ∀ {u}, Visiting showWords program u → PopsOwnMnemonic u
  /-- Between two lines both stacks are empty. -/
  between : ∀ {p pre s}, afterItems showWords program p pre = .ok s →
    s.numStack = [] ∧ s.strStack = []
  /-- Nothing is popped from an empty stack. -/
  no_underflow : assemble showWords program ≠ .error .undefined

theorem pushes_of_curr {u : Assembler} (hcurr : u.currScopeNode ≠ 0) :
    (∀ e, PushesOne (visitExpr e) u) ∧ (∀ e, PushesOne (visitExprLogical e) u) ∧
      (∀ e, PushesOne (visitExprCompare e) u) ∧ (∀ e, PushesOne (visitExprAddSub e) u) ∧
      (∀ e, PushesOne (visitExprMulDivModEtc e) u) ∧ ∀ e, PushesOne (visitExprUnary e) u := by
  obtain ⟨hexpr, hident⟩ := ends_of_curr hcurr
  refine ⟨?_, ?_, ?_, ?_, ?_, ?_⟩
  · exact fun e => pushesOne_of_pushing (visitExpr_run u e) (e.errorsIn hexpr fun n _ => hident n)
  · exact fun e => pushesOne_of_pushing (visitExprLogical_run u e)
      (e.errorsIn hexpr fun n _ => hident n)
  · exact fun e => pushesOne_of_pushing (visitExprCompare_run u e)
      (e.errorsIn hexpr fun n _ => hident n)
  · exact fun e => pushesOne_of_pushing (visitExprAddSub_run u e)
      (e.errorsIn hexpr fun n _ => hident n)
  · exact fun e => pushesOne_of_pushing (visitExprMulDivModEtc_run u e)
      (e.errorsIn hexpr fun n _ => hident n)
  · exact fun e => pushesOne_of_pushing (visitExprUnary_run u e)
      (e.errorsIn hexpr fun n _ => hident n)

theorem keeps_of_curr {u : Assembler} (hcurr : u.currScopeNode ≠ 0) :
    (∀ n, KeepsStacks (visitLabel n) u) ∧ (∀ i, KeepsStacks (visitInstruction i) u) ∧
      (∀ p, KeepsStacks (visitPseudoInstruction p) u) ∧ ∀ d, KeepsStacks (visitDirective d) u := by
  have hsingle : ∀ {it : Item}, it.event = .other → ∀ it' ∈ [it], it'.event = .other := by
    intro it hit it' hmem
    rw [List.mem_singleton.mp hmem]
    exact hit
  refine ⟨?_, ?_, ?_, ?_⟩
  · exact fun n => keepsStacks_of_running (running_singleton (.label n) u) (hsingle rfl) hcurr
  · exact fun i => keepsStacks_of_running (running_singleton (.instruction i) u) (hsingle rfl) hcurr
  · exact fun p =>
      keepsStacks_of_running (running_singleton (.pseudoInstruction p) u) (hsingle rfl) hcurr
  · exact fun d => keepsStacks_of_running (visitDirective_run d u) d.event_of_mem hcurr

section Run

variable {showWords : Bool} {program : Program}

theorem stacks_passStart {p : Nat} {s : Assembler} (h : passStart showWords program p = .ok s) :
    s.numStack = [] ∧ s.strStack = [] := by
  induction p generalizing s with
  | zero =>
    cases h
    exact ⟨rfl, rfl⟩
  | succ p ih =>
    obtain ⟨u, hu, h⟩ := bind_eq_ok.mp h
    obtain ⟨v, hv, h⟩ := bind_eq_ok.mp h
    cases h
    obtain ⟨hnum, hstr⟩ := stacks_of_runList hv
    exact ⟨hnum.trans (ih hu).1, hstr.trans (ih hu).2⟩

theorem stacks_afterItems {p : Nat} {pre : List Item} {s : Assembler}
    (h : afterItems showWords program p pre = .ok s) : s.numStack = [] ∧ s.strStack = [] := by
  obtain ⟨u, hu, h⟩ := bind_eq_ok.mp h
  obtain ⟨hnum, hstr⟩ := stacks_of_runList h
  exact ⟨hnum.trans (stacks_passStart hu).1, hstr.trans (stacks_passStart hu).2⟩

/-- Nor is the stack of child numbers ever empty where a scope starts or ends. -/
theorem childNums_ne_nil {p : Nat} (hp : p < 2) {pre post : List Item}
    (hitems : program.items = pre ++ post) {s : Assembler}
    (h : afterItems showWords program p pre = .ok s) : s.scopeChildNumStack ≠ [] := by
  obtain rfl | rfl : p = 0 ∨ p = 1 := by omega
  · rw [(passZeroAt_afterItems hitems h).stack]
    exact List.cons_ne_nil _ _
  · obtain ⟨cs, hcs⟩ := BlockTree.Walk.exists_counters_eq (scopesAfter_ne_nil hitems)
    rw [(passOneAt_afterItems hitems h).stack, hcs]
    exact List.cons_ne_nil _ _

theorem assemble_ne_undefined : assemble showWords program ≠ .error .undefined := by
  rw [assemble_eq]
  intro h
  obtain ⟨p, hp, pre, it, post, u, hitems, hu, hit⟩ := exists_item_of_error h
  have hp : p < 2 := by omega
  have hcurr : u.currScopeNode ≠ 0 := by
    rw [currScopeNode_afterItems hp hitems hu]
    exact scopesAfter_headD_ne_zero hitems
  have hstack : u.scopeChildNumStack = [] → AsmError.undefined ≠ .undefined :=
    fun hnil => absurd hnil (childNums_ne_nil hp hitems hu)
  cases it with
  | enter =>
    have herrors := stepItem_enter_errorsIn (P := (· ≠ .undefined)) hstack (fun he => by cases he)
    exact herrors.of_error _ hit rfl
  | leave =>
    have herrors := stepItem_leave_errorsIn (P := (· ≠ .undefined)) hstack (fun he => by cases he)
    exact herrors.of_error _ hit rfl
  | _ => exact stepItem_ne_undefined rfl hcurr hit

/-- **Every visitor keeps to its part of the stacks.** -/
theorem stacks_kept (showWords : Bool) (program : Program) : StacksKept showWords program where
  pushes := fun h => pushes_of_curr h.curr
  keeps := fun h => keeps_of_curr h.curr
  mnemonics := fun _ => popsOwnMnemonic _
  between := stacks_afterItems
  no_underflow := assemble_ne_undefined

end Run

end Frost32.Asm
