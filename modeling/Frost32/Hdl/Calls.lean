import Frost32.Hdl.Refinement

namespace Frost32.Hdl

open Isa (Regs Arch)

/-!
# Calls in the pipeline

A call stays in the execute stage for three or four cycles and posts `lr` in each of them in
which the condition it consults holds, so from the second cycle on the operands, the target
included, are read from registers that may already hold the new `lr`.  A signed call consults
the latched comparisons, which are its own only after `stall_counter == 3`.

* `callRegs` — the registers with `lr` written, if it is.
* `callOutcome early` — the state in which the next instruction is decoded, when `early` is
  the condition consulted in the first cycle.
* `call_leads` — **a call**; `earlyCondition` is what its first cycle consults.
-/

/-! ### The effect of a call -/

/-- The registers with the return address of the call at `pc` in `lr`, if it is `taken`. -/
def callRegs (taken : Bool) (pc : Word) (g : Regs) : Regs :=
  if taken then g.set Isa.lr (pc + 4) else g

/-- Once `lr` is written a further cycle changes nothing. -/
@[simp] theorem callRegs_callRegs_true (taken : Bool) (pc : Word) (g : Regs) :
    callRegs taken pc (callRegs true pc g) = callRegs true pc g := by
  cases taken with
  | false => rfl
  | true => exact Regs.set_set _ _ _ _

/-- Whether `lr` was written before does not matter once it is written. -/
@[simp] theorem callRegs_true_callRegs (early : Bool) (pc : Word) (g : Regs) :
    callRegs true pc (callRegs early pc g) = callRegs true pc g := by
  cases early with
  | false => rfl
  | true => exact Regs.set_set _ _ _ _

@[simp] theorem callRegs_false (pc : Word) (g : Regs) : callRegs false pc g = g := rfl

/-- Repeating a condition changes nothing. -/
theorem callRegs_idem (taken : Bool) (pc : Word) (g : Regs) :
    callRegs taken pc (callRegs taken pc g) = callRegs taken pc g := by
  cases taken with
  | false => rfl
  | true => exact callRegs_callRegs_true true pc g

/-- The condition of the call `w` on the registers `g`. -/
def callCondition (w : Word) (g : Regs) : Bool :=
  Isa.condHolds (Isa.opcodeLow w) (g.val (Isa.fieldA w)) (g.val (Isa.fieldB w))

/-- The state in which the instruction after the call `w` is decoded: `lr` is written early
    if the first cycle's condition `early` holds, and the rest follows from those registers. -/
def callOutcome (early : Bool) (w : Word) (a : Arch) : Arch :=
  let g := callRegs early a.pc a.regs
  { a with regs := callRegs (callCondition w g) a.pc g
           pc := if callCondition w g then g.val (Isa.fieldC w) else a.pc + 4 }

/-- Writing `lr` early a second time changes nothing. -/
theorem callOutcome_callRegs (early : Bool) (w : Word) (a : Arch) :
    callOutcome early w { a with regs := callRegs early a.pc a.regs } = callOutcome early w a := by
  unfold callOutcome
  dsimp only
  rw [callRegs_idem]

/-- The instruction set's call. -/
theorem exec_call {w : Word} (hw : IsCall w) (bo : Isa.ByteOrder) (a : Arch) :
    Isa.exec bo w a =
      { a with regs := callRegs (callCondition w a.regs) a.pc a.regs
               pc := if callCondition w a.regs then a.regs.val (Isa.fieldC w) else a.pc + 4 } := by
  simp only [Isa.exec, hw.1]
  unfold callCondition callRegs
  split
  · rfl
  · rfl

/-- The latched comparison that a signed condition consults. -/
def staleCondition (w : Word) (f : FetchRegs) : Bool :=
  match CondType.ofBits (Isa.opcodeLow w) with
  | .ctLts => f.condLts
  | .ctGes => f.condGes
  | .ctLes => f.condLes
  | .ctGts => f.condGts
  | _ => false

/-- What the first cycle of a call consults. -/
def earlyCondition (w : Word) (f : FetchRegs) (g : Regs) : Bool :=
  if (CondType.ofBits (Isa.opcodeLow w)).isSigned then staleCondition w f else callCondition w g

namespace Frost32Cpu

variable {i : PortInFrost32Cpu} {s : Frost32Cpu} {a : Arch} {w : Word}

/-- The execute stage posts `lr` under the condition of the fetch stage. -/
theorem executeCalls_condition {op : BitVec 4} (h : op.ult 10#4 = true)
    (hc : s.decode.multiStageDataExecute.instrConditionType = .ofBits op) (e : ExecuteRegs) :
    s.executeCalls e = s.handleCallInExecuteStage s.ctrlFlowCondition e := by
  unfold executeCalls ctrlFlowCondition
  rw [hc]
  rcases opcode_cases op with rfl | rfl | rfl | rfl | rfl | rfl | rfl | rfl | rfl | rfl | rfl |
    rfl | rfl | rfl | rfl | rfl <;> first | exact absurd h (by decide) | rfl

variable (h : Latched a w s) (hw : IsCall w)
include h hw

/-- The record a cycle of a call posts. -/
theorem executeStage_call (hi : i.waitForMem = false) :
    (s.executeStage i).prevWrittenRegIndex0 = (if s.ctrlFlowCondition then Isa.lr else 0#4) ∧
      (s.executeStage i).nRegData0 = a.pc + 4 := by
  have hd := instrDecoder_of_group4 hw.1
  rw [executeStage_group4 hi (by rw [h.group, hd]),
    executeCalls_condition hw.2 (by rw [h.conditionType, hd])]
  exact ⟨rfl, h.following⟩

/-- The registers a cycle of a call settles. -/
theorem settledRegs_call (hi : i.waitForMem = false) :
    s.settledRegs i = callRegs s.ctrlFlowCondition a.pc a.regs := by
  obtain ⟨hsel, hdata⟩ := executeStage_call h hw hi
  rw [settledRegs, hsel, hdata, h.live]
  cases s.ctrlFlowCondition with
  | false => exact Regs.set_zero _ _
  | true => rfl

/-- The condition a call consults, the signed ones once latched. -/
theorem ctrlFlowCondition_call
    (hsgn : (instrDecoder w).conditionType.isSigned = true → s.CondsLatched) :
    s.ctrlFlowCondition = callCondition w a.regs := by
  have hd := instrDecoder_of_group4 hw.1
  rw [hd] at hsgn
  rw [ctrlFlowCondition_eq (by rw [h.conditionType, hd]) hsgn, h.rfileData, operandsOf, hd]
  rfl

/-- Before they are latched a signed call consults what is left of an earlier one. -/
theorem ctrlFlowCondition_signed (hs : (CondType.ofBits (Isa.opcodeLow w)).isSigned = true) :
    s.ctrlFlowCondition = staleCondition w s.fetch := by
  have hd := instrDecoder_of_group4 hw.1
  unfold ctrlFlowCondition staleCondition
  rw [h.conditionType, hd]
  dsimp only
  revert hs
  cases CondType.ofBits (Isa.opcodeLow w) <;> intro hs <;>
    first | exact absurd hs (by decide) | rfl

end Frost32Cpu

namespace System

variable {order : BlockOrder} {irq : Bool} {y : System} {a : Arch} {w : Word}

/-! ### The stall -/

section Call

variable (hw : IsCall w)
include hw

private theorem call_units (h : y.cpu.Latched a w) :
    ¬ y.cpu.decode.multiStageDataExecute.UsesUnits :=
  not_usesUnits_of_group h (by rw [hw.1]; decide) (by rw [hw.1]; decide)

private theorem call_regs (h : y.cpu.Latched a w) :
    y.arch.regs = callRegs y.cpu.ctrlFlowCondition a.pc a.regs :=
  Frost32Cpu.settledRegs_call h hw rfl

/-- `stall_counter == 2` loads the next instruction, and what is posted from then on is
    determined. -/
private theorem call_two (h : Sent a w .stCtrlFlowJumpCall 2#5 y)
    (hsgn : (instrDecoder w).conditionType.isSigned = true → y.cpu.CondsLatched) :
    Leads order (callOutcome false w a) 2 y := by
  refine ⟨h.inStall (by decide), fun irq => Fetching.leads ?_⟩
  have hc2 := Frost32Cpu.ctrlFlowCondition_call h.latched hw hsgn
  have hd : (y.step order irq).cpu.decode = { y.cpu.decode with stallCounter := 1#5 } := by
    rw [step_decode_atTwo order irq h.counter]
    unfold Frost32Cpu.decodeAtTwo
    rw [h.state]
  -- the operands are read here, after the cycles before have written `lr`
  have hfetch : y.cpu.fetchAtTwo = y.cpu.fetch.prepLoadInstruction
      (if callCondition w a.regs then a.regs.val (Isa.fieldC w) else a.pc + 4) := by
    unfold Frost32Cpu.fetchAtTwo
    rw [h.state]
    dsimp only
    rw [Frost32Cpu.fetchJumpCall_condition, Frost32Cpu.handleJumpOrCallInFetchStage_eq, hc2,
      h.latched.rfileData, h.latched.following, Frost32Cpu.operandsOf,
      instrDecoder_of_group4 hw.1]
  have hl : (y.step order irq).cpu.Latched { a with regs := y.arch.regs } w :=
    latched_step_post order irq h.inv h.latched (by simp [h.counter]) (by simp [h.counter])
  have hregs := call_regs hw h.latched
  rw [hc2] at hregs
  rw [hregs] at hl
  refine fetching_of_stalled h.toStalled (congrArg FetchRegs.pc hfetch) ?_ ?_ ?_ ?_ ?_
  · rw [hd]; exact h.ireta
  · rw [hd]; exact h.idsta
  · rw [hd]; exact h.ie
  · exact (step_mem order irq h.bus).trans h.mem
  · -- the last cycle posts the same, if anything
    rw [call_regs hw hl]
    show callRegs _ a.pc (callRegs (callCondition w a.regs) a.pc a.regs) = _
    cases hc : callCondition w a.regs with
    -- the jump is made: `lr` is written already
    | true => rw [callRegs_callRegs_true]; simp [callOutcome, hc]
    | false =>
      rw [hc] at hl
      -- it is not made: the operands stay, so the condition does
      have hops : (y.step order irq).cpu.rfileData = y.cpu.rfileData := by
        rw [hl.rfileData, h.latched.rfileData]
        rfl
      have hf : (y.step order irq).cpu.fetch = y.cpu.fetchAtTwo := by
        rw [step_fetch, Frost32Cpu.fetchStage_atTwo rfl h.counter]
      have hc1 := Frost32Cpu.ctrlFlowCondition_call hl hw (fun hs => by
        obtain ⟨hlts, hges, hles, hgts⟩ := hsgn hs
        constructor
        · rw [hf, hfetch, Frost32Cpu.compareLts, hops]; exact hlts
        · rw [hf, hfetch, Frost32Cpu.compareGes, hops]; exact hges
        · rw [hf, hfetch, Frost32Cpu.compareLes, hops]; exact hles
        · rw [hf, hfetch, Frost32Cpu.compareGts, hops]; exact hgts)
      rw [hc1]
      simp [callOutcome, hc]

variable (order irq) in
/-- A cycle of the stall before `stall_counter == 2`. -/
private theorem call_step {c : BitVec 5} (h : Sent a w .stCtrlFlowJumpCall c y)
    (hc : 2 < c.toNat) (hf : (y.step order irq).cpu.fetch.out = y.cpu.fetch.out) :
    Sent { a with regs := callRegs y.cpu.ctrlFlowCondition a.pc a.regs } w .stCtrlFlowJumpCall
      (c - 1#5) (y.step order irq) := by
  have hs := sent_step_post order irq h hc (call_units hw h.latched)
    (by rw [hf]; exact h.bus)
  rw [call_regs hw h.latched] at hs
  exact hs

omit hw in
variable (order irq) in
/-- `stall_counter == 3` latches the comparisons. -/
private theorem call_latches (h : Sent a w .stCtrlFlowJumpCall 3#5 y) :
    (y.step order irq).cpu.fetch = y.cpu.latchConds := by
  rw [step_fetch, Frost32Cpu.fetchStage_atThree rfl h.counter]
  unfold Frost32Cpu.fetchAtThree
  rw [h.state]

variable (order irq) in
/-- They are those of the operands of the next cycle, if `lr` does not change in between. -/
private theorem call_condsLatched (h : Sent a w .stCtrlFlowJumpCall 3#5 y)
    (hregs : callRegs y.cpu.ctrlFlowCondition a.pc a.regs = a.regs) :
    (y.step order irq).cpu.CondsLatched := by
  have hf := call_latches order irq h
  have hs := call_step order irq hw h (by decide) (by rw [hf]; rfl)
  -- the operands of the next cycle are the same
  have hops : (y.step order irq).cpu.rfileData = y.cpu.rfileData := by
    rw [hs.latched.rfileData, h.latched.rfileData]
    dsimp only
    rw [hregs]
  constructor
  · rw [hf, Frost32Cpu.compareLts, hops]; rfl
  · rw [hf, Frost32Cpu.compareGes, hops]; rfl
  · rw [hf, Frost32Cpu.compareLes, hops]; rfl
  · rw [hf, Frost32Cpu.compareGts, hops]; rfl

variable (order) in
/-- `stall_counter == 3` posts `lr` if the condition holds without the new comparisons. -/
private theorem call_three (h : Sent a w .stCtrlFlowJumpCall 3#5 y)
    (hsgn : (instrDecoder w).conditionType.isSigned = true →
      callRegs y.cpu.ctrlFlowCondition a.pc a.regs = a.regs) :
    Leads order (callOutcome y.cpu.ctrlFlowCondition w a) 3 y := by
  refine ⟨h.inStall (by decide), fun irq => ?_⟩
  have hs := call_step order irq hw h (by decide) (by rw [call_latches order irq h]; rfl)
  exact call_two hw hs (fun hsg => call_condsLatched order irq hw h (hsgn hsg))

variable (order irq) in
/-- The first cycle of a signed call. -/
private theorem call_four (hs : (CondType.ofBits (Isa.opcodeLow w)).isSigned = true)
    (h : Sent a w .stCtrlFlowJumpCall 4#5 y) :
    (y.step order irq).cpu.fetch = y.cpu.fetch ∧
      Sent { a with regs := callRegs (staleCondition w y.cpu.fetch) a.pc a.regs } w
        .stCtrlFlowJumpCall 3#5 (y.step order irq) ∧
      (y.step order irq).cpu.ctrlFlowCondition = staleCondition w y.cpu.fetch := by
  have hf : (y.step order irq).cpu.fetch = y.cpu.fetch := by
    rw [step_fetch, Frost32Cpu.fetchStage_beyond rfl (by rw [h.counter]; decide)]
  have hs3 := call_step order irq hw h (by decide) (by rw [hf])
  rw [Frost32Cpu.ctrlFlowCondition_signed h.latched hw hs] at hs3
  refine ⟨hf, hs3, ?_⟩
  rw [Frost32Cpu.ctrlFlowCondition_signed hs3.latched hw hs, hf]

variable {c : BitVec 5} in
variable (order) in
/-- **A call.** -/
theorem call_leads (h : Sent a w .stCtrlFlowJumpCall c y)
    (hc : c = if (instrDecoder w).conditionType.isSigned then 4#5 else 3#5) :
    Leads order (callOutcome (earlyCondition w y.cpu.fetch a.regs) w a) c.toNat y := by
  have hd := instrDecoder_of_group4 hw.1
  unfold earlyCondition
  rw [hd] at hc
  cases hs : (CondType.ofBits (Isa.opcodeLow w)).isSigned with
  | false =>
    have hns : (instrDecoder w).conditionType.isSigned ≠ true := by rw [hd]; simp [hs]
    -- an equality or unsigned condition has three cycles
    obtain rfl : c = 3#5 := by rw [hc, hs]; rfl
    have h3 := call_three order hw h (fun hsg => absurd hsg hns)
    rw [Frost32Cpu.ctrlFlowCondition_call h.latched hw (fun hsg => absurd hsg hns)] at h3
    exact h3
  | true =>
    -- a signed one has four
    obtain rfl : c = 4#5 := by rw [hc, hs]; rfl
    refine ⟨by simp [h.counter], fun irq => ?_⟩
    obtain ⟨-, hs3, hc3⟩ := call_four order irq hw hs h
    -- the same latched comparison twice
    have h3 := call_three order hw hs3
      (fun _ => by rw [hc3]; exact callRegs_idem _ _ _)
    rw [hc3, callOutcome_callRegs] at h3
    exact h3

/-- **The condition a signed call consults**, cycle by cycle: twice what is left of an earlier
    comparison, then its own. -/
theorem signedCall_conditions (hs : (CondType.ofBits (Isa.opcodeLow w)).isSigned = true)
    (h : Sent a w .stCtrlFlowJumpCall 4#5 y) (irq : Nat → Bool) {j : Nat} (hj : j < 4) :
    (∃ g, (runFrom order y irq j).cpu.Latched { a with regs := g } w) ∧
      (runFrom order y irq j).cpu.ctrlFlowCondition =
        if j < 2 then staleCondition w y.cpu.fetch
        else callCondition w (callRegs (staleCondition w y.cpu.fetch) a.pc a.regs) := by
  obtain ⟨-, hs3, hc3⟩ := call_four order (irq 0) hw hs h
  have hs2 := call_step order (irq 1) hw hs3 (by decide)
    (by rw [call_latches order (irq 1) hs3]; rfl)
  -- a second write of `lr` changes nothing
  have hidem := callRegs_idem (staleCondition w y.cpu.fetch) a.pc a.regs
  have hl2 := call_condsLatched order (irq 1) hw hs3 (by rw [hc3]; exact hidem)
  rw [hc3] at hs2
  dsimp only at hs2
  rw [hidem] at hs2
  have hc2 := Frost32Cpu.ctrlFlowCondition_call hs2.latched hw (fun _ => hl2)
  have hcnt : ((y.step order (irq 0)).step order (irq 1)).cpu.decode.stallCounter = 2#5 :=
    hs2.counter
  have hs1 := latched_step_post order (irq 2) hs2.inv hs2.latched
    (by rw [hcnt]; decide) (by rw [hcnt]; decide)
  match j, hj with
  | 0, _ =>
    exact ⟨⟨_, h.latched⟩, Frost32Cpu.ctrlFlowCondition_signed h.latched hw hs⟩
  | 1, _ => exact ⟨⟨_, hs3.latched⟩, hc3⟩
  | 2, _ => exact ⟨⟨_, hs2.latched⟩, hc2⟩
  | 3, _ =>
    refine ⟨⟨_, hs1⟩, ?_⟩
    -- loading the next instruction leaves the comparisons
    obtain ⟨addr, hf⟩ := Frost32Cpu.fetchAtTwo_eq hs2.inv.state
    have hfetch : (((y.step order (irq 0)).step order (irq 1)).step order (irq 2)).cpu.fetch
        = ((y.step order (irq 0)).step order (irq 1)).cpu.fetch.prepLoadInstruction addr := by
      rw [step_fetch, Frost32Cpu.fetchStage_atTwo rfl hcnt, hf]
    rw [Frost32Cpu.ctrlFlowCondition_signed hs2.latched hw hs] at hc2
    refine (Frost32Cpu.ctrlFlowCondition_signed hs1 hw hs).trans (Eq.trans ?_ hc2)
    rw [hfetch]
    rfl

end Call

end System

end Frost32.Hdl
