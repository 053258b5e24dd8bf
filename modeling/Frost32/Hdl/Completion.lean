import Frost32.Hdl.Pipeline

namespace Frost32.Hdl

open Isa (Regs Arch)

/-!
# What the execute stage makes of an instruction

An instruction waits in the execute latch until it completes.  `Latched a w s` says that the
instruction `w` of the state `a` is there and that the live registers are still those of
`a`; this file compares what the stages then compute with `Isa.exec`.

* `settledRegs` — the registers once the instruction in the execute stage has completed.
* `exec_of_nonstalling` — **an instruction that does not stall** has exactly the effect of
  the instruction set on them.
* `fetchBranch_eq`, `fetchJumpCall_eq` — where a branch or jump loads the next instruction.
* `quiet_of_stalling` — branches, jumps and the stalling instructions of group 6 post nothing.
* `ldstAddress_eq`, `fetchMemAccess_addr`, `settledRegs_memAccess` — loads and stores.
-/

/-! ### Combinational facts -/

/-- The sixteen opcodes, for case distinctions. -/
theorem opcode_cases (op : BitVec 4) :
    op = 0#4 ∨ op = 1#4 ∨ op = 2#4 ∨ op = 3#4 ∨ op = 4#4 ∨ op = 5#4 ∨ op = 6#4 ∨ op = 7#4 ∨
      op = 8#4 ∨ op = 9#4 ∨ op = 10#4 ∨ op = 11#4 ∨ op = 12#4 ∨ op = 13#4 ∨ op = 14#4 ∨
      op = 15#4 := by
  revert op
  decide

theorem ofFlag_eq (p : Bool) : ofFlag p = Isa.flag p := by cases p <;> rfl

/-- The `Alu` computes the group 0 operations other than `mul`, `udiv` and `sdiv`. -/
theorem alu_eq_aluOp {op : BitVec 4} (h6 : op ≠ 6#4) (h14 : op ≠ 14#4) (h15 : op ≠ 15#4)
    (b c : Word) : alu { a := b, b := c, oper := op } = Isa.aluOp op b c := by
  rcases opcode_cases op with rfl | rfl | rfl | rfl | rfl | rfl | rfl | rfl | rfl | rfl | rfl |
    rfl | rfl | rfl | rfl | rfl
  case inr.inr.inr.inr.inr.inr.inl => exact absurd rfl h6
  case inr.inr.inr.inr.inr.inr.inr.inr.inr.inr.inr.inr.inr.inr.inl => exact absurd rfl h14
  case inr.inr.inr.inr.inr.inr.inr.inr.inr.inr.inr.inr.inr.inr.inr => exact absurd rfl h15
  all_goals first
    | rfl
    | exact ofFlag_eq _

/-- The immediate of a load or store is sign extended twice. -/
theorem signExtend_signExtend {n m k : Nat} (x : BitVec n) (hnm : n ≤ m) (hmk : m ≤ k) :
    (x.signExtend m).signExtend k = x.signExtend k := by
  apply BitVec.eq_of_toInt_eq
  rw [BitVec.toInt_signExtend_of_le hmk, BitVec.toInt_signExtend_of_le hnm,
    BitVec.toInt_signExtend_of_le (hnm.trans hmk)]

/-- The stores. -/
def LdstType.isStore : LdstType → Bool
  | .st32 | .st16 | .st8 => true
  | _ => false

/-- The value a load gives `rA` from the word on the bus: always its low end. -/
def LdstType.loaded (t : LdstType) (data : Word) : Option Word :=
  match t with
  | .ld32 => some data
  | .ldU16 => some ((data.extractLsb' 0 16).setWidth 32)
  | .ldS16 => some ((data.extractLsb' 0 16).signExtend 32)
  | .ldU8 => some ((data.extractLsb' 0 8).setWidth 32)
  | .ldS8 => some ((data.extractLsb' 0 8).signExtend 32)
  | _ => none

theorem LdstType.loaded_eq_none_iff (t : LdstType) (data : Word) :
    t.loaded data = none ↔ t.isStore = true := by
  cases t <;> simp [loaded, isStore]

namespace Frost32Cpu

variable {i : PortInFrost32Cpu} {s : Frost32Cpu} {bo : Isa.ByteOrder} {a : Arch} {w : Word}

/-- The registers once the instruction in the execute stage has completed. -/
def settledRegs (i : PortInFrost32Cpu) (s : Frost32Cpu) : Regs :=
  s.liveRegs.set (s.executeStage i).prevWrittenRegIndex0 (s.executeStage i).nRegData0

/-- The registers an instruction at `w` reads, from the registers `g`. -/
def operandsOf (w : Word) (g : Regs) : Operands where
  ra := g.val (instrDecoder w).raIndex
  rb := g.val (instrDecoder w).rbIndex
  rc := g.val (instrDecoder w).rcIndex

/-- The instruction `w` of the state `a` is in the execute stage and has changed nothing. -/
structure Latched (a : Arch) (w : Word) (s : Frost32Cpu) : Prop where
  latch : s.decode.multiStageDataExecute = .ofWord w a.pc
  reads : s.ReadsLatch
  live : s.liveRegs = a.regs
  iretaData : s.decode.iretaData = a.ireta
  idstaData : s.decode.idstaData = a.idsta

theorem Latched.rfileData (h : Latched a w s) : s.rfileData = operandsOf w a.regs := by
  rw [rfileData_eq h.reads, h.latch, h.live]
  rfl

/-- Posting a value for `rA`. -/
theorem settledRegs_of_post {r : RegIndex} {v : Word}
    (h : (s.executeStage i).prevWrittenRegIndex0 = r ∧ (s.executeStage i).nRegData0 = v) :
    s.settledRegs i = s.liveRegs.set r v := by
  rw [settledRegs, h.1, h.2]

/-- Posting nothing. -/
theorem settledRegs_of_quiet (h : (s.executeStage i).prevWrittenRegIndex0 = 0#4) :
    s.settledRegs i = s.liveRegs := by
  rw [settledRegs, h, Regs.set_zero]

section LatchedFields

variable (h : Latched a w s)
include h

theorem Latched.group : s.decode.multiStageDataExecute.instrGroup = (instrDecoder w).group := by
  rw [h.latch]; rfl
theorem Latched.opcode :
    s.decode.multiStageDataExecute.instrOpcode = (instrDecoder w).opcode := by
  rw [h.latch]; rfl
theorem Latched.raIndex :
    s.decode.multiStageDataExecute.instrRaIndex = (instrDecoder w).raIndex := by
  rw [h.latch]; rfl
theorem Latched.immVal :
    s.decode.multiStageDataExecute.instrImmVal = (instrDecoder w).immVal := by
  rw [h.latch]; rfl
theorem Latched.ldstType :
    s.decode.multiStageDataExecute.instrLdstType = (instrDecoder w).ldstType := by
  rw [h.latch]; rfl
theorem Latched.conditionType :
    s.decode.multiStageDataExecute.instrConditionType = (instrDecoder w).conditionType := by
  rw [h.latch]; rfl
theorem Latched.pcVal : s.decode.multiStageDataExecute.pcVal = a.pc := by
  rw [h.latch]; rfl
theorem Latched.following : s.followingPcStageExecute = a.pc + 4 := by
  rw [followingPcStageExecute, h.pcVal]

end LatchedFields

/-! ### Undefined control flow opcodes -/

/-- An opcode of a branch that does not stall is undefined, and a branch is never taken on it. -/
private theorem branchTaken_of_undefined {op : BitVec 4} (h : op.ult 12#4 = false) (x y : Word)
    (ie : Bool) : Isa.branchTaken op x y ie = false := by
  rcases opcode_cases op with rfl | rfl | rfl | rfl | rfl | rfl | rfl | rfl | rfl | rfl | rfl |
    rfl | rfl | rfl | rfl | rfl <;> first | exact absurd h (by decide) | rfl

/-- The same for jumps and calls. -/
private theorem condHolds_of_undefined {op : BitVec 4} (h : op.ult 10#4 = false) (x y : Word) :
    Isa.condHolds op x y = false := by
  rcases opcode_cases op with rfl | rfl | rfl | rfl | rfl | rfl | rfl | rfl | rfl | rfl | rfl |
    rfl | rfl | rfl | rfl | rfl <;> first | exact absurd h (by decide) | rfl

/-- The execute stage does nothing for an undefined call. -/
theorem executeCalls_of_undefined {op : BitVec 4} (h : op.ult 10#4 = false)
    (hc : s.decode.multiStageDataExecute.instrConditionType = .ofBits op) (e : ExecuteRegs) :
    s.executeCalls e = e.stopOperandForwardingOrWriteBack := by
  unfold executeCalls
  rw [hc]
  rcases opcode_cases op with rfl | rfl | rfl | rfl | rfl | rfl | rfl | rfl | rfl | rfl | rfl |
    rfl | rfl | rfl | rfl | rfl <;> first | exact absurd h (by decide) | rfl

/-! ### Instructions that do not stall -/

section NonStalling

variable (h : Latched a w s) (hw : i.waitForMem = false)
include h hw

/-- The result of the `Alu` for group 0. -/
private theorem outAlu_group0 (hg : Isa.group w = 0#4) (h6 : Isa.opcodeLow w ≠ 6#4)
    (h14 : Isa.opcodeLow w ≠ 14#4) (h15 : Isa.opcodeLow w ≠ 15#4) :
    s.outAlu i = Isa.aluOp (Isa.opcodeLow w) (a.regs.val (Isa.fieldB w))
      (a.regs.val (Isa.fieldC w)) := by
  rw [← alu_eq_aluOp h6 h14 h15]
  unfold outAlu inAlu
  dsimp only
  rw [if_neg (by simp [hw]), h.group, h.opcode, h.rfileData, operandsOf,
    instrDecoder_of_group0 hg]
  rfl

/-- The result of the `Alu` for group 1. -/
private theorem outAlu_group1 (hg : Isa.group w = 1#4) (h6 : Isa.opcodeHigh w ≠ 6#4)
    (h14 : Isa.opcodeHigh w ≠ 14#4) (h15 : Isa.opcodeHigh w ≠ 15#4) :
    s.outAlu i = Isa.aluOp (Isa.opcodeHigh w) (a.regs.val (Isa.fieldB w))
      (Isa.extendImm (Isa.opcodeHigh w) (Isa.imm16 w)) := by
  rw [← alu_eq_aluOp h6 h14 h15]
  unfold outAlu inAlu
  dsimp only
  rw [if_neg (by simp [hw]), h.group, h.opcode, h.rfileData, h.immVal, operandsOf,
    instrDecoder_of_group1 hg]
  rfl

/-- An instruction of group 0 that is not a multiplication or division. -/
private theorem exec_group0 (hg : Isa.group w = 0#4)
    (hst : (instrDecoder w).causesStall = false) :
    Isa.exec bo w a = { a.next with regs := s.settledRegs i } := by
  have hd := instrDecoder_of_group0 hg
  rw [hd] at hst
  simp only [Bool.or_eq_false_iff, beq_eq_false_iff_ne] at hst
  obtain ⟨⟨h6, h14⟩, h15⟩ := hst
  have hpost : s.executeStage i = s.shiftedRecord.prepRegWb (Isa.fieldA w) (s.outAlu i) := by
    rw [executeStage_group0 hw (by rw [h.group, hd]), executeThreeRegs_eq, h.opcode, hd,
      if_neg h6, if_neg h14, if_neg h15, prepRaWb, h.raIndex, hd]
  rw [settledRegs, hpost, h.live, outAlu_group0 h hw hg h6 h14 h15]
  simp only [Isa.exec, hg]
  rfl

/-- An instruction of group 1 other than `muli`. -/
private theorem exec_group1 (hg : Isa.group w = 1#4)
    (hst : (instrDecoder w).causesStall = false) :
    Isa.exec bo w a = { a.next with regs := s.settledRegs i } := by
  have hd := instrDecoder_of_group1 hg
  rw [hd] at hst
  have h6 : Isa.opcodeHigh w ≠ 6#4 := by simpa using hst
  have hpost : s.executeStage i = s.shiftedRecord.prepRegWb (Isa.fieldA w)
      (Isa.immOp (Isa.opcodeHigh w) (Isa.imm16 w) a.pc (a.regs.val (Isa.fieldA w))
        (a.regs.val (Isa.fieldB w))) := by
    rw [executeStage_group1 hw (by rw [h.group, hd]), executeImmediates_eq, h.opcode, hd]
    unfold prepRaWb Isa.immOp
    rw [h.raIndex, hd]
    by_cases h15 : Isa.opcodeHigh w = 15#4
    · -- `cpyhi`
      rw [if_pos h15, if_neg (by rw [h15]; decide), if_pos h15, cpyhiData, h.immVal,
        h.rfileData, operandsOf, hd]
    · by_cases h14 : Isa.opcodeHigh w = 14#4
      · -- `addsi`
        rw [if_neg h15, if_pos h14, if_pos h14, h.pcVal, h.immVal, hd]
      · rw [if_neg h15, if_neg h14, if_neg h6, if_neg h14, if_neg h15,
          outAlu_group1 h hw hg h6 h14 h15]
  rw [settledRegs, hpost, h.live]
  simp only [Isa.exec, hg]
  rfl

/-- A control flow opcode that does not stall is undefined. -/
private theorem exec_ctrlFlow
    (hg : Isa.group w = 2#4 ∨ Isa.group w = 3#4 ∨ Isa.group w = 4#4)
    (hst : (instrDecoder w).causesStall = false) :
    Isa.exec bo w a = { a.next with regs := s.settledRegs i } := by
  rcases hg with hg | hg | hg
  · have hd := instrDecoder_of_group2 hg
    rw [hd] at hst
    rw [settledRegs_of_quiet, h.live]
    · simp only [Isa.exec, hg, branchTaken_of_undefined hst]
      rfl
    · rw [executeStage_group2 hw (by rw [h.group, hd])]
      rfl
  · have hd := instrDecoder_of_group3 hg
    rw [hd] at hst
    rw [settledRegs_of_quiet, h.live]
    · simp only [Isa.exec, hg, condHolds_of_undefined hst]
      rfl
    · rw [executeStage_group3 hw (by rw [h.group, hd])]
      rfl
  · have hd := instrDecoder_of_group4 hg
    rw [hd] at hst
    rw [settledRegs_of_quiet, h.live]
    · simp only [Isa.exec, hg, condHolds_of_undefined hst]
      rfl
    · rw [executeStage_group4 hw (by rw [h.group, hd]),
        executeCalls_of_undefined hst (by rw [h.conditionType, hd])]
      rfl

/-- `cpy rA, ireta`, `cpy rA, idsta` and the undefined opcodes of group 6. -/
private theorem exec_group6 (hg : Isa.group w = 6#4)
    (hst : (instrDecoder w).causesStall = false) :
    Isa.exec bo w a = { a.next with regs := s.settledRegs i } := by
  have hd := instrDecoder_of_group6 hg
  rw [hd] at hst
  have hex := executeStage_group6 hw (by rw [h.group, hd])
  rw [executeInterruptsStuff_eq, h.opcode, hd] at hex
  by_cases h3 : Isa.opcodeLow w = 3#4
  · rw [if_pos h3, prepRaWb, h.raIndex, hd, h.iretaData] at hex
    rw [settledRegs, hex, h.live]
    simp only [Isa.exec, hg, Isa.execInterrupts, h3]
    rfl
  · by_cases h5 : Isa.opcodeLow w = 5#4
    · rw [if_neg h3, if_pos h5, prepRaWb, h.raIndex, hd, h.idstaData] at hex
      rw [settledRegs, hex, h.live]
      simp only [Isa.exec, hg, Isa.execInterrupts, h5]
      rfl
    · rw [if_neg h3, if_neg h5] at hex
      rw [settledRegs_of_quiet (by rw [hex]; rfl), h.live]
      simp only [Isa.exec, hg]
      unfold Isa.execInterrupts
      dsimp only at hst h3 h5
      rcases opcode_cases (Isa.opcodeLow w) with he | he | he | he | he | he | he | he | he | he |
        he | he | he | he | he | he <;> rw [he] at hst h3 h5 ⊢ <;>
        first | exact absurd hst (by decide) | exact absurd rfl h3 | exact absurd rfl h5 | rfl

/-- The undefined groups. -/
private theorem exec_undefined (hg : 7 ≤ (Isa.group w).toNat) :
    Isa.exec bo w a = { a.next with regs := s.settledRegs i } := by
  have hd := instrDecoder_of_undefined hg
  have hpost : s.executeStage i = s.shiftedRecord.prepRegWb 0#4 (s.outAlu i) := by
    rw [executeStage_group0 hw (by rw [h.group, hd]), executeThreeRegs_eq, h.opcode, hd,
      if_neg (by decide), if_neg (by decide), if_neg (by decide), prepRaWb, h.raIndex, hd]
  rw [settledRegs, hpost, h.live]
  have hne : ∀ g : BitVec 4, g.toNat < 7 → Isa.group w ≠ g := by
    intro g hlt he
    rw [he] at hg
    omega
  unfold Isa.exec
  dsimp only
  split
  case h_8 => exact congrArg (fun g => { a.next with regs := g }) (Regs.set_zero _ _).symm
  all_goals exact absurd ‹_› (hne _ (by decide))

/-- **An instruction that does not stall** has its effect on the registers once it has
    completed, and no other effect but the next address. -/
theorem exec_of_nonstalling (hst : (instrDecoder w).causesStall = false) :
    Isa.exec bo w a = { a.next with regs := s.settledRegs i } := by
  rcases group_cases w with hg | hg | hg | hg | hg | hg | hg | hg
  · exact exec_group0 h hw hg hst
  · exact exec_group1 h hw hg hst
  · exact exec_ctrlFlow h hw (Or.inl hg) hst
  · exact exec_ctrlFlow h hw (Or.inr (Or.inl hg)) hst
  · exact exec_ctrlFlow h hw (Or.inr (Or.inr hg)) hst
  · -- all loads and stores stall
    rw [instrDecoder_of_group5 hg] at hst
    exact absurd hst (by simp)
  · exact exec_group6 h hw hg hst
  · exact exec_undefined h hw hg

end NonStalling

/-! ### Control flow -/

/-- The signed comparisons of the current operands are latched. -/
structure CondsLatched (s : Frost32Cpu) : Prop where
  lts : s.fetch.condLts = s.compareLts
  ges : s.fetch.condGes = s.compareGes
  les : s.fetch.condLes = s.compareLes
  gts : s.fetch.condGts = s.compareGts

theorem handleBranchInFetchStage_eq (c : Bool) :
    s.handleBranchInFetchStage c = s.fetch.prepLoadInstruction
      (if c then s.branchAdderA + s.branchAdderB else s.followingPcStageExecute) := by
  cases c <;> rfl

theorem handleJumpOrCallInFetchStage_eq (c : Bool) :
    s.handleJumpOrCallInFetchStage c = s.fetch.prepLoadInstruction
      (if c then s.rfileData.rc else s.followingPcStageExecute) := by
  cases c <;> rfl

/-- The condition a branch opcode tests, the signed ones from the latched flags. -/
theorem fetchBranch_of {op : BitVec 4}
    (hc : s.decode.multiStageDataExecute.instrConditionType = .ofBits op)
    (hsgn : (CondType.ofBits op).isSigned = true → s.CondsLatched) :
    s.fetchBranch = s.handleBranchInFetchStage
      (Isa.branchTaken op s.rfileData.ra s.rfileData.rb s.decode.ie) := by
  unfold fetchBranch
  rw [hc]
  rcases opcode_cases op with rfl | rfl | rfl | rfl | rfl | rfl | rfl | rfl | rfl | rfl | rfl |
    rfl | rfl | rfl | rfl | rfl
  case inr.inr.inr.inr.inr.inr.inl =>
    exact congrArg s.handleBranchInFetchStage (hsgn (by decide)).lts
  case inr.inr.inr.inr.inr.inr.inr.inl =>
    exact congrArg s.handleBranchInFetchStage (hsgn (by decide)).ges
  case inr.inr.inr.inr.inr.inr.inr.inr.inl =>
    exact congrArg s.handleBranchInFetchStage (hsgn (by decide)).les
  case inr.inr.inr.inr.inr.inr.inr.inr.inr.inl =>
    exact congrArg s.handleBranchInFetchStage (hsgn (by decide)).gts
  all_goals rfl

/-- The condition that the fetch and the execute stage consult for a jump or call. -/
def ctrlFlowCondition (s : Frost32Cpu) : Bool :=
  match s.decode.multiStageDataExecute.instrConditionType with
  | .ctNe => s.compareNe
  | .ctEq => s.compareEq
  | .ctLtu => s.compareLtu
  | .ctGeu => s.compareGeu
  | .ctLeu => s.compareLeu
  | .ctGtu => s.compareGtu
  | .ctLts => s.fetch.condLts
  | .ctGes => s.fetch.condGes
  | .ctLes => s.fetch.condLes
  | .ctGts => s.fetch.condGts
  | _ => false

/-- It is the condition of the opcode, the signed ones from the latched flags. -/
theorem ctrlFlowCondition_eq {op : BitVec 4}
    (hc : s.decode.multiStageDataExecute.instrConditionType = .ofBits op)
    (hsgn : (CondType.ofBits op).isSigned = true → s.CondsLatched) :
    s.ctrlFlowCondition = Isa.condHolds op s.rfileData.ra s.rfileData.rb := by
  unfold ctrlFlowCondition
  rw [hc]
  rcases opcode_cases op with rfl | rfl | rfl | rfl | rfl | rfl | rfl | rfl | rfl | rfl | rfl |
    rfl | rfl | rfl | rfl | rfl
  case inr.inr.inr.inr.inr.inr.inl => exact (hsgn (by decide)).lts
  case inr.inr.inr.inr.inr.inr.inr.inl => exact (hsgn (by decide)).ges
  case inr.inr.inr.inr.inr.inr.inr.inr.inl => exact (hsgn (by decide)).les
  case inr.inr.inr.inr.inr.inr.inr.inr.inr.inl => exact (hsgn (by decide)).gts
  all_goals rfl

theorem fetchJumpCall_condition :
    s.fetchJumpCall = s.handleJumpOrCallInFetchStage s.ctrlFlowCondition := by
  unfold fetchJumpCall ctrlFlowCondition
  cases s.decode.multiStageDataExecute.instrConditionType <;> rfl

/-- The same for jumps and calls. -/
theorem fetchJumpCall_of {op : BitVec 4}
    (hc : s.decode.multiStageDataExecute.instrConditionType = .ofBits op)
    (hsgn : (CondType.ofBits op).isSigned = true → s.CondsLatched) :
    s.fetchJumpCall = s.handleJumpOrCallInFetchStage
      (Isa.condHolds op s.rfileData.ra s.rfileData.rb) := by
  rw [fetchJumpCall_condition, ctrlFlowCondition_eq hc hsgn]

section Stalling

variable (h : Latched a w s)
include h

/-- A branch loads the next instruction from where the instruction set says. -/
theorem fetchBranch_eq (hg : Isa.group w = 2#4)
    (hie : s.decode.ie = a.ie)
    (hsgn : (instrDecoder w).conditionType.isSigned = true → s.CondsLatched) :
    s.fetchBranch = s.fetch.prepLoadInstruction (Isa.exec bo w a).pc := by
  have hd := instrDecoder_of_group2 hg
  rw [hd] at hsgn
  rw [fetchBranch_of (by rw [h.conditionType, hd]) hsgn, handleBranchInFetchStage_eq]
  congr 1
  rw [h.rfileData, hie, branchAdderA, branchAdderB, h.following, h.immVal, operandsOf, hd]
  simp only [Isa.exec, hg]
  split <;> rfl

/-- A jump loads it from where the instruction set says. -/
theorem fetchJumpCall_eq (hg : Isa.group w = 3#4)
    (hsgn : (instrDecoder w).conditionType.isSigned = true → s.CondsLatched) :
    s.fetchJumpCall = s.fetch.prepLoadInstruction (Isa.exec bo w a).pc := by
  have hd := instrDecoder_of_group3 hg
  rw [hd] at hsgn
  rw [fetchJumpCall_of (by rw [h.conditionType, hd]) hsgn, handleJumpOrCallInFetchStage_eq]
  congr 1
  rw [h.rfileData, h.following, operandsOf, hd]
  simp only [Isa.exec, hg]
  split <;> rfl

/-- Branches, jumps and the stalling instructions of group 6 post no result. -/
theorem quiet_of_stalling (hw : i.waitForMem = false)
    (hg : Isa.group w = 2#4 ∨ Isa.group w = 3#4 ∨ Isa.group w = 6#4)
    (hst : (instrDecoder w).causesStall = true) :
    s.executeStage i = s.shiftedRecord.stopOperandForwardingOrWriteBack := by
  rcases hg with hg | hg | hg
  · exact executeStage_group2 hw (by rw [h.group, instrDecoder_of_group2 hg])
  · exact executeStage_group3 hw (by rw [h.group, instrDecoder_of_group3 hg])
  · have hd := instrDecoder_of_group6 hg
    rw [hd] at hst
    rw [executeStage_group6 hw (by rw [h.group, hd]), executeInterruptsStuff_eq, h.opcode, hd]
    have h3 : Isa.opcodeLow w ≠ 3#4 := by
      intro he
      simp [he] at hst
    have h5 : Isa.opcodeLow w ≠ 5#4 := by
      intro he
      simp [he] at hst
    exact (if_neg h3).trans (if_neg h5)

end Stalling

/-! ### Loads and stores -/

/-- The address on the bus is the effective address. -/
theorem ldstAddress_eq (h : Latched a w s) (hg : Isa.group w = 5#4) :
    s.ldstAddress = a.ldstAddress w := by
  have hd := instrDecoder_of_group5 hg
  unfold ldstAddress ldstAdderA ldstAdderB Isa.Arch.ldstAddress
  rw [h.opcode, h.immVal, h.rfileData, operandsOf, hd]
  dsimp only
  rw [signExtend_signExtend _ (by omega) (by omega), BitVec.getLsbD_eq_getElem]

/-- Loads and stores post nothing before their last cycle. -/
theorem quiet_of_memAccess (h : Latched a w s) (hw : i.waitForMem = false)
    (hg : Isa.group w = 5#4) (hc : s.decode.stallCounter ≠ 1#5) :
    (s.executeStage i).prevWrittenRegIndex0 = 0#4 := by
  rw [executeStage_group5 hw (by rw [h.group, instrDecoder_of_group5 hg]), executeLoadsStores,
    if_neg hc]
  rfl

/-- The request on the bus. -/
theorem fetchMemAccess_addr : s.fetchMemAccess.out.addr = s.ldstAddress := by
  unfold fetchMemAccess
  split <;> rfl

theorem fetchMemAccess_we :
    s.fetchMemAccess.out.we = s.decode.multiStageDataExecute.instrLdstType.isStore := by
  unfold fetchMemAccess
  split <;> rename_i ht <;> rw [ht] <;> rfl

theorem fetchMemAccess_data
    (hs : s.decode.multiStageDataExecute.instrLdstType.isStore = true) :
    s.fetchMemAccess.out.data = s.rfileData.ra := by
  unfold fetchMemAccess
  split <;> rename_i ht <;> rw [ht] at hs <;> first | exact absurd hs (by decide) | rfl

/-- In its last cycle a load posts its value of the word on the bus; a store posts nothing. -/
theorem settledRegs_memAccess (h : Latched a w s) (hw : i.waitForMem = false)
    (hg : Isa.group w = 5#4) (hc : s.decode.stallCounter = 1#5) :
    s.settledRegs i =
      match (instrDecoder w).ldstType.loaded i.data with
      | some v => a.regs.set (Isa.fieldA w) v
      | none => a.regs := by
  have hd := instrDecoder_of_group5 hg
  have hra : s.decode.multiStageDataExecute.instrRaIndex = Isa.fieldA w := by rw [h.raIndex, hd]
  rw [settledRegs, executeStage_group5 hw (by rw [h.group, hd]), executeLoadsStores, if_pos hc,
    h.ldstType, h.live]
  cases (instrDecoder w).ldstType with
  | st32 => exact Regs.set_zero _ _
  | st16 => exact Regs.set_zero _ _
  | st8 => exact Regs.set_zero _ _
  | ld32 => exact congrArg (fun r => a.regs.set r _) hra
  | ldU16 => exact congrArg (fun r => a.regs.set r _) hra
  | ldS16 => exact congrArg (fun r => a.regs.set r _) hra
  | ldU8 => exact congrArg (fun r => a.regs.set r _) hra
  | ldS8 => exact congrArg (fun r => a.regs.set r _) hra

end Frost32Cpu

end Frost32.Hdl
