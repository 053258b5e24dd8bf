import Frost32.Hdl.Frost32Cpu

namespace Frost32.Hdl

open Isa (Regs)

/-!
# Operand forwarding

The value of a register at a given moment is spread over four places: the record just
written by the execute stage, the record before it, the write port (which repeats the
older record) and the array of the register file.  This file collects them into one set of
registers and shows that the execute stage reads its operands from it.

* `liveRegs` — the registers as the forwarding network presents them.
* `WritePortOk`, `LatchOk`, `ReadsLatch` — what the write port, the execute latch and the
  read ports of the register file hold; each is kept by every edge.
* `rfileData_eq` — the operands are the live values of the latched registers.
* `liveRegs_step` — **an edge changes the live registers by exactly the record that the
  execute stage loads**; a cycle of waiting changes nothing (`liveRegs_wait`).
-/

/-! ### The latch of the execute stage -/

/-- The stage data of the instruction word `w` at address `pc`. -/
def MultiStageData.ofWord (w pc : Word) : MultiStageData where
  rawInstruction := w
  instrRaIndex := (instrDecoder w).raIndex
  instrRbIndex := (instrDecoder w).rbIndex
  instrRcIndex := (instrDecoder w).rcIndex
  instrImmVal := (instrDecoder w).immVal
  instrGroup := (instrDecoder w).group
  instrOpcode := (instrDecoder w).opcode
  instrLdstType := (instrDecoder w).ldstType
  instrCausesStall := (instrDecoder w).causesStall
  instrConditionType := (instrDecoder w).conditionType
  pcVal := pc

/-- The latch holds a decoded instruction or a bubble. -/
def MultiStageData.LatchOk (m : MultiStageData) : Prop :=
  m = m.makeBubble ∨ m = .ofWord m.rawInstruction m.pcVal

theorem MultiStageData.latchOk_ofWord (w pc : Word) : (MultiStageData.ofWord w pc).LatchOk :=
  Or.inr rfl

theorem MultiStageData.latchOk_makeBubble (m : MultiStageData) : m.makeBubble.LatchOk :=
  Or.inl rfl

namespace Frost32Cpu

variable (order : BlockOrder) (i : PortInFrost32Cpu) (s : Frost32Cpu)

theorem multiStageDataInstrDecode_eq :
    s.multiStageDataInstrDecode i = .ofWord (s.inInstrDecoder i) s.fetch.pcVal := rfl

theorem inStall_iff : s.inStall = true ↔ s.decode.stallCounter ≠ 0#5 := by
  simp [inStall]

theorem inStall_eq_false (h : s.decode.stallCounter = 0#5) : s.inStall = false := by
  simp [inStall, h]

/-! ### The live registers -/

/-- The array of the register file as registers. -/
def arrayRegs : Regs where
  val := fun r => if r = 0#4 then 0 else s.regFile.regfile r
  zero := if_pos rfl

/-- The registers as the forwarding network presents them. -/
def liveRegs : Regs :=
  (s.arrayRegs.set s.execute.prevWrittenRegIndex1 s.execute.nRegData1).set
    s.execute.prevWrittenRegIndex0 s.execute.nRegData0

/-- The write port repeats the older write-back record. -/
structure WritePortOk : Prop where
  sel : s.writeBack.writeEn = true → s.writeBack.writeSel = s.execute.prevWrittenRegIndex1
  data : s.writeBack.writeEn = true → s.writeBack.writeData = s.execute.nRegData1
  none : s.writeBack.writeEn = false → s.execute.prevWrittenRegIndex1 = 0#4

/-- The read ports hold the array's values of the latched registers. -/
structure ReadsLatch : Prop where
  ra : s.decode.multiStageDataExecute.instrRaIndex ≠ 0#4 →
    s.regFile.readDataRa = s.regFile.regfile s.decode.multiStageDataExecute.instrRaIndex
  rb : s.decode.multiStageDataExecute.instrRbIndex ≠ 0#4 →
    s.regFile.readDataRb = s.regFile.regfile s.decode.multiStageDataExecute.instrRbIndex
  rc : s.decode.multiStageDataExecute.instrRcIndex ≠ 0#4 →
    s.regFile.readDataRc = s.regFile.regfile s.decode.multiStageDataExecute.instrRcIndex

/-- A port that holds the array's value of its register is forwarded to the live value. -/
theorem performOperandForwarding_eq (r : RegIndex) (readData : Word)
    (h : r ≠ 0#4 → readData = s.regFile.regfile r) :
    performOperandForwarding r s.execute readData = s.liveRegs.val r := by
  unfold performOperandForwarding liveRegs
  rw [Regs.set_val, Regs.set_val]
  by_cases hr : r = 0#4
  · rw [if_pos hr, if_pos hr]
  · simp only [if_neg hr]
    rw [h hr]
    simp [arrayRegs, hr]

variable {s}

/-- **The operands are the live values of the latched registers.** -/
theorem rfileData_eq (h : s.ReadsLatch) :
    s.rfileData =
      { ra := s.liveRegs.val s.decode.multiStageDataExecute.instrRaIndex
        rb := s.liveRegs.val s.decode.multiStageDataExecute.instrRbIndex
        rc := s.liveRegs.val s.decode.multiStageDataExecute.instrRcIndex } := by
  rw [rfileData, performOperandForwarding_eq s _ _ h.ra, performOperandForwarding_eq s _ _ h.rb,
    performOperandForwarding_eq s _ _ h.rc]

/-- Writing the array through the write port is writing the older record. -/
theorem arrayRegs_written (h : s.WritePortOk) (r : RegIndex) (hr : r ≠ 0#4) :
    s.regFile.written s.writeBack r
      = (s.arrayRegs.set s.execute.prevWrittenRegIndex1 s.execute.nRegData1).val r := by
  unfold RegisterFile.written
  rw [Regs.set_val, if_neg hr]
  cases hen : s.writeBack.writeEn with
  | false =>
    rw [h.none hen, if_neg hr]
    simp [arrayRegs, hr]
  | true =>
    rw [h.sel hen, h.data hen]
    by_cases hp : s.execute.prevWrittenRegIndex1 = 0#4
    · simp [hp, hr, arrayRegs]
    · by_cases hrp : r = s.execute.prevWrittenRegIndex1
      · subst hrp
        simp [hp]
      · simp [hp, hrp, hr, arrayRegs]

variable {order i}

@[simp] theorem step_fetch : (s.step i order).fetch = s.fetchStage i := rfl
@[simp] theorem step_decode : (s.step i order).decode = s.decodeStage i := rfl
@[simp] theorem step_execute : (s.step i order).execute = s.executeStage i := rfl
@[simp] theorem step_writeBack : (s.step i order).writeBack = s.writeBackStage i := rfl
@[simp] theorem step_regfile :
    (s.step i order).regFile.regfile = s.regFile.written s.writeBack := rfl
@[simp] theorem step_mul32 : (s.step i order).mul32 = s.mul32.step s.execute.inMul32 := rfl
@[simp] theorem step_div32 : (s.step i order).div32
    = s.div32.step numIterationsPerDivide32Cycle order s.execute.inDiv32 := rfl

/-- The array after an edge is the array with the older record written. -/
theorem arrayRegs_step (h : s.WritePortOk) :
    (s.step i order).arrayRegs
      = s.arrayRegs.set s.execute.prevWrittenRegIndex1 s.execute.nRegData1 := by
  ext r : 1
  by_cases hr : r = 0#4
  · rw [hr, Regs.zero, Regs.zero]
  · rw [← arrayRegs_written h r hr]
    simp [arrayRegs, hr]

/-! ### The records move down one level -/

/-- Whatever the execute stage does, it moves its last record to the second level. -/
theorem executeStage_shift (hw : i.waitForMem = false) :
    (s.executeStage i).prevWrittenRegIndex1 = s.execute.prevWrittenRegIndex0 ∧
      (s.executeStage i).nRegData1 = s.execute.nRegData0 := by
  unfold executeStage
  rw [if_neg (by simp [hw])]
  split
  · -- group 0
    unfold executeThreeRegs ctrlMultiply32 ctrlDivide32
    dsimp only
    repeat' split
    all_goals exact ⟨rfl, rfl⟩
  · -- group 1
    unfold executeImmediates ctrlMultiply32
    dsimp only
    repeat' split
    all_goals exact ⟨rfl, rfl⟩
  · exact ⟨rfl, rfl⟩
  · exact ⟨rfl, rfl⟩
  · -- group 4
    unfold executeCalls
    split <;> exact ⟨rfl, rfl⟩
  · -- group 5
    unfold executeLoadsStores
    repeat' split
    all_goals exact ⟨rfl, rfl⟩
  · -- group 6
    unfold executeInterruptsStuff
    dsimp only
    repeat' split
    all_goals exact ⟨rfl, rfl⟩
  · exact ⟨rfl, rfl⟩

theorem writePortOk_step (h : s.WritePortOk) : (s.step i order).WritePortOk := by
  cases hw : i.waitForMem with
  | true =>
    -- Nothing the invariant speaks of is clocked.
    have hwb : s.writeBackStage i = s.writeBack := if_pos hw
    have hex : s.executeStage i = s.execute := if_pos hw
    constructor
    · rw [step_writeBack, step_execute, hwb, hex]; exact h.sel
    · rw [step_writeBack, step_execute, hwb, hex]; exact h.data
    · rw [step_writeBack, step_execute, hwb, hex]; exact h.none
  | false =>
    have hwb : s.writeBackStage i = { writeEn := true, writeSel := _, writeData := _ } :=
      if_neg (by simp [hw])
    obtain ⟨hsel, hdata⟩ := executeStage_shift (s := s) hw
    constructor
    · intro _
      rw [step_writeBack, step_execute, hwb, hsel]
    · intro _
      rw [step_writeBack, step_execute, hwb, hdata]
    · intro hen
      rw [step_writeBack, hwb] at hen
      exact absurd hen (by simp)

/-- **An edge changes the live registers by the record the execute stage loads.** -/
theorem liveRegs_step (h : s.WritePortOk) (hw : i.waitForMem = false) :
    (s.step i order).liveRegs
      = s.liveRegs.set (s.executeStage i).prevWrittenRegIndex0 (s.executeStage i).nRegData0 := by
  obtain ⟨hsel, hdata⟩ := executeStage_shift (s := s) hw
  unfold liveRegs
  rw [arrayRegs_step h, step_execute, hsel, hdata]

/-- A cycle of waiting leaves the live registers as they are. -/
theorem liveRegs_wait (h : s.WritePortOk) (hw : i.waitForMem = true) :
    (s.step i order).liveRegs = s.liveRegs := by
  have hex : s.executeStage i = s.execute := if_pos hw
  unfold liveRegs
  rw [arrayRegs_step h, step_execute, hex, Regs.set_set]

/-! ### The latch and the read ports -/

theorem latchOk_step (h : s.decode.multiStageDataExecute.LatchOk) :
    (s.step i order).decode.multiStageDataExecute.LatchOk := by
  rw [step_decode]
  unfold decodeStage
  split
  · exact h
  split
  · unfold decodeInStall
    simp only
    split
    · exact MultiStageData.latchOk_makeBubble _
    · split
      · -- `stall_counter == 2` only touches the special registers
        unfold decodeAtTwo
        repeat' split
        all_goals exact h
      · exact h
  · split
    · exact MultiStageData.latchOk_makeBubble _
    · exact MultiStageData.latchOk_ofWord _ _

/-- The latch after an edge names no register, or the registers the edge reads. -/
theorem latch_reads (h : s.decode.multiStageDataExecute.LatchOk)
    (hw : i.waitForMem = false ∨ s.inStall = true) :
    let m := (s.decodeStage i).multiStageDataExecute
    let r := s.inRegFile i
    (m.instrRaIndex = 0#4 ∨ r.readSelRa = m.instrRaIndex) ∧
      (m.instrRbIndex = 0#4 ∨ r.readSelRb = m.instrRbIndex) ∧
      (m.instrRcIndex = 0#4 ∨ r.readSelRc = m.instrRcIndex) := by
  -- In a stall the decoder sees the latched instruction again.
  have hheld : s.inStall = true →
      let m := s.decode.multiStageDataExecute
      (m.instrRaIndex = 0#4 ∨ (s.inRegFile i).readSelRa = m.instrRaIndex) ∧
        (m.instrRbIndex = 0#4 ∨ (s.inRegFile i).readSelRb = m.instrRbIndex) ∧
        (m.instrRcIndex = 0#4 ∨ (s.inRegFile i).readSelRc = m.instrRcIndex) := by
    intro hst
    rcases h with hb | heq
    · refine ⟨Or.inl ?_, Or.inl ?_, Or.inl ?_⟩ <;> rw [hb] <;> rfl
    · have hdec : s.multiStageDataInstrDecode i
          = .ofWord s.decode.multiStageDataExecute.rawInstruction s.fetch.pcVal := by
        rw [multiStageDataInstrDecode_eq, inInstrDecoder, if_pos hst]
      refine ⟨Or.inr ?_, Or.inr ?_, Or.inr ?_⟩
      · rw [inRegFile, hdec, heq]; rfl
      · rw [inRegFile, hdec, heq]; rfl
      · rw [inRegFile, hdec, heq]; rfl
  unfold decodeStage
  split
  · rename_i hwait
    rcases hw with hw | hw
    · exact absurd hwait (by simp [hw])
    · exact hheld hw
  split
  · rename_i hst
    unfold decodeInStall
    simp only
    split
    · exact ⟨Or.inl rfl, Or.inl rfl, Or.inl rfl⟩
    · split
      · unfold decodeAtTwo
        repeat' split
        all_goals exact hheld hst
      · exact hheld hst
  · split
    · exact ⟨Or.inl rfl, Or.inl rfl, Or.inl rfl⟩
    · exact ⟨Or.inr rfl, Or.inr rfl, Or.inr rfl⟩

/-- Without waiting, or in a stall, the read ports load the latched registers. -/
theorem readsLatch_step (h : s.decode.multiStageDataExecute.LatchOk)
    (hw : i.waitForMem = false ∨ s.inStall = true) : (s.step i order).ReadsLatch := by
  obtain ⟨ha, hb, hc⟩ := latch_reads h hw
  constructor
  · intro hne
    rcases ha with ha | ha
    · exact absurd ha hne
    · rw [step_decode, ← ha]; exact RegisterFile.step_readDataRa _ _
  · intro hne
    rcases hb with hb | hb
    · exact absurd hb hne
    · rw [step_decode, ← hb]; exact RegisterFile.step_readDataRb _ _
  · intro hne
    rcases hc with hc | hc
    · exact absurd hc hne
    · rw [step_decode, ← hc]; exact RegisterFile.step_readDataRc _ _

/-! ### Initial values -/

theorem writePortOk_init (junk : Frost32Cpu) : (init junk).WritePortOk :=
  ⟨fun h => absurd h (by simp [init]), fun h => absurd h (by simp [init]), fun _ => rfl⟩

theorem latchOk_init (junk : Frost32Cpu) :
    (init junk).decode.multiStageDataExecute.LatchOk := Or.inl rfl

theorem readsLatch_init (junk : Frost32Cpu) : (init junk).ReadsLatch :=
  ⟨fun h => absurd rfl h, fun h => absurd rfl h, fun h => absurd rfl h⟩

end Frost32Cpu

end Frost32.Hdl
