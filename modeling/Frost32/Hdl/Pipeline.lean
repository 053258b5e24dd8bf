import Frost32.Hdl.System
import Frost32.Hdl.Forwarding

namespace Frost32.Hdl

/-!
# What one edge does to fetch and decode

The two stages that steer the machine branch on the stall counter.  This file says once
what each does in each case, and derives the invariant of every run of the system.

* `fetchStage_atOne`, …, `decodeStage_send` — the cases, one equation each.
* `System.Inv` — the forwarding invariants, and the state of the fetch: with
  `stall_counter` at 1 the bus reads `pc`; at 0 it reads `pc`, which follows `pc_val`, and
  the word on the bus is the memory word at `pc_val`.
* `System.inv_run` — **`Inv` holds in every cycle of every run from the initial values.**
-/

namespace MemAccess

/-- The 32-bit read of `addr`. -/
def readOf (addr : Word) : MemAccess where
  data := 0
  addr := addr
  dataInoutAccessType := .diatRead
  dataInoutAccessSize := .dias32
  reqMemAccess := true

@[simp] theorem readOf_we (addr : Word) : (readOf addr).we = false := rfl

end MemAccess

namespace FetchRegs

@[simp] theorem prepLoadInstruction_pc (addr : Word) (f : FetchRegs) :
    (f.prepLoadInstruction addr).pc = addr := rfl
@[simp] theorem prepLoadInstruction_pcVal (addr : Word) (f : FetchRegs) :
    (f.prepLoadInstruction addr).pcVal = f.pc := rfl
@[simp] theorem prepLoadInstruction_out (addr : Word) (f : FetchRegs) :
    (f.prepLoadInstruction addr).out = .readOf addr := rfl

end FetchRegs

namespace Frost32Cpu

variable {i : PortInFrost32Cpu} {s : Frost32Cpu}

theorem inStall_eq_true (h : s.decode.stallCounter ≠ 0#5) : s.inStall = true := by
  simp [inStall, h]

/-! ### The fetch stage by cases -/

theorem fetchStage_atOne (hw : i.waitForMem = false) (hc : s.decode.stallCounter = 1#5) :
    s.fetchStage i = s.fetch.prepLoadFollowingInstruction := by
  unfold fetchStage
  rw [if_neg (by simp [hw]), if_pos (by simp [inStall, hc]), if_pos hc]

theorem fetchStage_atTwo (hw : i.waitForMem = false) (hc : s.decode.stallCounter = 2#5) :
    s.fetchStage i = s.fetchAtTwo := by
  unfold fetchStage
  rw [if_neg (by simp [hw]), if_pos (by simp [inStall, hc]), if_neg (by simp [hc]), if_pos hc]

theorem fetchStage_atThree (hw : i.waitForMem = false) (hc : s.decode.stallCounter = 3#5) :
    s.fetchStage i = s.fetchAtThree := by
  unfold fetchStage
  rw [if_neg (by simp [hw]), if_pos (by simp [inStall, hc]), if_neg (by simp [hc]),
    if_neg (by simp [hc]), if_pos hc]

/-- With more than three cycles to go the fetch stage holds still. -/
theorem fetchStage_beyond (hw : i.waitForMem = false) (hc : 3 < s.decode.stallCounter.toNat) :
    s.fetchStage i = s.fetch := by
  have hne : ∀ k : Nat, k ≤ 3 → s.decode.stallCounter ≠ BitVec.ofNat 5 k :=
    fun k hk => Lib.Countdown.ne_ofNat_of_lt _ (by omega)
  unfold fetchStage
  rw [if_neg (by simp [hw]), if_pos (inStall_eq_true (hne 0 (by omega))),
    if_neg (hne 1 (by omega)), if_neg (hne 2 (by omega)), if_neg (hne 3 (by omega))]

theorem fetchStage_accept (hw : i.waitForMem = false) (hc : s.decode.stallCounter = 0#5)
    (ha : s.shouldServiceInterruptIfNotInStall i = true) : s.fetchStage i = s.fetch := by
  unfold fetchStage
  rw [if_neg (by simp [hw]), if_neg (by simp [inStall, hc]), if_pos ha]

theorem fetchStage_send_stall (hw : i.waitForMem = false) (hc : s.decode.stallCounter = 0#5)
    (ha : s.shouldServiceInterruptIfNotInStall i = false)
    (hst : (s.multiStageDataInstrDecode i).instrCausesStall = true) :
    s.fetchStage i = s.fetch := by
  unfold fetchStage
  rw [if_neg (by simp [hw]), if_neg (by simp [inStall, hc]), if_neg (by simp [ha]), if_pos hst]

theorem fetchStage_send (hw : i.waitForMem = false) (hc : s.decode.stallCounter = 0#5)
    (ha : s.shouldServiceInterruptIfNotInStall i = false)
    (hst : (s.multiStageDataInstrDecode i).instrCausesStall = false) :
    s.fetchStage i = s.fetch.prepLoadInstruction (s.fetch.pc + 4) := by
  unfold fetchStage
  rw [if_neg (by simp [hw]), if_neg (by simp [inStall, hc]), if_neg (by simp [ha]),
    if_neg (by simp [hst])]

/-- Where the instruction after a stall is loaded from, by the state of the stall. -/
theorem fetchAtTwo_eq (h : s.decode.stallState ≠ .stOther) :
    ∃ addr, s.fetchAtTwo = s.fetch.prepLoadInstruction addr := by
  unfold fetchAtTwo fetchBranch fetchJumpCall handleBranchInFetchStage
    handleJumpOrCallInFetchStage
  repeat' split
  all_goals first
    | exact ⟨_, rfl⟩
    | exact absurd ‹_› h

/-! ### The decode stage by cases -/

theorem decodeStage_inStall (hw : i.waitForMem = false) (hc : s.decode.stallCounter ≠ 0#5) :
    s.decodeStage i = s.decodeInStall i := by
  unfold decodeStage
  rw [if_neg (by simp [hw]), if_pos (inStall_eq_true hc)]

theorem decodeStage_accept (hw : i.waitForMem = false) (hc : s.decode.stallCounter = 0#5)
    (ha : s.shouldServiceInterruptIfNotInStall i = true) :
    s.decodeStage i = s.respondToInterrupt := by
  unfold decodeStage
  rw [if_neg (by simp [hw]), if_neg (by simp [inStall, hc]), if_pos ha]

theorem decodeStage_send (hw : i.waitForMem = false) (hc : s.decode.stallCounter = 0#5)
    (ha : s.shouldServiceInterruptIfNotInStall i = false) :
    s.decodeStage i = s.sendInstrThrough i := by
  unfold decodeStage
  rw [if_neg (by simp [hw]), if_neg (by simp [inStall, hc]), if_neg (by simp [ha])]

/-- `stall_counter == 2` leaves the counter, the state and the latch to the other cases. -/
theorem decodeAtTwo_frame (d : DecodeRegs) :
    s.decodeAtTwo i d = { d with ireta := (s.decodeAtTwo i d).ireta
                                 idsta := (s.decodeAtTwo i d).idsta
                                 ie := (s.decodeAtTwo i d).ie } := by
  unfold decodeAtTwo
  repeat' split
  all_goals rfl

/-- In a stall the counter counts down. -/
theorem decodeInStall_stallCounter :
    (s.decodeInStall i).stallCounter = s.decode.stallCounter - 1#5 := by
  unfold decodeInStall
  dsimp only
  split
  · rfl
  · split
    · rw [decodeAtTwo_frame]
    · rfl

theorem decodeInStall_stallState :
    (s.decodeInStall i).stallState = s.decode.stallState := by
  unfold decodeInStall
  dsimp only
  split
  · rfl
  · split
    · rw [decodeAtTwo_frame]
    · rfl

/-- Until its last cycle a stall keeps the latch. -/
theorem decodeInStall_latch (hc : s.decode.stallCounter ≠ 1#5) :
    (s.decodeInStall i).multiStageDataExecute = s.decode.multiStageDataExecute := by
  unfold decodeInStall
  dsimp only
  rw [if_neg hc]
  split
  · rw [decodeAtTwo_frame]
  · rfl

/-- In a stall the copies of `ireta` and `idsta` stay. -/
theorem decodeInStall_copies :
    (s.decodeInStall i).iretaData = s.decode.iretaData ∧
      (s.decodeInStall i).idstaData = s.decode.idstaData := by
  unfold decodeInStall
  dsimp only
  split
  · exact ⟨rfl, rfl⟩
  · split
    · rw [decodeAtTwo_frame]
      exact ⟨rfl, rfl⟩
    · exact ⟨rfl, rfl⟩

theorem decodeInStall_atOne (hc : s.decode.stallCounter = 1#5) :
    s.decodeInStall i =
      { s.decode with
        stallCounter := 0#5
        multiStageDataExecute := s.decode.multiStageDataExecute.makeBubble } := by
  unfold decodeInStall
  dsimp only
  rw [if_pos hc, hc]
  rfl

theorem decodeInStall_atTwo (hc : s.decode.stallCounter = 2#5) :
    s.decodeInStall i = s.decodeAtTwo i { s.decode with stallCounter := 1#5 } := by
  unfold decodeInStall
  dsimp only
  rw [if_neg (by simp [hc]), if_pos hc, hc]
  rfl

/-- Before `stall_counter == 2` only the counter moves. -/
theorem decodeInStall_beyond (hc : 2 < s.decode.stallCounter.toNat) :
    s.decodeInStall i = { s.decode with stallCounter := s.decode.stallCounter - 1#5 } := by
  have hne : ∀ k : Nat, k ≤ 2 → s.decode.stallCounter ≠ BitVec.ofNat 5 k :=
    fun k hk => Lib.Countdown.ne_ofNat_of_lt _ (by omega)
  unfold decodeInStall
  dsimp only
  rw [if_neg (hne 1 (by omega)), if_neg (hne 2 (by omega))]

/-! ### The enumerators as numbers -/

theorem ctrlMultiply32_command (h : s.decode.stallCounter = 5#5) (x y : Word) (e : ExecuteRegs) :
    s.ctrlMultiply32 x y e
      = s.prepRaWb 0 { e with inMul32 := { enable := true, x := x, y := y } } := if_pos h

theorem ctrlMultiply32_low (h : s.decode.stallCounter ≠ 5#5) (x y : Word) (e : ExecuteRegs) :
    s.ctrlMultiply32 x y e
      = s.prepRaWb s.mul32.prod
          { e with inMul32 := { s.execute.inMul32 with enable := false } } := if_neg h

theorem ctrlDivide32_command (h : s.decode.stallCounter = 23#5) (sgn : Bool) (e : ExecuteRegs) :
    s.ctrlDivide32 sgn e
      = s.prepRaWb 0 { e with inDiv32 := { enable := true, unsgnOrSgn := sgn,
                                           num := s.rfileData.rb, denom := s.rfileData.rc } } :=
  if_pos h

theorem ctrlDivide32_low (h : s.decode.stallCounter ≠ 23#5) (sgn : Bool) (e : ExecuteRegs) :
    s.ctrlDivide32 sgn e
      = s.prepRaWb (if s.execute.inDiv32.denom ≠ 0 then s.div32.outQuot else 0)
          { e with inDiv32 := { s.execute.inDiv32 with enable := false } } := if_neg h

theorem executeThreeRegs_eq (e : ExecuteRegs) :
    s.executeThreeRegs i e =
      if s.decode.multiStageDataExecute.instrOpcode = 6#4 then
        s.ctrlMultiply32 s.rfileData.rb s.rfileData.rc e
      else if s.decode.multiStageDataExecute.instrOpcode = 14#4 then s.ctrlDivide32 false e
      else if s.decode.multiStageDataExecute.instrOpcode = 15#4 then s.ctrlDivide32 true e
      else s.prepRaWb (s.outAlu i) e := rfl

theorem executeImmediates_eq (e : ExecuteRegs) :
    s.executeImmediates i e =
      if s.decode.multiStageDataExecute.instrOpcode = 15#4 then s.prepRaWb s.cpyhiData e
      else if s.decode.multiStageDataExecute.instrOpcode = 14#4 then
        s.prepRaWb (s.decode.multiStageDataExecute.pcVal
          + s.decode.multiStageDataExecute.instrImmVal.signExtend 32) e
      else if s.decode.multiStageDataExecute.instrOpcode = 6#4 then
        s.ctrlMultiply32 s.rfileData.rb
          (s.decode.multiStageDataExecute.instrImmVal.setWidth 32) e
      else s.prepRaWb (s.outAlu i) e := rfl

theorem executeInterruptsStuff_eq (e : ExecuteRegs) :
    s.executeInterruptsStuff e =
      if s.decode.multiStageDataExecute.instrOpcode = 3#4 then s.prepRaWb s.decode.iretaData e
      else if s.decode.multiStageDataExecute.instrOpcode = 5#4 then
        s.prepRaWb s.decode.idstaData e
      else e.stopOperandForwardingOrWriteBack := rfl

theorem decodeAtTwo_otherInterruptsStuff (h : s.decode.stallState = .stOtherInterruptsStuff)
    (d : DecodeRegs) :
    s.decodeAtTwo i d =
      if s.decode.multiStageDataExecute.instrOpcode = 2#4 then { d with ireta := s.rfileData.ra }
      else if s.decode.multiStageDataExecute.instrOpcode = 4#4 then
        { d with idsta := s.rfileData.ra }
      else { d with ie := (s.multiStageDataInstrDecode i).instrOpcode == 0#4 } := by
  unfold decodeAtTwo
  rw [h]
  rfl

/-! ### The execute stage by groups -/

section Groups

variable (hw : i.waitForMem = false)
include hw

theorem executeStage_group0 (h : s.decode.multiStageDataExecute.instrGroup = 0#4) :
    s.executeStage i = s.executeThreeRegs i s.shiftedRecord := by
  unfold executeStage
  rw [if_neg (by simp [hw]), h]
  rfl

theorem executeStage_group1 (h : s.decode.multiStageDataExecute.instrGroup = 1#4) :
    s.executeStage i = s.executeImmediates i s.shiftedRecord := by
  unfold executeStage
  rw [if_neg (by simp [hw]), h]
  rfl

theorem executeStage_group2 (h : s.decode.multiStageDataExecute.instrGroup = 2#4) :
    s.executeStage i = s.shiftedRecord.stopOperandForwardingOrWriteBack := by
  unfold executeStage
  rw [if_neg (by simp [hw]), h]
  rfl

theorem executeStage_group3 (h : s.decode.multiStageDataExecute.instrGroup = 3#4) :
    s.executeStage i = s.shiftedRecord.stopOperandForwardingOrWriteBack := by
  unfold executeStage
  rw [if_neg (by simp [hw]), h]
  rfl

theorem executeStage_group4 (h : s.decode.multiStageDataExecute.instrGroup = 4#4) :
    s.executeStage i = s.executeCalls s.shiftedRecord := by
  unfold executeStage
  rw [if_neg (by simp [hw]), h]
  rfl

theorem executeStage_group5 (h : s.decode.multiStageDataExecute.instrGroup = 5#4) :
    s.executeStage i = s.executeLoadsStores i s.shiftedRecord := by
  unfold executeStage
  rw [if_neg (by simp [hw]), h]
  rfl

theorem executeStage_group6 (h : s.decode.multiStageDataExecute.instrGroup = 6#4) :
    s.executeStage i = s.executeInterruptsStuff s.shiftedRecord := by
  unfold executeStage
  rw [if_neg (by simp [hw]), h]
  rfl

end Groups

end Frost32Cpu

/-- A stall lasts for at least two cycles. -/
theorem MultiStageData.two_le_nextStallCounter (m : MultiStageData) :
    2 ≤ m.nextStallCounter.toNat := by
  unfold nextStallCounter
  repeat' split
  all_goals decide

/-- … and for at most 23. -/
theorem MultiStageData.nextStallCounter_lt (m : MultiStageData) :
    m.nextStallCounter.toNat < 24 := by
  unfold nextStallCounter
  repeat' split
  all_goals decide

theorem MultiStageData.nextStallState_ne_stOther (m : MultiStageData) {old : StallState}
    (h : old ≠ .stOther) : m.nextStallState old ≠ .stOther := by
  unfold nextStallState
  repeat' split
  all_goals first
    | exact h
    | exact StallState.noConfusion

/-! ### The invariant of the system -/

namespace System

variable {order : BlockOrder} {irq : Bool} {y : System}

@[simp] theorem step_cpu : (y.step order irq).cpu = y.cpu.step (y.cpuIn irq) order := rfl
@[simp] theorem step_ram : (y.step order irq).ram = y.ram.step y.cpu.fetch.out := rfl
theorem step_fetch : (y.step order irq).cpu.fetch = y.cpu.fetchStage (y.cpuIn irq) := rfl
theorem step_decode : (y.step order irq).cpu.decode = y.cpu.decodeStage (y.cpuIn irq) := rfl
theorem step_execute : (y.step order irq).cpu.execute = y.cpu.executeStage (y.cpuIn irq) := rfl

variable (order irq) in
/-- Only a write changes the contents of the memory. -/
theorem step_mem (h : y.cpu.fetch.out.we = false) : (y.step order irq).ram.mem = y.ram.mem := by
  rw [step_ram]
  unfold SinglePortRam.step
  rw [h]
  rfl

variable (order irq) in
/-- Reading the memory leaves its contents and delivers the word addressed. -/
theorem step_ram_read {addr : Word} (h : y.cpu.fetch.out = .readOf addr) :
    (y.step order irq).ram = { y.ram with outData := y.ram.mem (ramIndex addr) } := by
  rw [step_ram, h]
  rfl

/-- What holds in every cycle of every run. -/
structure Inv (y : System) : Prop where
  writePort : y.cpu.WritePortOk
  latch : y.cpu.decode.multiStageDataExecute.LatchOk
  reads : y.cpu.ReadsLatch
  state : y.cpu.decode.stallState ≠ .stOther
  /-- In the last cycle of a stall the bus reads `pc`. -/
  atOne : y.cpu.decode.stallCounter = 1#5 → y.cpu.fetch.out = .readOf y.cpu.fetch.pc
  /-- Out of a stall the bus reads `pc`, the address after `pc_val` … -/
  atZero : y.cpu.decode.stallCounter = 0#5 →
    y.cpu.fetch.out = .readOf y.cpu.fetch.pc ∧ y.cpu.fetch.pc = y.cpu.fetch.pcVal + 4
  /-- … and the word on the bus is the memory word at `pc_val`. -/
  word : y.cpu.decode.stallCounter = 0#5 →
    y.ram.outData = y.ram.mem (ramIndex y.cpu.fetch.pcVal)
  /-- Out of a stall the latched instruction is one that does not stall. -/
  settled : y.cpu.decode.stallCounter = 0#5 →
    y.cpu.decode.multiStageDataExecute.instrCausesStall = false

variable (order irq) in
/-- The part of the invariant that does not depend on the counter. -/
private theorem inv_step_common (h : y.Inv) :
    (y.step order irq).cpu.WritePortOk ∧
      (y.step order irq).cpu.decode.multiStageDataExecute.LatchOk ∧
      (y.step order irq).cpu.ReadsLatch :=
  ⟨Frost32Cpu.writePortOk_step h.writePort, Frost32Cpu.latchOk_step h.latch,
    Frost32Cpu.readsLatch_step h.latch (Or.inl rfl)⟩

/-- An edge in the last cycle of a stall. -/
private theorem inv_step_atOne (h : y.Inv) (hc : y.cpu.decode.stallCounter = 1#5) :
    (y.step order irq).Inv := by
  obtain ⟨hwp, hl, hr⟩ := inv_step_common order irq h
  have hf : (y.step order irq).cpu.fetch = y.cpu.fetch.prepLoadFollowingInstruction := by
    rw [step_fetch, Frost32Cpu.fetchStage_atOne rfl hc]
  have hd : (y.step order irq).cpu.decode =
      { y.cpu.decode with
        stallCounter := 0#5
        multiStageDataExecute := y.cpu.decode.multiStageDataExecute.makeBubble } := by
    rw [step_decode, Frost32Cpu.decodeStage_inStall rfl (by simp [hc]),
      Frost32Cpu.decodeInStall_atOne hc]
  refine ⟨hwp, hl, hr, ?_, ?_, ?_, ?_, ?_⟩
  · rw [hd]; exact h.state
  · rw [hd]; exact fun he => absurd he (by simp)
  · intro _
    rw [hf]
    exact ⟨rfl, rfl⟩
  · intro _
    rw [step_ram_read order irq (h.atOne hc), hf]
    rfl
  · rw [hd]; exact fun _ => rfl

/-- An edge in a stall, before its last cycle. -/
private theorem inv_step_inStall (h : y.Inv) (h0 : y.cpu.decode.stallCounter ≠ 0#5)
    (h1 : y.cpu.decode.stallCounter ≠ 1#5) : (y.step order irq).Inv := by
  obtain ⟨hwp, hl, hr⟩ := inv_step_common order irq h
  have hd : (y.step order irq).cpu.decode = y.cpu.decodeInStall (y.cpuIn irq) := by
    rw [step_decode, Frost32Cpu.decodeStage_inStall rfl h0]
  have hcnt : (y.step order irq).cpu.decode.stallCounter = y.cpu.decode.stallCounter - 1#5 := by
    rw [hd]; exact Frost32Cpu.decodeInStall_stallCounter
  have hne : (y.step order irq).cpu.decode.stallCounter ≠ 0#5 := by
    rw [hcnt]
    intro he
    exact h1 (by simpa using BitVec.sub_eq_iff_eq_add.mp he)
  refine ⟨hwp, hl, hr, ?_, ?_, fun he => absurd he hne, fun he => absurd he hne,
    fun he => absurd he hne⟩
  · rw [hd, Frost32Cpu.decodeInStall_stallState]; exact h.state
  · -- the counter reaches 1 from 2, where the fetch stage loads from some address
    rw [hcnt]
    intro he
    have h2 : y.cpu.decode.stallCounter = 2#5 := BitVec.sub_eq_iff_eq_add.mp he
    obtain ⟨addr, ha⟩ := Frost32Cpu.fetchAtTwo_eq h.state
    have hf : (y.step order irq).cpu.fetch = y.cpu.fetch.prepLoadInstruction addr := by
      rw [step_fetch, Frost32Cpu.fetchStage_atTwo rfl h2, ha]
    rw [hf]
    rfl

/-- An edge out of a stall. -/
private theorem inv_step_atZero (h : y.Inv) (h0 : y.cpu.decode.stallCounter = 0#5) :
    (y.step order irq).Inv := by
  obtain ⟨hwp, hl, hr⟩ := inv_step_common order irq h
  cases ha : y.cpu.shouldServiceInterruptIfNotInStall (y.cpuIn irq) with
  | true =>
    have hd : (y.step order irq).cpu.decode = y.cpu.respondToInterrupt := by
      rw [step_decode, Frost32Cpu.decodeStage_accept rfl h0 ha]
    refine ⟨hwp, hl, hr, ?_, ?_, ?_, ?_, ?_⟩ <;> rw [hd]
    · exact StallState.noConfusion
    all_goals exact fun he => absurd he (show ¬ stallCounterRespondToInterrupts = _ by decide)
  | false =>
    have hd : (y.step order irq).cpu.decode = y.cpu.sendInstrThrough (y.cpuIn irq) := by
      rw [step_decode, Frost32Cpu.decodeStage_send rfl h0 ha]
    cases hst : (y.cpu.multiStageDataInstrDecode (y.cpuIn irq)).instrCausesStall with
    | true =>
      -- a stall starts, and lasts for at least two cycles
      have hcnt : 2 ≤ (y.step order irq).cpu.decode.stallCounter.toNat := by
        rw [hd, Frost32Cpu.sendInstrThrough]
        simp only [hst, if_true]
        exact MultiStageData.two_le_nextStallCounter _
      have hne : ∀ k : Nat, k < 2 →
          (y.step order irq).cpu.decode.stallCounter ≠ BitVec.ofNat 5 k :=
        fun k hk => Lib.Countdown.ne_ofNat_of_lt _ (by omega)
      refine ⟨hwp, hl, hr, ?_, fun he => absurd he (hne 1 (by omega)),
        fun he => absurd he (hne 0 (by omega)), fun he => absurd he (hne 0 (by omega)),
        fun he => absurd he (hne 0 (by omega))⟩
      rw [hd, Frost32Cpu.sendInstrThrough]
      simp only [hst, if_true]
      exact MultiStageData.nextStallState_ne_stOther _ h.state
    | false =>
      have hf : (y.step order irq).cpu.fetch
          = y.cpu.fetch.prepLoadInstruction (y.cpu.fetch.pc + 4) := by
        rw [step_fetch, Frost32Cpu.fetchStage_send rfl h0 ha hst]
      refine ⟨hwp, hl, hr, ?_, ?_, ?_, ?_, ?_⟩
      · rw [hd, Frost32Cpu.sendInstrThrough]
        simp only [hst]
        exact h.state
      · intro _; rw [hf]; rfl
      · intro _; rw [hf]; exact ⟨rfl, rfl⟩
      · intro _; rw [step_ram_read order irq (h.atZero h0).1, hf]; rfl
      · intro _; rw [hd]; exact hst

/-- **Every edge keeps the invariant.** -/
theorem inv_step (h : y.Inv) : (y.step order irq).Inv := by
  by_cases h0 : y.cpu.decode.stallCounter = 0#5
  · exact inv_step_atZero h h0
  · by_cases h1 : y.cpu.decode.stallCounter = 1#5
    · exact inv_step_atOne h h1
    · exact inv_step_inStall h h0 h1

theorem inv_init (junk : System) (mem : BitVec 11 → Word) : (init junk mem).Inv := by
  refine ⟨Frost32Cpu.writePortOk_init _, Frost32Cpu.latchOk_init _,
    Frost32Cpu.readsLatch_init _, StallState.noConfusion, ?_, ?_, ?_, ?_⟩
  all_goals exact fun he => absurd he (show ¬ 2#5 = _ by decide)

/-- **The invariant holds in every cycle of every run.** -/
theorem inv_run (order : BlockOrder) (junk : System) (mem : BitVec 11 → Word)
    (irq : Nat → Bool) (n : Nat) :
    (runFrom order (init junk mem) irq n).Inv :=
  Lib.run_invariant Inv (inv_init junk mem) (fun _ _ h => inv_step h) n

end System

end Frost32.Hdl
