import Frost32.Hdl.Decoding

namespace Frost32.Hdl

/-!
# Waiting for memory

`in.wait_for_mem` gates every clocked block of the CPU but the register file.  A burst of
waiting cycles therefore repeats the pending write, which is harmless, and reloads the read
ports with the registers that the decoder names at the time.  In a stall those are the
registers of the latched instruction again; out of a stall they are the registers of
whatever word is on the bus.

* `WaitInv` — what holds under any schedule of `in.wait_for_mem`.
* `Waited`, `waited_run` — **the effect of a burst.**
* `operandResult` — what the execute stage computes from its register operands.
* `waiting_only_delays_iff` — **a burst is only a delay exactly if it ends in a stall or
  the reloaded operands give the same result.**
-/

namespace Frost32Cpu

variable {order : BlockOrder} {i j : PortInFrost32Cpu} {s s' : Frost32Cpu}

/-! ### Under any schedule of `in.wait_for_mem` -/

/-- What holds in every reachable state, with any values on the input port. -/
structure WaitInv (s : Frost32Cpu) : Prop where
  writePort : s.WritePortOk
  latch : s.decode.multiStageDataExecute.LatchOk
  reads : s.decode.stallCounter ≠ 0#5 → s.ReadsLatch
  settled : s.decode.stallCounter = 0#5 →
    s.decode.multiStageDataExecute.instrCausesStall = false

/-- When a stall ends the latch holds a bubble; an instruction sent without starting one does
    not stall. -/
theorem settled_step (h : s.decode.stallCounter = 0#5 →
      s.decode.multiStageDataExecute.instrCausesStall = false)
    (hc : (s.step i order).decode.stallCounter = 0#5) :
    (s.step i order).decode.multiStageDataExecute.instrCausesStall = false := by
  cases hw : i.waitForMem with
  | true =>
    have hd : s.decodeStage i = s.decode := if_pos hw
    rw [step_decode, hd] at hc ⊢
    exact h hc
  | false =>
    rw [step_decode] at hc ⊢
    by_cases h0 : s.decode.stallCounter = 0#5
    · cases ha : s.shouldServiceInterruptIfNotInStall i with
      | true => rw [decodeStage_accept hw h0 ha]; rfl
      | false =>
        rw [decodeStage_send hw h0 ha] at hc ⊢
        cases hst : (s.multiStageDataInstrDecode i).instrCausesStall with
        | false => exact hst
        | true =>
          -- a stall lasts for at least two cycles
          have hcnt := MultiStageData.two_le_nextStallCounter (s.multiStageDataInstrDecode i)
          have hc' : (s.multiStageDataInstrDecode i).nextStallCounter = 0#5 :=
            (if_pos hst).symm.trans hc
          rw [hc'] at hcnt
          exact absurd hcnt (by decide)
    · rw [decodeStage_inStall hw h0] at hc ⊢
      have h1 : s.decode.stallCounter = 1#5 := by
        rw [decodeInStall_stallCounter] at hc
        exact BitVec.sub_eq_iff_eq_add.mp hc
      rw [decodeInStall_atOne h1]
      rfl

theorem waitInv_step (h : s.WaitInv) : (s.step i order).WaitInv := by
  refine ⟨writePortOk_step h.writePort, latchOk_step h.latch, ?_, settled_step h.settled⟩
  intro hc
  cases hw : i.waitForMem with
  | false => exact readsLatch_step h.latch (Or.inl hw)
  | true =>
    have hd : s.decodeStage i = s.decode := if_pos hw
    rw [step_decode, hd] at hc
    exact readsLatch_step h.latch (Or.inr (inStall_eq_true hc))

/-- **`WaitInv` holds in every cycle of every run of the CPU.** -/
theorem waitInv_run (junk : Frost32Cpu) (input : Nat → PortInFrost32Cpu) (n : Nat) :
    (Lib.run (fun i s => step i s order) (init junk) input n).WaitInv :=
  Lib.run_invariant WaitInv
    ⟨writePortOk_init junk, latchOk_init junk, fun _ => readsLatch_init junk,
      fun h => absurd h (show ¬ 2#5 = _ by decide)⟩
    (fun _ _ h => waitInv_step h) n

/-! ### The effect of a burst -/

/-- `s'` is what a burst of waiting cycles with `last` at its end leaves of `s`. -/
structure Waited (last : PortInFrost32Cpu) (s s' : Frost32Cpu) : Prop where
  fetch : s'.fetch = s.fetch.stopMemAccess
  decode : s'.decode = s.decode
  execute : s'.execute = s.execute
  writeBack : s'.writeBack = s.writeBack
  regfile : s'.regFile.regfile = s.regFile.written s.writeBack
  readDataRa : s'.regFile.readDataRa = s'.regFile.regfile (s.inRegFile last).readSelRa
  readDataRb : s'.regFile.readDataRb = s'.regFile.regfile (s.inRegFile last).readSelRb
  readDataRc : s'.regFile.readDataRc = s'.regFile.regfile (s.inRegFile last).readSelRc

/-- The first cycle of waiting. -/
theorem waited_step (hw : i.waitForMem = true) : Waited i s (s.step i order) :=
  ⟨if_pos hw, if_pos hw, if_pos hw, if_pos hw, rfl, RegisterFile.step_readDataRa _ _,
    RegisterFile.step_readDataRb _ _, RegisterFile.step_readDataRc _ _⟩

/-- One more. -/
theorem Waited.step (h : Waited j s s') (hw : i.waitForMem = true) :
    Waited i s (s'.step i order) := by
  have hone : Waited i s' (s'.step i order) := waited_step hw
  have hsel : s'.inRegFile i = s.inRegFile i := by
    unfold inRegFile multiStageDataInstrDecode outInstrDecoder inInstrDecoder inStall
    rw [h.decode, h.writeBack]
  refine ⟨?_, hone.decode.trans h.decode, hone.execute.trans h.execute,
    hone.writeBack.trans h.writeBack, ?_, hsel ▸ hone.readDataRa, hsel ▸ hone.readDataRb,
    hsel ▸ hone.readDataRc⟩
  · rw [hone.fetch, h.fetch]
    rfl
  · -- the pending write is repeated
    rw [hone.regfile, h.writeBack]
    unfold RegisterFile.written
    rw [h.regfile]
    exact RegisterFile.written_written s.writeBack s.regFile 0 0 0

variable (order s) in
/-- **The effect of `n + 1` cycles of waiting.** -/
theorem waited_run {burst : Nat → PortInFrost32Cpu} {n : Nat}
    (hb : ∀ k ≤ n, (burst k).waitForMem = true) :
    Waited (burst n) s (Lib.run (fun i s => step i s order) s burst (n + 1)) := by
  induction n with
  | zero => exact waited_step (hb 0 (le_refl 0))
  | succ n ih => exact (ih (fun k hk => hb k (by omega))).step (hb (n + 1) (le_refl _))

/-! ### What is compared -/

/-- The registers and ports that the cycle after a burst is judged by. -/
structure Loaded where
  pc : Word
  pcVal : Word
  decode : DecodeRegs
  prevWrittenRegIndex0 : RegIndex
  nRegData0 : Word
  addr : Word
  data : Word
  dataInoutAccessType : DataInoutAccessType
  regFile : RegisterFile

def loaded (s : Frost32Cpu) : Loaded where
  pc := s.fetch.pc
  pcVal := s.fetch.pcVal
  decode := s.decode
  prevWrittenRegIndex0 := s.execute.prevWrittenRegIndex0
  nRegData0 := s.execute.nRegData0
  addr := s.fetch.out.addr
  data := s.fetch.out.data
  dataInoutAccessType := s.fetch.out.dataInoutAccessType
  regFile := s.regFile

section Congr

variable (hf : s'.fetch = s.fetch.stopMemAccess) (hd : s'.decode = s.decode)
include hf hd

/-- `stall_counter == 2`, with the same operands. -/
private theorem fetchAtTwo_congr (hr : s'.rfileData = s.rfileData) :
    s'.fetchAtTwo.stopMemAccess = s.fetchAtTwo.stopMemAccess := by
  unfold fetchAtTwo fetchBranch fetchJumpCall handleBranchInFetchStage
    handleJumpOrCallInFetchStage branchAdderA branchAdderB followingPcStageExecute compareNe
    compareEq compareLtu compareGeu compareLeu compareGtu
  have hlts : s'.fetch.condLts = s.fetch.condLts := by rw [hf]; rfl
  have hges : s'.fetch.condGes = s.fetch.condGes := by rw [hf]; rfl
  have hles : s'.fetch.condLes = s.fetch.condLes := by rw [hf]; rfl
  have hgts : s'.fetch.condGts = s.fetch.condGts := by rw [hf]; rfl
  rw [hr, hd, hlts, hges, hles, hgts, hf]
  repeat' split
  all_goals rfl

/-- `stall_counter == 3`, with the same operands. -/
private theorem fetchAtThree_congr (hr : s'.rfileData = s.rfileData) :
    s'.fetchAtThree.stopMemAccess = s.fetchAtThree.stopMemAccess := by
  unfold fetchAtThree fetchMemAccess latchConds ldstAddress ldstAdderA ldstAdderB compareLts
    compareGes compareLes compareGts
  rw [hr, hd, hf]
  repeat' split
  all_goals rfl

/-- The fetch stage does not look at `req_mem_access`, and at the operands only in a stall. -/
theorem fetchStage_congr (hr : s.inStall = true → s'.rfileData = s.rfileData)
    (hw : j.waitForMem = false) :
    (s'.fetchStage j).stopMemAccess = (s.fetchStage j).stopMemAccess := by
  have hst : s'.inStall = s.inStall := by unfold inStall; rw [hd]
  have hirq : s'.shouldServiceInterruptIfNotInStall j
      = s.shouldServiceInterruptIfNotInStall j := by
    unfold shouldServiceInterruptIfNotInStall
    rw [hd]
  have hrun : ¬ j.waitForMem = true := by simp [hw]
  unfold fetchStage
  rw [if_neg hrun, if_neg hrun, hst, hirq]
  cases hs : s.inStall with
  | false =>
    have hdec : (s'.multiStageDataInstrDecode j).instrCausesStall
        = (s.multiStageDataInstrDecode j).instrCausesStall := by
      unfold multiStageDataInstrDecode outInstrDecoder inInstrDecoder
      rw [hst, hd]
    rw [if_neg Bool.false_ne_true, if_neg Bool.false_ne_true, hdec, hf]
    repeat' split
    all_goals rfl
  | true =>
    rw [if_pos rfl, if_pos rfl, hd]
    split
    · rw [hf]; rfl
    split
    · exact fetchAtTwo_congr hf hd (hr hs)
    split
    · exact fetchAtThree_congr hf hd (hr hs)
    · rw [hf]; rfl

/-- The decode stage, likewise. -/
theorem decodeStage_congr (hr : s.inStall = true → s'.rfileData = s.rfileData)
    (hw : j.waitForMem = false) : s'.decodeStage j = s.decodeStage j := by
  have hst : s'.inStall = s.inStall := by unfold inStall; rw [hd]
  have hirq : s'.shouldServiceInterruptIfNotInStall j
      = s.shouldServiceInterruptIfNotInStall j := by
    unfold shouldServiceInterruptIfNotInStall
    rw [hd]
  have hdec : s'.multiStageDataInstrDecode j = s.multiStageDataInstrDecode j := by
    unfold multiStageDataInstrDecode outInstrDecoder inInstrDecoder
    rw [hst, hd, hf]
    rfl
  have hrun : ¬ j.waitForMem = true := by simp [hw]
  unfold decodeStage
  rw [if_neg hrun, if_neg hrun, hst, hirq]
  cases hs : s.inStall with
  | false =>
    unfold respondToInterrupt sendInstrThrough
    rw [hdec, hd, hf]
    rfl
  | true =>
    rw [if_pos rfl, if_pos rfl]
    unfold decodeInStall decodeAtTwo
    rw [hdec, hd, hr hs]

end Congr

/-! ### The operands of the execute stage -/

/-- What the execute stage makes of register operands: the result of the `Alu` or of
    `cpyhi`; nothing where it does not use any. -/
def operandResult (m : MultiStageData) (o : Operands) : Word :=
  match m.instrGroup with
  | 0#4 => alu { a := o.rb, b := o.rc, oper := m.instrOpcode }
  | 1#4 =>
    if m.instrOpcode = Iog1Oper.cpyhiOneRegOneImm.toBits then
      m.instrImmVal ++ o.ra.extractLsb' 0 16
    else if m.instrOpcode = Iog1Oper.addsiOneRegOnePcOneSimm.toBits then
      m.pcVal + m.instrImmVal.signExtend 32
    else alu
      { a := o.rb
        b := if m.instrOpcode = Iog1Oper.sltsiTwoRegsOneSimm.toBits
              ∨ m.instrOpcode = Iog1Oper.sgtsiTwoRegsOneSimm.toBits
            then m.instrImmVal.signExtend 32
            else m.instrImmVal.setWidth 32
        oper := m.instrOpcode }
  | _ => 0

theorem operandResult_of_other {m : MultiStageData} {o : Operands} (h0 : m.instrGroup ≠ 0#4)
    (h1 : m.instrGroup ≠ 1#4) : operandResult m o = 0 := by
  unfold operandResult
  split
  · exact absurd ‹_› h0
  · exact absurd ‹_› h1
  · rfl

/-- The operands with the read ports reloaded for the word at the end of a burst. -/
def reloaded (last : PortInFrost32Cpu) (s : Frost32Cpu) : Operands where
  ra := performOperandForwarding s.decode.multiStageDataExecute.instrRaIndex s.execute
    (s.regFile.written s.writeBack (s.inRegFile last).readSelRa)
  rb := performOperandForwarding s.decode.multiStageDataExecute.instrRbIndex s.execute
    (s.regFile.written s.writeBack (s.inRegFile last).readSelRb)
  rc := performOperandForwarding s.decode.multiStageDataExecute.instrRcIndex s.execute
    (s.regFile.written s.writeBack (s.inRegFile last).readSelRc)

theorem Waited.rfileData (h : Waited i s s') : s'.rfileData = s.reloaded i := by
  unfold Frost32Cpu.rfileData reloaded
  rw [h.readDataRa, h.readDataRb, h.readDataRc, h.regfile, h.decode, h.execute]

/-- A burst leaves the live registers as they are. -/
theorem Waited.liveRegs (h : Waited i s s') (hi : s.WritePortOk) : s'.liveRegs = s.liveRegs := by
  have harray : s'.arrayRegs
      = s.arrayRegs.set s.execute.prevWrittenRegIndex1 s.execute.nRegData1 := by
    ext r : 1
    by_cases hr : r = 0#4
    · rw [hr, Isa.Regs.zero, Isa.Regs.zero]
    · rw [← arrayRegs_written hi r hr]
      simp [arrayRegs, hr, h.regfile]
  unfold Frost32Cpu.liveRegs
  rw [harray, h.execute, Isa.Regs.set_set]

/-- In a stall a burst leaves the operands as they are. -/
theorem Waited.rfileData_of_inStall (h : Waited i s s') (hi : s.WaitInv) (hi' : s'.WaitInv)
    (hst : s.inStall = true) : s'.rfileData = s.rfileData := by
  have hc := (inStall_iff s).mp hst
  rw [rfileData_eq (hi.reads hc), rfileData_eq (hi'.reads (by rw [h.decode]; exact hc)),
    h.liveRegs hi.writePort, h.decode]

/-- Groups 0 and 1 post what they make of their operands. -/
theorem executeStage_operands (hw : j.waitForMem = false)
    (hu : ¬ s.decode.multiStageDataExecute.UsesUnits)
    (hg : s.decode.multiStageDataExecute.instrGroup = 0#4 ∨
      s.decode.multiStageDataExecute.instrGroup = 1#4) :
    s.executeStage j = s.prepRaWb (operandResult s.decode.multiStageDataExecute s.rfileData)
      s.shiftedRecord := by
  unfold operandResult
  rcases hg with hg | hg
  · have hop : ∀ op : BitVec 4, op = 6#4 ∨ op = 14#4 ∨ op = 15#4 →
        s.decode.multiStageDataExecute.instrOpcode ≠ op := by
      rintro op ho rfl
      exact hu (Or.inl ⟨hg, ho⟩)
    rw [executeStage_group0 hw hg, executeThreeRegs_eq, if_neg (hop 6#4 (by decide)),
      if_neg (hop 14#4 (by decide)), if_neg (hop 15#4 (by decide)), outAlu, inAlu,
      if_neg (by simp [hw]), hg]
    rfl
  · have h6 : s.decode.multiStageDataExecute.instrOpcode ≠ 6#4 :=
      fun ho => hu (Or.inr ⟨hg, ho⟩)
    rw [executeStage_group1 hw hg, executeImmediates_eq, hg]
    by_cases h15 : s.decode.multiStageDataExecute.instrOpcode = 15#4
    · rw [if_pos h15]
      exact congrArg (s.prepRaWb · s.shiftedRecord) (if_pos h15).symm
    · by_cases h14 : s.decode.multiStageDataExecute.instrOpcode = 14#4
      · rw [if_neg h15, if_pos h14]
        exact congrArg (s.prepRaWb · s.shiftedRecord) ((if_neg h15).trans (if_pos h14)).symm
      · rw [if_neg h15, if_neg h14, if_neg h6, outAlu, inAlu, if_neg (by simp [hw]), hg]
        exact congrArg (s.prepRaWb · s.shiftedRecord) ((if_neg h15).trans (if_neg h14)).symm

/-- Out of a stall the latch holds no call but an undefined one. -/
theorem undefined_call (hi : s.WaitInv) (hc : s.decode.stallCounter = 0#5)
    (hg : s.decode.multiStageDataExecute.instrGroup = 4#4) :
    ∃ op : BitVec 4, op.ult 10#4 = false ∧
      s.decode.multiStageDataExecute.instrConditionType = .ofBits op := by
  have hset := hi.settled hc
  rcases hi.latch with hb | hd
  · rw [hb] at hg
    exact absurd hg (show ¬ 0#4 = _ by decide)
  · rw [hd] at hg hset
    have hgw : Isa.group s.decode.multiStageDataExecute.rawInstruction = 4#4 := by
      have hg' := instrDecoder_group s.decode.multiStageDataExecute.rawInstruction
      rw [show (instrDecoder _).group = 4#4 from hg] at hg'
      split at hg'
      · exact absurd hg' (by decide)
      · exact hg'.symm
    have hdec := instrDecoder_of_group4 hgw
    refine ⟨Isa.opcodeLow s.decode.multiStageDataExecute.rawInstruction, ?_, ?_⟩
    · have hcs : (instrDecoder s.decode.multiStageDataExecute.rawInstruction).causesStall = false :=
        hset
      rw [hdec] at hcs
      exact hcs
    · rw [hd]
      show (instrDecoder s.decode.multiStageDataExecute.rawInstruction).conditionType = _
      rw [hdec]
      rfl

section Execute

variable (he : s'.execute = s.execute) (hd : s'.decode = s.decode)
  (hf : s'.fetch = s.fetch.stopMemAccess)
include he hd hf

omit hd hf in
private theorem shiftedRecord_congr : s'.shiftedRecord = s.shiftedRecord := by
  unfold shiftedRecord
  rw [he]

omit he in
/-- A call, with the same operands. -/
private theorem executeCalls_congr (hr : s'.rfileData = s.rfileData) (e : ExecuteRegs) :
    s'.executeCalls e = s.executeCalls e := by
  have hlts : s'.fetch.condLts = s.fetch.condLts := by rw [hf]; rfl
  have hges : s'.fetch.condGes = s.fetch.condGes := by rw [hf]; rfl
  have hles : s'.fetch.condLes = s.fetch.condLes := by rw [hf]; rfl
  have hgts : s'.fetch.condGts = s.fetch.condGts := by rw [hf]; rfl
  unfold executeCalls handleCallInExecuteStage followingPcStageExecute compareNe compareEq
    compareLtu compareGeu compareLeu compareGtu
  rw [hr, hd, hlts, hges, hles, hgts]

/-- The groups other than 0 and 1 do not use their operands out of a stall. -/
theorem executeStage_congr (hi : s.WaitInv) (hw : j.waitForMem = false)
    (hg : s.decode.multiStageDataExecute.instrGroup ≠ 0#4 ∧
      s.decode.multiStageDataExecute.instrGroup ≠ 1#4)
    (hr : s.inStall = true → s'.rfileData = s.rfileData) :
    s'.executeStage j = s.executeStage j := by
  have hrun : ¬ j.waitForMem = true := by simp [hw]
  unfold executeStage
  rw [if_neg hrun, if_neg hrun, hd, shiftedRecord_congr he]
  split
  · exact absurd ‹_› hg.1
  · exact absurd ‹_› hg.2
  · rfl
  · rfl
  · rename_i hg4
    cases hs : s.inStall with
    | true => exact executeCalls_congr hd hf (hr hs) _
    | false =>
      have hc : s.decode.stallCounter = 0#5 := by
        by_contra hc
        rw [inStall_eq_true hc] at hs
        exact Bool.noConfusion hs
      obtain ⟨op, hop, hct⟩ := undefined_call hi hc hg4
      rw [executeCalls_of_undefined hop hct, executeCalls_of_undefined hop (by rw [hd]; exact hct)]
  · unfold executeLoadsStores prepRaWb
    rw [hd]
  · unfold executeInterruptsStuff prepRaWb
    rw [hd]
  · rfl

end Execute

/-! ### The cycle after a burst -/

/-- Everything but the value posted by groups 0 and 1 is as without the burst. -/
private theorem loaded_eq_iff (h : Waited i s s') (hw : j.waitForMem = false)
    (hr : s.inStall = true → s'.rfileData = s.rfileData)
    (hex : (s'.executeStage j).prevWrittenRegIndex0 = (s.executeStage j).prevWrittenRegIndex0) :
    (s'.step j order).loaded = (s.step j order).loaded ↔
      (s'.executeStage j).nRegData0 = (s.executeStage j).nRegData0 := by
  have hf := fetchStage_congr h.fetch h.decode hr hw
  have hd := decodeStage_congr h.fetch h.decode hr hw
  have hreads : s'.inRegFile j = s.inRegFile j := by
    unfold inRegFile multiStageDataInstrDecode outInstrDecoder inInstrDecoder inStall
    rw [h.decode, h.writeBack]
  -- the register file writes the same record twice, which is as good as once
  have hrf : (s'.step j order).regFile = (s.step j order).regFile := by
    show s'.regFile.step (s'.inRegFile j) = s.regFile.step (s.inRegFile j)
    rw [hreads]
    refine RegisterFile.step_eq_of_written ?_
    show s'.regFile.written s.writeBack = _
    unfold RegisterFile.written
    rw [h.regfile]
    exact RegisterFile.written_written s.writeBack s.regFile 0 0 0
  have hpc : (s'.fetchStage j).pc = (s.fetchStage j).pc := congrArg (fun f => f.pc) hf
  have hpcVal : (s'.fetchStage j).pcVal = (s.fetchStage j).pcVal := congrArg (fun f => f.pcVal) hf
  have haddr : (s'.fetchStage j).out.addr = (s.fetchStage j).out.addr :=
    congrArg (fun f => f.out.addr) hf
  have hdata : (s'.fetchStage j).out.data = (s.fetchStage j).out.data :=
    congrArg (fun f => f.out.data) hf
  have htype : (s'.fetchStage j).out.dataInoutAccessType
      = (s.fetchStage j).out.dataInoutAccessType :=
    congrArg (fun f => f.out.dataInoutAccessType) hf
  constructor
  · exact fun heq => congrArg Loaded.nRegData0 heq
  · intro hn
    unfold loaded
    rw [hrf, step_fetch, step_fetch, step_decode, step_decode, step_execute, step_execute, hpc,
      hpcVal, hd, hex, hn, haddr, hdata, htype]

variable (order) in
/-- A burst of `n + 1` cycles of waiting before the cycle that sees `j` is only a delay. -/
def WaitingOnlyDelays (s : Frost32Cpu) (burst : Nat → PortInFrost32Cpu) (n : Nat)
    (j : PortInFrost32Cpu) : Prop :=
  ((Lib.run (fun i s => step i s order) s burst (n + 1)).step j order).loaded
    = (s.step j order).loaded

/-- **A burst of waiting is only a delay exactly if it falls into a stall or the reloaded
    operands give the same result.** -/
theorem waiting_only_delays_iff (junk : Frost32Cpu) (input : Nat → PortInFrost32Cpu) (t : Nat)
    (burst : Nat → PortInFrost32Cpu) (n : Nat) (j : PortInFrost32Cpu)
    (hs : s = Lib.run (fun i s => step i s order) (init junk) input t)
    (hu : ¬ s.decode.multiStageDataExecute.UsesUnits)
    (hb : ∀ k ≤ n, (burst k).waitForMem = true) (hw : j.waitForMem = false) :
    WaitingOnlyDelays order s burst n j ↔
      s.decode.stallCounter ≠ 0#5 ∨
        operandResult s.decode.multiStageDataExecute (s.reloaded (burst n))
          = operandResult s.decode.multiStageDataExecute s.rfileData := by
  have hi : s.WaitInv := hs ▸ waitInv_run junk input t
  have h := waited_run order s hb
  have hi' : (Lib.run (fun i s => step i s order) s burst (n + 1)).WaitInv :=
    Lib.run_invariant WaitInv hi (fun _ _ h => waitInv_step h) (n + 1)
  have hr := h.rfileData_of_inStall hi hi'
  unfold WaitingOnlyDelays
  generalize Lib.run (fun i s => step i s order) s burst (n + 1) = s' at h hr ⊢
  by_cases hg : s.decode.multiStageDataExecute.instrGroup = 0#4 ∨
      s.decode.multiStageDataExecute.instrGroup = 1#4
  · have hex := executeStage_operands hw hu hg
    have hex' := executeStage_operands (s := s') hw (by rw [h.decode]; exact hu)
      (by rw [h.decode]; exact hg)
    rw [h.decode, h.rfileData] at hex'
    rw [loaded_eq_iff h hw hr (by rw [hex, hex', prepRaWb, prepRaWb, h.decode]; rfl), hex, hex']
    refine ⟨Or.inr, ?_⟩
    rintro (hc | heq)
    · have hst := hr ((inStall_iff s).mpr hc)
      rw [h.rfileData] at hst
      show operandResult _ _ = operandResult _ _
      rw [hst]
    · exact heq
  · obtain ⟨hg0, hg1⟩ := not_or.mp hg
    have hex := executeStage_congr h.execute h.decode h.fetch hi hw ⟨hg0, hg1⟩ hr
    rw [loaded_eq_iff h hw hr (by rw [hex]), hex]
    refine ⟨fun _ => Or.inr ?_, fun _ => rfl⟩
    rw [operandResult_of_other hg0 hg1, operandResult_of_other hg0 hg1]

/-- One word on the bus. -/
def busWord (wait : Bool) (w : Word) : PortInFrost32Cpu where
  data := w
  waitForMem := wait
  interrupt := false

/-- "addi r1, zero, 5", two times "add zero, zero, zero", "add r2, r3, zero". -/
def forwardingInput (t : Nat) : PortInFrost32Cpu :=
  busWord false (if t = 2 then 0x11000005#32 else if t = 5 then 0x02300000#32 else 0#32)

/-- With "add r2, r3, zero" in the execute stage, one cycle of waiting with
    "add r2, r1, zero" on the bus makes it add `r1`. -/
theorem waiting_changes_result :
    ¬ ∀ (order : BlockOrder) (junk s : Frost32Cpu) (input : Nat → PortInFrost32Cpu) (t : Nat)
        (burst : Nat → PortInFrost32Cpu) (n : Nat) (j : PortInFrost32Cpu),
      s = Lib.run (fun i s => step i s order) (init junk) input t →
      ¬ s.decode.multiStageDataExecute.UsesUnits →
      (∀ k ≤ n, (burst k).waitForMem = true) → j.waitForMem = false →
      WaitingOnlyDelays order s burst n j := by
  intro h
  have hdelay := h .preEdge System.cleared.cpu _ forwardingInput 6
    (fun _ => busWord true 0x02100000#32) 0 (busWord false 0#32) rfl
    (by unfold MultiStageData.UsesUnits; decide) (fun _ _ => rfl) rfl
  have hdata := congrArg Loaded.nRegData0 hdelay
  exact absurd hdata (by decide)

/-- The same burst with the word of the latched instruction still on the bus. -/
theorem waiting_only_delays_iff_repeated :
    WaitingOnlyDelays .preEdge
        (Lib.run (fun i s => step i s .preEdge) (init System.cleared.cpu) forwardingInput 6)
        (fun _ => busWord true 0x02300000#32) 0 (busWord false 0#32) :=
  (waiting_only_delays_iff System.cleared.cpu forwardingInput 6
    (fun _ => busWord true 0x02300000#32) 0 (busWord false 0#32) rfl
    (by unfold MultiStageData.UsesUnits; decide) (fun _ _ => rfl) rfl).mpr (Or.inr (by decide))

end Frost32Cpu

end Frost32.Hdl
