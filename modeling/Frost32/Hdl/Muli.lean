import Frost32.Hdl.Refinement

namespace Frost32.Hdl

open Isa (Regs Arch)

/-!
# `muli` in the pipeline

The decode stage gives `muli` the stall counter of a multiplication and leaves `stall_state`
as the last stall or interrupt response has set it, so the fetch and decode stages do at
`stall_counter` 3 and 2 what that state asks for.

* `muliPc`, `muliIe` — where the next instruction is loaded from and what becomes of `ie`,
  for each stall state left over.
* `muliOutcome` — the state in which the next instruction is decoded.
* `muli_leads` — **`muli` from any stall state.**
* `MuliSound` — the cases in which nothing but the documented effect happens;
  `muliOutcome_eq_iff` compares the two.
-/

/-! ### The effect of the stall states -/

section Outcome

variable (st : StallState) (stale : Word) (w : Word) (a : Arch)

/-- The registers at `stall_counter == 2`: the execute stage has posted the product of the
    last multiplication for `rA`. -/
def staleRegs : Regs := a.regs.set (Isa.fieldA w) stale

/-- The address loaded at `stall_counter == 2`. -/
def muliPc : Word :=
  let g := staleRegs stale w a
  match st with
  | .stInit => 0
  | .stReti => a.ireta
  | .stRespondToInterrupt => a.idsta
  | .stCtrlFlowBranch =>
    if g.val (Isa.fieldA w) != g.val (Isa.fieldB w) then
      a.pc + 4 + (Isa.imm16 w).signExtend 32
    else a.pc + 4
  -- the decoder gives `muli` the register `zero` for `rC`
  | .stCtrlFlowJumpCall =>
    if g.val (Isa.fieldA w) != g.val (Isa.fieldB w) then 0 else a.pc + 4
  | .stOtherInterruptsStuff | .stMemAccess | .stMulDiv | .stOther => a.pc + 4

/-- `ie` afterwards. -/
def muliIe : Bool :=
  match st with
  -- `muli` does not have the opcode of `ei`
  | .stOtherInterruptsStuff => false
  | .stReti => true
  | .stRespondToInterrupt => false
  | _ => a.ie

/-- The product `muli` is for. -/
def muliProduct : Word := a.regs.val (Isa.fieldB w) * (Isa.imm16 w).setWidth 32

/-- The state in which the instruction after `muli` is decoded. -/
def muliOutcome : Arch :=
  { a with regs := a.regs.set (Isa.fieldA w) (muliProduct w a)
           pc := muliPc st stale w a
           ie := muliIe st a }

/-- The stall state left over does no harm. -/
def MuliSound : Prop :=
  let g := staleRegs stale w a
  match st with
  | .stInit => a.pc + 4 = 0
  | .stReti => a.ie = true ∧ a.ireta = a.pc + 4
  | .stRespondToInterrupt => a.ie = false ∧ a.idsta = a.pc + 4
  | .stCtrlFlowBranch =>
    Isa.imm16 w = 0#16 ∨ g.val (Isa.fieldA w) = g.val (Isa.fieldB w)
  | .stCtrlFlowJumpCall => a.pc + 4 = 0 ∨ g.val (Isa.fieldA w) = g.val (Isa.fieldB w)
  | .stOtherInterruptsStuff => a.ie = false
  | .stMemAccess | .stMulDiv | .stOther => True

/-! ### The documented effect -/

theorem exec_muli {w : Word} (hw : IsMuli w) (bo : Isa.ByteOrder) (a : Arch) :
    Isa.exec bo w a = a.writeA w (muliProduct w a) := by
  simp only [Isa.exec, hw.1, hw.2]
  rfl

/-- A field that is sign extended to 0 is 0. -/
theorem signExtend_eq_zero_iff {n m : Nat} (hnm : n ≤ m) (x : BitVec n) :
    x.signExtend m = 0#m ↔ x = 0#n := by
  constructor
  · intro h
    apply BitVec.eq_of_toInt_eq
    rw [← BitVec.toInt_signExtend_of_le hnm, h, BitVec.toInt_zero, BitVec.toInt_zero]
  · rintro rfl
    apply BitVec.eq_of_toInt_eq
    rw [BitVec.toInt_signExtend_of_le hnm, BitVec.toInt_zero, BitVec.toInt_zero]

/-- Only the address and `ie` can be wrong. -/
theorem muliOutcome_eq_writeA_iff :
    muliOutcome st stale w a = a.writeA w (muliProduct w a) ↔
      muliPc st stale w a = a.pc + 4 ∧ muliIe st a = a.ie := by
  constructor
  · intro h
    exact ⟨congrArg Arch.pc h, congrArg Arch.ie h⟩
  · rintro ⟨hpc, hie⟩
    unfold muliOutcome
    rw [hpc, hie]
    rfl

/-- **The outcome is the documented one in exactly the sound cases.** -/
theorem muliOutcome_eq_iff :
    muliOutcome st stale w a = a.writeA w (muliProduct w a) ↔ MuliSound st stale w a := by
  rw [muliOutcome_eq_writeA_iff]
  unfold muliPc muliIe MuliSound
  cases st with
  | stInit => exact ⟨fun h => h.1.symm, fun h => ⟨h.symm, rfl⟩⟩
  | stReti => exact ⟨fun h => ⟨h.2.symm, h.1⟩, fun h => ⟨h.2, h.1.symm⟩⟩
  | stRespondToInterrupt => exact ⟨fun h => ⟨h.2.symm, h.1⟩, fun h => ⟨h.2, h.1.symm⟩⟩
  | stOtherInterruptsStuff => exact ⟨fun h => h.2.symm, fun h => ⟨rfl, h.symm⟩⟩
  | stMemAccess => exact ⟨fun _ => trivial, fun _ => ⟨rfl, rfl⟩⟩
  | stMulDiv => exact ⟨fun _ => trivial, fun _ => ⟨rfl, rfl⟩⟩
  | stOther => exact ⟨fun _ => trivial, fun _ => ⟨rfl, rfl⟩⟩
  | stCtrlFlowBranch =>
    dsimp only
    -- a branch that is taken is harmless at offset 0
    rw [← signExtend_eq_zero_iff (show 16 ≤ 32 by omega)]
    by_cases hne : (staleRegs stale w a).val (Isa.fieldA w)
        = (staleRegs stale w a).val (Isa.fieldB w)
    · simp [hne]
    · rw [if_pos (by simpa using hne)]
      exact ⟨fun h => Or.inl (by simpa using h.1), fun h => ⟨by simp [h.resolve_right hne], rfl⟩⟩
  | stCtrlFlowJumpCall =>
    dsimp only
    by_cases hne : (staleRegs stale w a).val (Isa.fieldA w)
        = (staleRegs stale w a).val (Isa.fieldB w)
    · simp [hne]
    · rw [if_pos (by simpa using hne)]
      exact ⟨fun h => Or.inl h.1.symm, fun h => ⟨(h.resolve_right hne).symm, rfl⟩⟩

/-- So it is the effect in the instruction set in exactly these cases. -/
theorem muliOutcome_eq_exec_iff (hw : IsMuli w) (bo : Isa.ByteOrder) :
    muliOutcome st stale w a = Isa.exec bo w a ↔ MuliSound st stale w a := by
  rw [exec_muli hw]
  exact muliOutcome_eq_iff st stale w a

end Outcome

namespace Frost32Cpu

/-! ### The stages with `muli` in the execute stage -/

variable {i : PortInFrost32Cpu} {s : Frost32Cpu} {w pc : Word}
  (h : s.decode.multiStageDataExecute = .ofWord w pc) (hw : IsMuli w)
include h hw

/-- What the execute stage has latched of `muli`. -/
theorem latch_muli :
    let m := s.decode.multiStageDataExecute
    m.instrGroup = 1#4 ∧ m.instrOpcode = 6#4 ∧ m.instrRaIndex = Isa.fieldA w ∧
      m.instrImmVal = Isa.imm16 w ∧ m.instrConditionType = .ctNe ∧ m.instrLdstType = .ld32 := by
  rw [h]
  show (instrDecoder w).group = _ ∧ (instrDecoder w).opcode = _ ∧ (instrDecoder w).raIndex = _ ∧
    (instrDecoder w).immVal = _ ∧ (instrDecoder w).conditionType = _ ∧
    (instrDecoder w).ldstType = _
  rw [instrDecoder_of_group1 hw.1]
  exact ⟨rfl, hw.2, rfl, rfl, rfl, rfl⟩

theorem rfileData_muli (hr : s.ReadsLatch) :
    s.rfileData = { ra := s.liveRegs.val (Isa.fieldA w), rb := s.liveRegs.val (Isa.fieldB w),
                    rc := 0 } := by
  rw [rfileData_eq hr, h]
  show Operands.mk (s.liveRegs.val (instrDecoder w).raIndex)
    (s.liveRegs.val (instrDecoder w).rbIndex) (s.liveRegs.val (instrDecoder w).rcIndex) = _
  rw [instrDecoder_of_group1 hw.1]
  exact congrArg (Operands.mk _ _) s.liveRegs.zero

theorem executeStage_muli (hi : i.waitForMem = false) :
    s.executeStage i = s.ctrlMultiply32 s.rfileData.rb ((Isa.imm16 w).setWidth 32)
      s.shiftedRecord := by
  obtain ⟨hg, hop, -, him, -⟩ := latch_muli h hw
  rw [executeStage_group1 hi hg, executeImmediates_eq, hop, him]
  rfl

/-- It always posts a value for `rA`. -/
theorem executeStage_muli_sel (hi : i.waitForMem = false) :
    (s.executeStage i).prevWrittenRegIndex0 = Isa.fieldA w := by
  obtain ⟨-, -, hra, -⟩ := latch_muli h hw
  rw [executeStage_muli h hw hi, ← hra]
  unfold ctrlMultiply32
  split <;> rfl

/-- After the first cycle the value is what the multiplier shows. -/
theorem executeStage_muli_data (hi : i.waitForMem = false)
    (h5 : s.decode.stallCounter ≠ 5#5) : (s.executeStage i).nRegData0 = s.mul32.prod := by
  rw [executeStage_muli h hw hi, ctrlMultiply32_low h5]
  rfl

/-- The command ports. -/
theorem executeStage_muli_ports (hi : i.waitForMem = false) :
    (s.executeStage i).inMul32 =
      (if s.decode.stallCounter = 5#5 then
        { enable := true, x := s.rfileData.rb, y := (Isa.imm16 w).setWidth 32 }
      else { s.execute.inMul32 with enable := false }) ∧
    (s.executeStage i).inDiv32 = s.execute.inDiv32 := by
  rw [executeStage_muli h hw hi]
  by_cases h5 : s.decode.stallCounter = 5#5
  · rw [ctrlMultiply32_command h5, if_pos h5]
    exact ⟨rfl, rfl⟩
  · rw [ctrlMultiply32_low h5, if_neg h5]
    exact ⟨rfl, rfl⟩

/-- At `stall_counter == 3` no stall state makes `muli` write the memory. -/
theorem fetchAtThree_muli (hb : s.fetch.out.we = false) : s.fetchAtThree.out.we = false := by
  obtain ⟨-, -, -, -, -, hl⟩ := latch_muli h hw
  unfold fetchAtThree fetchMemAccess
  rw [hl]
  split
  · rfl
  · exact hb
  · exact hb
  · exact hb

/-- The address loaded at `stall_counter == 2`. -/
theorem fetchAtTwo_muli {a : Arch} {stale : Word} (hpc : a.pc = pc) (hr : s.ReadsLatch)
    (hireta : s.decode.ireta = a.ireta) (hidsta : s.decode.idsta = a.idsta)
    (hlive : s.liveRegs = staleRegs stale w a) (hst : s.decode.stallState ≠ .stOther) :
    s.fetchAtTwo.pc = muliPc s.decode.stallState stale w a := by
  obtain ⟨-, -, -, himm, hc, -⟩ := latch_muli h hw
  have hfol : s.followingPcStageExecute = a.pc + 4 := by
    rw [followingPcStageExecute, h, hpc]
    rfl
  have him : s.branchAdderB = (Isa.imm16 w).signExtend 32 := by
    rw [branchAdderB, himm]
  have hne : s.compareNe = ((staleRegs stale w a).val (Isa.fieldA w)
      != (staleRegs stale w a).val (Isa.fieldB w)) := by
    rw [compareNe, rfileData_muli h hw hr, hlive]
  -- each stall state loads an address of its own
  unfold fetchAtTwo muliPc
  cases hs : s.decode.stallState with
  | stInit => rfl
  | stRespondToInterrupt => exact hidsta
  | stReti => exact hireta
  | stOther => exact absurd hs hst
  | stMulDiv => exact hfol
  | stCtrlFlowBranch =>
    dsimp only
    unfold fetchBranch
    rw [hc]
    dsimp only
    rw [handleBranchInFetchStage_eq, hne, branchAdderA, hfol, him]
    rfl
  | stCtrlFlowJumpCall =>
    dsimp only
    unfold fetchJumpCall
    rw [hc]
    dsimp only
    rw [handleJumpOrCallInFetchStage_eq, hne, hfol, rfileData_muli h hw hr]
    rfl
  | stOtherInterruptsStuff => exact hfol
  | stMemAccess => exact hfol

/-- The special registers at `stall_counter == 2`. -/
theorem decodeAtTwo_muli (hin : s.inStall = true) (d : DecodeRegs) {a : Arch}
    (hie : d.ie = a.ie) :
    s.decodeAtTwo i d = { d with ie := muliIe s.decode.stallState a } := by
  obtain ⟨-, hop, -⟩ := latch_muli h hw
  have hdec : (s.multiStageDataInstrDecode i).instrOpcode = 6#4 := by
    rw [multiStageDataInstrDecode_eq, inInstrDecoder, if_pos hin, ← hop, h]
    rfl
  cases hs : s.decode.stallState
  case stOtherInterruptsStuff =>
    rw [decodeAtTwo_otherInterruptsStuff hs, hop, hdec]
    rfl
  case stReti =>
    unfold decodeAtTwo
    rw [hs]
    rfl
  case stRespondToInterrupt =>
    unfold decodeAtTwo
    rw [hs]
    rfl
  all_goals
    unfold decodeAtTwo
    rw [hs]
    exact congrArg (fun e => { d with ie := e }) hie

end Frost32Cpu

namespace System

variable {order : BlockOrder} {irq : Bool} {y : System} {a : Arch} {w : Word} {c : BitVec 5}
  {st : StallState}

/-! ### The stall -/

/-- `muli` is in the execute stage, with `c` cycles of its stall to go, and only `rA` may have
    changed. -/
structure Multiplying (a : Arch) (w : Word) (st : StallState) (c : BitVec 5) (y : System) :
    Prop where
  inv : y.Inv
  latch : y.cpu.decode.multiStageDataExecute = .ofWord w a.pc
  regs : ∀ v, y.cpu.liveRegs.set (Isa.fieldA w) v = a.regs.set (Isa.fieldA w) v
  counter : y.cpu.decode.stallCounter = c
  state : y.cpu.decode.stallState = st
  ireta : y.cpu.decode.ireta = a.ireta
  idsta : y.cpu.decode.idsta = a.idsta
  ie : y.cpu.decode.ie = a.ie
  mem : y.ram.mem = a.mem
  bus : y.cpu.fetch.out.we = false

theorem multiplying_of_sent (h : Sent a w st c y) : Multiplying a w st c y :=
  ⟨h.inv, h.latched.latch, fun v => by rw [h.latched.live], h.counter, h.state, h.ireta, h.idsta,
    h.ie, h.mem, h.bus⟩

variable (order irq) in
/-- The live registers after a cycle of the stall. -/
theorem Multiplying.liveRegs_step (hw : IsMuli w) (h : Multiplying a w st c y)
    (h5 : c ≠ 5#5) :
    (y.step order irq).cpu.liveRegs = staleRegs y.cpu.mul32.prod w a := by
  have hpost := Frost32Cpu.settledRegs_of_post
    ⟨Frost32Cpu.executeStage_muli_sel (i := y.cpuIn false) h.latch hw rfl,
      Frost32Cpu.executeStage_muli_data (i := y.cpuIn false) h.latch hw rfl
        (by rw [h.counter]; exact h5)⟩
  rw [System.liveRegs_step h.inv]
  exact hpost.trans (h.regs _)

variable (order irq) in
/-- One cycle before `stall_counter == 2`. -/
theorem multiplying_step (hw : IsMuli w) (h : Multiplying a w st c y) (hc : 2 < c.toNat) :
    Multiplying a w st (c - 1#5) (y.step order irq) := by
  have hd := step_decode_beyond order irq (y := y) (by rw [h.counter]; exact hc)
  have hbus : (y.step order irq).cpu.fetch.out.we = false := by
    rw [step_fetch]
    -- at `stall_counter == 3` the stall state decides what fetch does
    by_cases h3 : c = 3#5
    · rw [Frost32Cpu.fetchStage_atThree rfl (h.counter.trans h3)]
      exact Frost32Cpu.fetchAtThree_muli h.latch hw h.bus
    · have h3' : c.toNat ≠ 3 := fun he => h3 (BitVec.eq_of_toNat_eq he)
      rw [Frost32Cpu.fetchStage_beyond rfl (by rw [h.counter]; omega)]
      exact h.bus
  refine ⟨inv_step h.inv, ?_, ?_, ?_, ?_, ?_, ?_, ?_, ?_, hbus⟩
  · rw [hd]; exact h.latch
  · intro v
    rw [System.liveRegs_step h.inv]
    show ((y.cpu.liveRegs).set _ _).set _ _ = _
    rw [Frost32Cpu.executeStage_muli_sel h.latch hw rfl, Regs.set_set, h.regs]
  · rw [hd, h.counter]
  · rw [hd]; exact h.state
  · rw [hd]; exact h.ireta
  · rw [hd]; exact h.idsta
  · rw [hd]; exact h.ie
  · exact (step_mem order irq h.bus).trans h.mem

section Run

variable (hw : IsMuli w) (h : Sent a w st 5#5 y) (irq : Nat → Bool)
include hw h

variable (order) in
/-- The stall counts down to `stall_counter == 2`. -/
private theorem multiplying_run {n : Nat} (hn : n ≤ 3) :
    Multiplying a w st (5#5 - BitVec.ofNat 5 n) (runFrom order y irq n) := by
  induction n with
  | zero => exact multiplying_of_sent h
  | succ n ih =>
    have hc : (5#5 - BitVec.ofNat 5 n).toNat = 5 - n :=
      Lib.Countdown.toNat_sub_ofNat 5#5 (show n ≤ 5 by omega)
    have hstep := multiplying_step order (irq n) hw (ih (by omega)) (by rw [hc]; omega)
    rw [← Lib.Countdown.sub_ofNat_sub_one]
    exact hstep

variable (order) in
/-- The command ports during the stall. -/
private theorem muli_ports {t : Nat} (ht : t < 4) :
    (runFrom order y irq (t + 1)).cpu.execute.inMul32 =
        { enable := t == 0, x := a.regs.val (Isa.fieldB w), y := (Isa.imm16 w).setWidth 32 } ∧
      (runFrom order y irq (t + 1)).cpu.execute.inDiv32 = y.cpu.execute.inDiv32 := by
  induction t with
  | zero =>
    have hp := Frost32Cpu.executeStage_muli_ports (i := y.cpuIn (irq 0)) h.latched.latch hw rfl
    rw [if_pos h.counter, Frost32Cpu.rfileData_muli h.latched.latch hw h.latched.reads,
      h.latched.live] at hp
    exact hp
  | succ t ih =>
    obtain ⟨ihm, ihd⟩ := ih (by omega)
    have hc := multiplying_run order hw h irq (show t + 1 ≤ 3 by omega)
    have hp := Frost32Cpu.executeStage_muli_ports (i := (runFrom order y irq (t + 1)).cpuIn
      (irq (t + 1))) hc.latch hw rfl
    -- the command is given once
    have h5 : (runFrom order y irq (t + 1)).cpu.decode.stallCounter ≠ 5#5 := by
      rw [hc.counter]
      exact Lib.Countdown.sub_ofNat_ne_self 5#5 (by omega) (show t + 1 ≤ 5 by omega)
    rw [if_neg h5, ihm, ihd] at hp
    exact hp

variable (order) in
/-- Until the products are added the multiplier shows the last product. -/
private theorem muli_stale : (runFrom order y irq 2).cpu.mul32.prod = y.cpu.mul32.prod := by
  have h1 : (runFrom order y irq 1).cpu.mul32 = y.cpu.mul32 :=
    Multiplier32.step_idle h.units.mulLow h.units.mulIdle
  have hcmd := (muli_ports order hw h irq (t := 0) (by omega)).1
  show ((runFrom order y irq 1).cpu.mul32.step (runFrom order y irq 1).cpu.execute.inMul32).prod = _
  rw [h1, Multiplier32.step_accept_prod (by rw [hcmd]; rfl) h.units.mulIdle]

/-- In the last cycle of the stall the outcome is determined. -/
private theorem muli_fetching :
    Fetching (muliOutcome st y.cpu.mul32.prod w a) (runFrom order y irq 4) := by
  have h3 := multiplying_run order hw h irq (le_refl 3)
  have hc : (runFrom order y irq 3).cpu.decode.stallCounter = 2#5 := h3.counter
  obtain ⟨hprod, hu⟩ := product_run order h.units irq
    (fun _ ht => muli_ports order hw h irq ht)
  -- `stall_counter == 2`, with the last product posted for `rA`
  have hlive : (runFrom order y irq 3).cpu.liveRegs = staleRegs y.cpu.mul32.prod w a := by
    have hl := (multiplying_run order hw h irq (show 2 ≤ 3 by omega)).liveRegs_step order (irq 2)
      hw (by decide)
    rw [muli_stale order hw h irq] at hl
    exact hl
  have hd : (runFrom order y irq 4).cpu.decode =
      { (runFrom order y irq 3).cpu.decode with
        stallCounter := 1#5
        ie := muliIe (runFrom order y irq 3).cpu.decode.stallState a } := by
    rw [runFrom_succ, step_decode_atTwo order (irq 3) hc]
    exact Frost32Cpu.decodeAtTwo_muli h3.latch hw (Frost32Cpu.inStall_eq_true (by simp [hc]))
      { (runFrom order y irq 3).cpu.decode with stallCounter := 1#5 } h3.ie
  have hpc : (runFrom order y irq 4).cpu.fetch.pc = muliPc st y.cpu.mul32.prod w a := by
    rw [runFrom_succ, step_fetch, Frost32Cpu.fetchStage_atTwo rfl hc,
      Frost32Cpu.fetchAtTwo_muli h3.latch hw rfl h3.inv.reads h3.ireta h3.idsta hlive h3.inv.state,
      h3.state]
  have hmem : (runFrom order y irq 4).ram.mem = a.mem :=
    (step_mem order (irq 3) h3.bus).trans h3.mem
  refine ⟨inv_step h3.inv, by rw [hd], hpc, ?_, ?_, ?_, ?_, hmem, hu⟩
  · -- the last cycle posts the product
    have hlat : (runFrom order y irq 4).cpu.decode.multiStageDataExecute = .ofWord w a.pc := by
      rw [hd]; exact h3.latch
    have hpost := Frost32Cpu.settledRegs_of_post
      ⟨Frost32Cpu.executeStage_muli_sel (i := (runFrom order y irq 4).cpuIn false) hlat hw rfl,
        Frost32Cpu.executeStage_muli_data (i := (runFrom order y irq 4).cpuIn false) hlat hw rfl
          (by rw [hd]; exact (show ¬ 1#5 = 5#5 by decide))⟩
    have hl4 := h3.liveRegs_step order (irq 3) hw (by decide)
    refine hpost.trans ?_
    rw [hprod, runFrom_succ, hl4, staleRegs, Regs.set_set]
    rfl
  · rw [hd]; exact h3.ireta
  · rw [hd]; exact h3.idsta
  · rw [hd]; exact congrArg (fun st => muliIe st a) h3.state

end Run

variable (order) in
/-- **`muli` from any stall state.** -/
theorem muli_leads (hw : IsMuli w) (h : Sent a w st 5#5 y) :
    Leads order (muliOutcome st y.cpu.mul32.prod w a) 5 y := by
  refine leads_of_run (n := 4) (fun irq j hj => ?_) (fun irq => muli_fetching hw h irq)
  rcases Nat.lt_or_eq_of_le hj with hlt | rfl
  · have hc := multiplying_run order hw h irq (show j ≤ 3 by omega)
    rw [hc.counter]
    exact Lib.Countdown.sub_ofNat_ne_zero 5#5 (show j < 5 by omega)
  · rw [(muli_fetching hw h irq).counter]
    exact (show ¬ 1#5 = 0#5 by decide)

end System

end Frost32.Hdl
