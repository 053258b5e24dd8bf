import Frost32.Hdl.Decoding

namespace Frost32.Hdl

open Isa (Regs Arch)

/-!
# From a sent instruction to the next decoded one

One lemma for each way of stalling: the stalling instruction `w` of the state `a` is in the
execute stage, and some cycles later `Isa.exec` of it is the state in which the next
instruction is decoded, whatever the interrupt line does in between.

* `Leads order b n` — `n` edges later, and not earlier, the machine decodes in state `b`.
* `stalled_step`, `sent_step` — a cycle of a stall that posts no result.
* `branch_leads`, `jump_leads`, `interrupts_leads` — groups 2, 3 and 6.
* `memAccess_leads` — group 5, with the effect `ldstOutcome`; `load_leads`, `store_leads` —
  the accesses of 32 bits, for which that is the documented one.
* `accept_leads` — an accepted interrupt.
-/

namespace System

variable {order : BlockOrder} {irq : Bool} {y : System} {bo : Isa.ByteOrder}
  {a b : Arch} {w : Word} {c : BitVec 5} {st : StallState}

/-! ### Counting down -/

/-- Whatever the interrupt line does, `n` edges later, and not earlier, an instruction is
    decoded in the state `b`. -/
def Leads (order : BlockOrder) (b : Arch) : Nat → System → Prop
  | 0, y => Decoding b y
  | n + 1, y =>
    y.cpu.decode.stallCounter ≠ 0#5 ∧ ∀ irq : Bool, Leads order b n (y.step order irq)

theorem Fetching.leads (h : Fetching b y) : Leads order b 1 y :=
  ⟨by simp [h.counter], fun _ => fetching_step h⟩

/-- What `Leads` says about a run. -/
theorem Leads.run {n : Nat} (h : Leads order b n y) (irq : Nat → Bool) :
    Decoding b (runFrom order y irq n) ∧
      ∀ j < n, (runFrom order y irq j).cpu.decode.stallCounter ≠ 0#5 := by
  induction n generalizing y irq with
  | zero => exact ⟨h, fun j hj => absurd hj (by omega)⟩
  | succ n ih =>
    obtain ⟨hend, hmid⟩ := ih (h.2 (irq 0)) (fun t => irq (t + 1))
    unfold runFrom at hend hmid ⊢
    refine ⟨by rw [Lib.run_succ_left]; exact hend, ?_⟩
    intro j hj
    cases j with
    | zero => exact h.1
    | succ j =>
      rw [Lib.run_succ_left]
      exact hmid j (by omega)

/-- Every run reaching its last cycle is enough. -/
theorem leads_of_run {n : Nat}
    (h0 : ∀ irq : Nat → Bool, ∀ j ≤ n, (runFrom order y irq j).cpu.decode.stallCounter ≠ 0#5)
    (h : ∀ irq : Nat → Bool, Fetching b (runFrom order y irq n)) : Leads order b (n + 1) y := by
  induction n generalizing y with
  | zero => exact (h (fun _ => false)).leads
  | succ n ih =>
    refine ⟨h0 (fun _ => false) 0 (by omega), fun q => ih ?_ ?_⟩
    · intro irq j hj
      have hrun := h0 (fun t => Nat.casesOn t q irq) (j + 1) (by omega)
      unfold runFrom at hrun ⊢
      rw [Lib.run_succ_left] at hrun
      exact hrun
    · intro irq
      have hrun := h (fun t => Nat.casesOn t q irq)
      unfold runFrom at hrun ⊢
      rw [Lib.run_succ_left] at hrun
      exact hrun

theorem Stalled.inStall (h : Stalled a w c y) (hc : c ≠ 0#5) :
    y.cpu.decode.stallCounter ≠ 0#5 := by
  rw [h.counter]
  exact hc

variable (order irq) in
/-- The decode stage before `stall_counter == 2`. -/
theorem step_decode_beyond (hc : 2 < y.cpu.decode.stallCounter.toNat) :
    (y.step order irq).cpu.decode
      = { y.cpu.decode with stallCounter := y.cpu.decode.stallCounter - 1#5 } := by
  rw [step_decode, Frost32Cpu.decodeStage_inStall rfl, Frost32Cpu.decodeInStall_beyond hc]
  intro he
  rw [he] at hc
  exact absurd hc (by decide)

variable (order irq) in
/-- The decode stage at `stall_counter == 2`. -/
theorem step_decode_atTwo (hc : y.cpu.decode.stallCounter = 2#5) :
    (y.step order irq).cpu.decode
      = y.cpu.decodeAtTwo (y.cpuIn irq) { y.cpu.decode with stallCounter := 1#5 } := by
  rw [step_decode, Frost32Cpu.decodeStage_inStall rfl (by simp [hc]),
    Frost32Cpu.decodeInStall_atTwo hc]

variable (order irq) in
/-- The instruction stays in the execute stage, with the registers the cycle has settled. -/
theorem latched_step_post (hi : y.Inv) (h : y.cpu.Latched a w)
    (h0 : y.cpu.decode.stallCounter ≠ 0#5) (h1 : y.cpu.decode.stallCounter ≠ 1#5) :
    (y.step order irq).cpu.Latched { a with regs := y.arch.regs } w := by
  have hd : (y.step order irq).cpu.decode = y.cpu.decodeInStall (y.cpuIn irq) := by
    rw [step_decode, Frost32Cpu.decodeStage_inStall rfl h0]
  obtain ⟨hia, hid⟩ := Frost32Cpu.decodeInStall_copies (i := y.cpuIn irq) (s := y.cpu)
  refine ⟨?_, (inv_step hi).reads, liveRegs_step hi, ?_, ?_⟩
  · rw [hd, Frost32Cpu.decodeInStall_latch h1, h.latch]
  · rw [hd, hia, h.iretaData]
  · rw [hd, hid, h.idstaData]

/-- An instruction that posts nothing leaves the registers of its state. -/
theorem arch_regs_of_quiet (h : y.cpu.Latched a w)
    (hq : (y.cpu.executeStage (y.cpuIn false)).prevWrittenRegIndex0 = 0#4) :
    y.arch.regs = a.regs :=
  (Frost32Cpu.settledRegs_of_quiet hq).trans h.live

/-- It stays as it is while nothing is posted. -/
theorem latched_step (hi : y.Inv) (h : y.cpu.Latched a w)
    (h0 : y.cpu.decode.stallCounter ≠ 0#5) (h1 : y.cpu.decode.stallCounter ≠ 1#5)
    (hq : (y.cpu.executeStage (y.cpuIn false)).prevWrittenRegIndex0 = 0#4) :
    (y.step order irq).cpu.Latched a w := by
  have hpost := latched_step_post order irq hi h h0 h1
  rw [arch_regs_of_quiet h hq] at hpost
  exact hpost

variable (order irq) in
/-- One cycle of a stall before `stall_counter == 2`. -/
theorem stalled_step_post (h : Stalled a w c y) (hc : 2 < c.toNat)
    (hu : ¬ y.cpu.decode.multiStageDataExecute.UsesUnits) (hb : y.cpu.fetch.out.we = false) :
    Stalled { a with regs := y.arch.regs } w (c - 1#5) (y.step order irq) := by
  have hc' : 2 < y.cpu.decode.stallCounter.toNat := by rw [h.counter]; exact hc
  have hne : ∀ k : Nat, k ≤ 2 → y.cpu.decode.stallCounter ≠ BitVec.ofNat 5 k :=
    fun k hk => Lib.Countdown.ne_ofNat_of_lt _ (by omega)
  refine ⟨inv_step h.inv,
    latched_step_post order irq h.inv h.latched (hne 0 (by omega)) (hne 1 (by omega)),
    ?_, ?_, Frost32Cpu.unitsIdle_step h.units rfl hu⟩
  · rw [step_decode_beyond order irq hc', h.counter]
  · exact (step_mem order irq hb).trans h.mem

/-- The same for an instruction that posts nothing. -/
theorem stalled_step (h : Stalled a w c y) (hc : 2 < c.toNat)
    (hq : (y.cpu.executeStage (y.cpuIn false)).prevWrittenRegIndex0 = 0#4)
    (hu : ¬ y.cpu.decode.multiStageDataExecute.UsesUnits) (hb : y.cpu.fetch.out.we = false) :
    Stalled a w (c - 1#5) (y.step order irq) := by
  have hpost := stalled_step_post order irq h hc hu hb
  rw [arch_regs_of_quiet h.latched hq] at hpost
  exact hpost

variable (order irq) in
/-- While only the next instruction is asked of the memory. -/
theorem sent_step_post (h : Sent a w st c y) (hc : 2 < c.toNat)
    (hu : ¬ y.cpu.decode.multiStageDataExecute.UsesUnits)
    (hf : (y.step order irq).cpu.fetch.out.we = false) :
    Sent { a with regs := y.arch.regs } w st (c - 1#5) (y.step order irq) := by
  have hd := step_decode_beyond order irq (y := y)
    (by rw [h.counter]; exact hc)
  refine ⟨stalled_step_post order irq h.toStalled hc hu h.bus, ?_, ?_, ?_, ?_, hf⟩
  · rw [hd]; exact h.state
  · rw [hd]; exact h.ireta
  · rw [hd]; exact h.idsta
  · rw [hd]; exact h.ie

/-- The same for an instruction that posts nothing. -/
theorem sent_step (h : Sent a w st c y) (hc : 2 < c.toNat)
    (hq : (y.cpu.executeStage (y.cpuIn false)).prevWrittenRegIndex0 = 0#4)
    (hu : ¬ y.cpu.decode.multiStageDataExecute.UsesUnits)
    (hf : (y.step order irq).cpu.fetch.out.we = false) :
    Sent a w st (c - 1#5) (y.step order irq) := by
  have hpost := sent_step_post order irq h hc hu hf
  rw [arch_regs_of_quiet h.latched hq] at hpost
  exact hpost

/-- The cycle at `stall_counter == 2` determines the result. -/
theorem fetching_of_stalled (h : Stalled a w 2#5 y) (hpc : y.cpu.fetchAtTwo.pc = b.pc)
    (hireta : (y.step order irq).cpu.decode.ireta = b.ireta)
    (hidsta : (y.step order irq).cpu.decode.idsta = b.idsta)
    (hie : (y.step order irq).cpu.decode.ie = b.ie)
    (hmem : (y.step order irq).ram.mem = b.mem)
    (hregs : (y.step order irq).arch.regs = b.regs) : Fetching b (y.step order irq) := by
  refine ⟨inv_step h.inv, ?_, ?_, hregs, hireta, hidsta, hie, hmem, ?_⟩
  · rw [step_decode_atTwo order irq h.counter, Frost32Cpu.decodeAtTwo_frame]
  · rw [step_fetch, Frost32Cpu.fetchStage_atTwo rfl h.counter, hpc]
  · exact Frost32Cpu.unitsIdle_step_of_counter h.units rfl (by simp [h.counter])
      (by simp [h.counter])

/-- Instructions of the other groups use neither unit. -/
theorem not_usesUnits_of_group (h : y.cpu.Latched a w) (h0 : Isa.group w ≠ 0#4)
    (h1 : Isa.group w ≠ 1#4) : ¬ y.cpu.decode.multiStageDataExecute.UsesUnits := by
  rw [h.latch, MultiStageData.usesUnits_ofWord]
  rintro (⟨hg, -⟩ | ⟨hg, -⟩)
  · exact h0 hg
  · exact h1 hg

/-! ### Branches and jumps -/

/-- Branches and jumps only change `pc`. -/
theorem exec_ctrlFlow_eq (hg : Isa.group w = 2#4 ∨ Isa.group w = 3#4) :
    Isa.exec bo w a = { a with pc := (Isa.exec bo w a).pc } := by
  rcases hg with hg | hg
  · simp only [Isa.exec, hg]
    split <;> rfl
  · simp only [Isa.exec, hg]
    split <;> rfl

section CtrlFlow

variable (hg : Isa.group w = 2#4 ∧ st = .stCtrlFlowBranch ∨
    Isa.group w = 3#4 ∧ st = .stCtrlFlowJumpCall)
  (hst : (instrDecoder w).causesStall = true)
include hg hst

private theorem ctrlFlow_quiet (h : y.cpu.Latched a w) :
    (y.cpu.executeStage (y.cpuIn false)).prevWrittenRegIndex0 = 0#4 := by
  have hg' : Isa.group w = 2#4 ∨ Isa.group w = 3#4 ∨ Isa.group w = 6#4 := by
    rcases hg with ⟨hg, -⟩ | ⟨hg, -⟩
    · exact Or.inl hg
    · exact Or.inr (Or.inl hg)
  rw [Frost32Cpu.quiet_of_stalling h rfl hg' hst]
  rfl

omit hst in
private theorem ctrlFlow_units (h : y.cpu.Latched a w) :
    ¬ y.cpu.decode.multiStageDataExecute.UsesUnits := by
  rcases hg with ⟨hg, -⟩ | ⟨hg, -⟩ <;>
    exact not_usesUnits_of_group h (by rw [hg]; decide) (by rw [hg]; decide)

variable (order irq) in
/-- `stall_counter == 3` latches the comparisons of the operands. -/
private theorem ctrlFlow_three (h : Sent a w st 3#5 y) :
    Sent a w st 2#5 (y.step order irq) ∧ (y.step order irq).cpu.CondsLatched := by
  have hf : (y.step order irq).cpu.fetch = y.cpu.latchConds := by
    rw [step_fetch, Frost32Cpu.fetchStage_atThree rfl h.counter]
    unfold Frost32Cpu.fetchAtThree
    rw [h.state]
    rcases hg with ⟨-, rfl⟩ | ⟨-, rfl⟩ <;> rfl
  have hs : Sent a w st 2#5 (y.step order irq) :=
    sent_step h (by decide) (ctrlFlow_quiet hg hst h.latched) (ctrlFlow_units hg h.latched)
      (by rw [hf]; exact h.bus)
  have hops : (y.step order irq).cpu.rfileData = y.cpu.rfileData := by
    rw [hs.latched.rfileData, h.latched.rfileData]
  refine ⟨hs, ?_⟩
  constructor
  · rw [hf, Frost32Cpu.compareLts, hops]; rfl
  · rw [hf, Frost32Cpu.compareGes, hops]; rfl
  · rw [hf, Frost32Cpu.compareLes, hops]; rfl
  · rw [hf, Frost32Cpu.compareGts, hops]; rfl

/-- `stall_counter == 2` loads the next instruction. -/
private theorem ctrlFlow_two (h : Sent a w st 2#5 y)
    (hsgn : (instrDecoder w).conditionType.isSigned = true → y.cpu.CondsLatched) :
    Leads order (Isa.exec bo w a) 2 y := by
  refine ⟨h.inStall (by decide), fun irq => Fetching.leads ?_⟩
  have hd : (y.step order irq).cpu.decode = { y.cpu.decode with stallCounter := 1#5 } := by
    rw [step_decode_atTwo order irq h.counter]
    unfold Frost32Cpu.decodeAtTwo
    rw [h.state]
    rcases hg with ⟨-, rfl⟩ | ⟨-, rfl⟩ <;> rfl
  have hl : (y.step order irq).cpu.Latched a w :=
    latched_step h.inv h.latched (by simp [h.counter]) (by simp [h.counter])
      (ctrlFlow_quiet hg hst h.latched)
  have hg' : Isa.group w = 2#4 ∨ Isa.group w = 3#4 := hg.imp And.left And.left
  refine fetching_of_stalled h.toStalled ?_ ?_ ?_ ?_ ?_ ?_
  · unfold Frost32Cpu.fetchAtTwo
    rw [h.state]
    rcases hg with ⟨hg, rfl⟩ | ⟨hg, rfl⟩
    · exact congrArg FetchRegs.pc (Frost32Cpu.fetchBranch_eq h.latched hg h.ie hsgn)
    · exact congrArg FetchRegs.pc (Frost32Cpu.fetchJumpCall_eq h.latched hg hsgn)
  all_goals rw [exec_ctrlFlow_eq hg']
  · rw [hd]; exact h.ireta
  · rw [hd]; exact h.idsta
  · rw [hd]; exact h.ie
  · exact (step_mem order irq h.bus).trans h.mem
  · show (y.step order irq).arch.regs = a.regs
    exact arch_regs_of_quiet hl (ctrlFlow_quiet hg hst hl)

end CtrlFlow

/-- **A branch.** -/
theorem branch_leads (hg : Isa.group w = 2#4) (hst : (instrDecoder w).causesStall = true)
    (h : Sent a w .stCtrlFlowBranch c y)
    (hc : c = if (instrDecoder w).conditionType.isSigned then 3#5 else 2#5) :
    Leads order (Isa.exec bo w a) c.toNat y := by
  cases hs : (instrDecoder w).conditionType.isSigned with
  | false =>
    obtain rfl : c = 2#5 := by rw [hc, hs]; rfl
    exact ctrlFlow_two (Or.inl ⟨hg, rfl⟩) hst h (fun he => absurd he (by simp [hs]))
  | true =>
    obtain rfl : c = 3#5 := by rw [hc, hs]; rfl
    refine ⟨h.inStall (by decide), fun irq => ?_⟩
    obtain ⟨h2, hl⟩ := ctrlFlow_three order irq (Or.inl ⟨hg, rfl⟩) hst h
    exact ctrlFlow_two (Or.inl ⟨hg, rfl⟩) hst h2 (fun _ => hl)

/-- **A jump.** -/
theorem jump_leads (hg : Isa.group w = 3#4) (hst : (instrDecoder w).causesStall = true)
    (h : Sent a w .stCtrlFlowJumpCall c y)
    (hc : c = if (instrDecoder w).conditionType.isSigned then 4#5 else 3#5) :
    Leads order (Isa.exec bo w a) c.toNat y := by
  have hthree : ∀ y, Sent a w .stCtrlFlowJumpCall 3#5 y → Leads order (Isa.exec bo w a) 3 y := by
    intro y h
    refine ⟨h.inStall (by decide), fun irq => ?_⟩
    obtain ⟨h2, hl⟩ := ctrlFlow_three order irq (Or.inr ⟨hg, rfl⟩) hst h
    exact ctrlFlow_two (Or.inr ⟨hg, rfl⟩) hst h2 (fun _ => hl)
  cases hs : (instrDecoder w).conditionType.isSigned with
  | false =>
    obtain rfl : c = 3#5 := by rw [hc, hs]; rfl
    exact hthree y h
  | true =>
    obtain rfl : c = 4#5 := by rw [hc, hs]; rfl
    refine ⟨by simp [h.counter], fun irq => hthree _ ?_⟩
    refine sent_step h (by decide) (ctrlFlow_quiet (Or.inr ⟨hg, rfl⟩) hst h.latched)
      (ctrlFlow_units (Or.inr ⟨hg, rfl⟩) h.latched) ?_
    rw [step_fetch, Frost32Cpu.fetchStage_beyond rfl (by rw [h.counter]; decide)]
    exact h.bus

/-! ### `ei`, `di`, the copies to `ireta` and `idsta`, `reti` -/

/-- The stalling opcodes of group 6. -/
private theorem interrupts_opcode (hg : Isa.group w = 6#4)
    (hst : (instrDecoder w).causesStall = true) :
    Isa.opcodeLow w = 0#4 ∨ Isa.opcodeLow w = 1#4 ∨ Isa.opcodeLow w = 2#4 ∨
      Isa.opcodeLow w = 4#4 ∨ Isa.opcodeLow w = 6#4 := by
  rw [instrDecoder_of_group6 hg] at hst
  simp only [Bool.or_eq_true, beq_iff_eq] at hst
  tauto

/-- The stall state of such an instruction. -/
def interruptsStallState (w : Word) : StallState :=
  if Isa.opcodeLow w = 6#4 then .stReti else .stOtherInterruptsStuff

variable (irq bo) in
/-- What these instructions do to the special registers and where they go on. -/
private theorem interrupts_atTwo (hg : Isa.group w = 6#4)
    (hst : (instrDecoder w).causesStall = true)
    (h : Sent a w (interruptsStallState w) 2#5 y) :
    let d := y.cpu.decodeAtTwo (y.cpuIn irq) { y.cpu.decode with stallCounter := 1#5 }
    Isa.exec bo w a = { a with pc := y.cpu.fetchAtTwo.pc
                               ireta := d.ireta
                               idsta := d.idsta
                               ie := d.ie } := by
  have hop : y.cpu.decode.multiStageDataExecute.instrOpcode = Isa.opcodeLow w := by
    rw [h.latched.opcode, instrDecoder_of_group6 hg]
  have hdec : (y.cpu.multiStageDataInstrDecode (y.cpuIn irq)).instrOpcode = Isa.opcodeLow w := by
    rw [Frost32Cpu.multiStageDataInstrDecode_eq, Frost32Cpu.inInstrDecoder,
      if_pos (Frost32Cpu.inStall_eq_true (by simp [h.counter])), h.latched.latch]
    show (instrDecoder w).opcode = _
    rw [instrDecoder_of_group6 hg]
  have hra : y.cpu.rfileData.ra = a.regs.val (Isa.fieldA w) := by
    rw [h.latched.rfileData, Frost32Cpu.operandsOf, instrDecoder_of_group6 hg]
  by_cases h6 : Isa.opcodeLow w = 6#4
  · have hs : y.cpu.decode.stallState = .stReti := by rw [h.state, interruptsStallState, if_pos h6]
    -- what each operation of group 6 does to the special registers
    unfold Frost32Cpu.decodeAtTwo Frost32Cpu.fetchAtTwo
    rw [hs]
    simp only [Isa.exec, hg, Isa.execInterrupts, h6]
    show _ = Arch.mk _ y.cpu.decode.ireta y.cpu.decode.ireta y.cpu.decode.idsta true _
    rw [h.ireta, h.idsta]
  · have hs : y.cpu.decode.stallState = .stOtherInterruptsStuff := by
      rw [h.state, interruptsStallState, if_neg h6]
    have hpc : y.cpu.fetchAtTwo.pc = a.pc + 4 := by
      unfold Frost32Cpu.fetchAtTwo
      rw [hs]
      exact h.latched.following
    dsimp only
    rw [Frost32Cpu.decodeAtTwo_otherInterruptsStuff hs, hop, hdec, hra, hpc]
    simp only [Isa.exec, hg, Isa.execInterrupts]
    rcases interrupts_opcode hg hst with ho | ho | ho | ho | ho
    case inr.inr.inr.inr => exact absurd ho h6
    all_goals
      rw [ho]
      simp [h.ireta, h.idsta, h.ie, Isa.Arch.next]

/-- **`ei`, `di`, `cpy ireta, rA`, `cpy idsta, rA` and `reti`.** -/
theorem interrupts_leads (hg : Isa.group w = 6#4) (hst : (instrDecoder w).causesStall = true)
    (h : Sent a w (interruptsStallState w) 2#5 y) : Leads order (Isa.exec bo w a) 2 y := by
  refine ⟨h.inStall (by decide), fun irq => Fetching.leads ?_⟩
  have hquiet : ∀ y : System, y.cpu.Latched a w →
      (y.cpu.executeStage (y.cpuIn false)).prevWrittenRegIndex0 = 0#4 := by
    intro y hl
    rw [Frost32Cpu.quiet_of_stalling hl rfl (Or.inr (Or.inr hg)) hst]
    rfl
  have hl : (y.step order irq).cpu.Latched a w :=
    latched_step h.inv h.latched (by simp [h.counter]) (by simp [h.counter]) (hquiet y h.latched)
  have hd := step_decode_atTwo order irq h.counter
  have hx := interrupts_atTwo irq bo hg hst h
  refine fetching_of_stalled h.toStalled ?_ ?_ ?_ ?_ ?_ ?_
  all_goals rw [hx]
  · rw [hd]
  · rw [hd]
  · rw [hd]
  · exact (step_mem order irq h.bus).trans h.mem
  · show (y.step order irq).arch.regs = a.regs
    exact arch_regs_of_quiet hl (hquiet _ hl)

/-! ### Loads and stores -/

section MemAccess

variable (hg : Isa.group w = 5#4)
include hg

variable (order irq) in
/-- `stall_counter == 3` puts the access on the bus. -/
private theorem memAccess_three (h : Sent a w .stMemAccess 3#5 y) :
    Stalled a w 2#5 (y.step order irq) ∧
      (y.step order irq).cpu.decode = { y.cpu.decode with stallCounter := 2#5 } ∧
      (y.step order irq).cpu.fetch = y.cpu.fetchMemAccess := by
  refine ⟨?_, ?_, ?_⟩
  · exact stalled_step h.toStalled (by decide)
      (Frost32Cpu.quiet_of_memAccess h.latched rfl hg (by simp [h.counter]))
      (not_usesUnits_of_group h.latched (by rw [hg]; decide) (by rw [hg]; decide)) h.bus
  · rw [step_decode_beyond order irq (by rw [h.counter]; decide), h.counter]
    rfl
  · rw [step_fetch, Frost32Cpu.fetchStage_atThree rfl h.counter]
    unfold Frost32Cpu.fetchAtThree
    rw [h.state]

variable (order irq) in
/-- `stall_counter == 2` goes back to the next instruction. -/
private theorem memAccess_two (h : Stalled a w 2#5 y)
    (hs : y.cpu.decode.stallState = .stMemAccess) :
    (y.step order irq).cpu.Latched a w ∧
      (y.step order irq).cpu.decode = { y.cpu.decode with stallCounter := 1#5 } ∧
      y.cpu.fetchAtTwo.pc = a.pc + 4 := by
  refine ⟨?_, ?_, ?_⟩
  · exact latched_step h.inv h.latched (by simp [h.counter]) (by simp [h.counter])
      (Frost32Cpu.quiet_of_memAccess h.latched rfl hg (by simp [h.counter]))
  · rw [step_decode_atTwo order irq h.counter]
    unfold Frost32Cpu.decodeAtTwo
    rw [hs]
  · unfold Frost32Cpu.fetchAtTwo
    rw [hs]
    exact h.latched.following

/-- What a load or store does: a store of any size writes the whole word its address lies in,
    and a load of any size reads the low end of that word. -/
def ldstOutcome (w : Word) (a : Arch) : Arch :=
  let addr := a.ldstAddress w
  match (instrDecoder w).ldstType.loaded (a.mem (Isa.wordIndex addr)) with
  | some v => a.writeA w v
  | none => { a.next with
      mem := Function.update a.mem (Isa.wordIndex addr) (a.regs.val (Isa.fieldA w)) }

/-- **A load or store of any size.** -/
theorem memAccess_leads (h : Sent a w .stMemAccess 3#5 y) :
    Leads order (ldstOutcome w a) 3 y := by
  refine ⟨h.inStall (by decide), fun irq => ?_⟩
  obtain ⟨h2, hd2, hf2⟩ := memAccess_three order irq hg h
  have hd := instrDecoder_of_group5 hg
  have haddr : (y.step order irq).cpu.fetch.out.addr = a.ldstAddress w := by
    rw [hf2, Frost32Cpu.fetchMemAccess_addr, Frost32Cpu.ldstAddress_eq h.latched hg]
  have hwe : (y.step order irq).cpu.fetch.out.we = (instrDecoder w).ldstType.isStore := by
    rw [hf2, Frost32Cpu.fetchMemAccess_we, h.latched.ldstType]
  refine ⟨h2.inStall (by decide), fun irq' => Fetching.leads ?_⟩
  obtain ⟨hl, hd1, hpc⟩ := memAccess_two order irq' hg h2 (by rw [hd2]; exact h.state)
  -- the last cycle posts the value of the word the access has found
  have hout : ((y.step order irq).step order irq').ram.outData
      = a.mem (Isa.wordIndex (a.ldstAddress w)) := by
    rw [← h2.mem, ← haddr]
    rfl
  have hregs := Frost32Cpu.settledRegs_memAccess
    (i := ((y.step order irq).step order irq').cpuIn false) hl rfl hg (by rw [hd1])
  rw [cpuIn_data, hout] at hregs
  cases hv : (instrDecoder w).ldstType.loaded (a.mem (Isa.wordIndex (a.ldstAddress w))) with
  | some v =>
    have hx : ldstOutcome w a = a.writeA w v := by
      unfold ldstOutcome
      dsimp only
      rw [hv]
    have hload : (instrDecoder w).ldstType.isStore = false := by
      rw [← Bool.not_eq_true, ← LdstType.loaded_eq_none_iff, hv]
      simp
    rw [hv] at hregs
    rw [hx]
    refine fetching_of_stalled h2 hpc ?_ ?_ ?_ ?_ hregs
    · rw [hd1, hd2]; exact h.ireta
    · rw [hd1, hd2]; exact h.idsta
    · rw [hd1, hd2]; exact h.ie
    · rw [step_ram]
      unfold SinglePortRam.step
      rw [hwe, hload]
      exact h2.mem
  | none =>
    have hx : ldstOutcome w a = { a.next with
        mem := Function.update a.mem (Isa.wordIndex (a.ldstAddress w))
          (a.regs.val (Isa.fieldA w)) } := by
      unfold ldstOutcome
      dsimp only
      rw [hv]
    have hstore := ((instrDecoder w).ldstType.loaded_eq_none_iff _).mp hv
    have hdata : (y.step order irq).cpu.fetch.out.data = a.regs.val (Isa.fieldA w) := by
      rw [hf2, Frost32Cpu.fetchMemAccess_data (by rw [h.latched.ldstType]; exact hstore),
        h.latched.rfileData, Frost32Cpu.operandsOf, hd]
    rw [hv] at hregs
    rw [hx]
    refine fetching_of_stalled h2 hpc ?_ ?_ ?_ ?_ hregs
    · rw [hd1, hd2]; exact h.ireta
    · rw [hd1, hd2]; exact h.idsta
    · rw [hd1, hd2]; exact h.ie
    · rw [step_ram]
      unfold SinglePortRam.step
      rw [hwe, hstore, haddr, hdata, h2.mem]
      rfl

/-- **A 32-bit load.** -/
theorem load_leads (hk : (Isa.opcodeLow w).extractLsb' 0 3 = 0#3)
    (h : Sent a w .stMemAccess 3#5 y) : Leads order (Isa.exec bo w a) 3 y := by
  have hx : Isa.exec bo w a = ldstOutcome w a := by
    unfold ldstOutcome
    rw [instrDecoder_of_group5 hg]
    simp only [Isa.exec, hg, Isa.execLdst, hk]
    rfl
  rw [hx]
  exact memAccess_leads hg h

/-- **A 32-bit store.** -/
theorem store_leads (hk : (Isa.opcodeLow w).extractLsb' 0 3 = 5#3)
    (h : Sent a w .stMemAccess 3#5 y) : Leads order (Isa.exec bo w a) 3 y := by
  have hx : Isa.exec bo w a = ldstOutcome w a := by
    unfold ldstOutcome
    rw [instrDecoder_of_group5 hg]
    simp only [Isa.exec, hg, Isa.execLdst, hk]
    rfl
  rw [hx]
  exact memAccess_leads hg h

end MemAccess

/-! ### Stalls without an instruction -/

/-- With a bubble in the execute stage `stall_counter == 2` only steers `pc` and the special
    registers. -/
theorem fetching_of_bubble (hi : y.Inv) (hc : y.cpu.decode.stallCounter = 2#5)
    (hb : y.cpu.decode.multiStageDataExecute = y.cpu.decode.multiStageDataExecute.makeBubble)
    (hu : y.cpu.UnitsIdle) (hbus : y.cpu.fetch.out.we = false)
    (hpc : y.cpu.fetchAtTwo.pc = b.pc)
    (hireta : (y.step order irq).cpu.decode.ireta = b.ireta)
    (hidsta : (y.step order irq).cpu.decode.idsta = b.idsta)
    (hie : (y.step order irq).cpu.decode.ie = b.ie)
    (hmem : y.ram.mem = b.mem) (hregs : y.arch.regs = b.regs) :
    Fetching b (y.step order irq) := by
  have hd := step_decode_atTwo order irq hc
  have hlat : (y.step order irq).cpu.decode.multiStageDataExecute
      = y.cpu.decode.multiStageDataExecute := by
    rw [hd, Frost32Cpu.decodeAtTwo_frame]
  refine ⟨inv_step hi, ?_, ?_, ?_, hireta, hidsta, hie, ?_, ?_⟩
  · rw [hd, Frost32Cpu.decodeAtTwo_frame]
  · rw [step_fetch, Frost32Cpu.fetchStage_atTwo rfl hc, hpc]
  · rw [arch_regs_of_bubble (by rw [hlat]; exact hb), liveRegs_step hi, hregs]
  · exact (step_mem order irq hbus).trans hmem
  · exact Frost32Cpu.unitsIdle_step_of_counter hu rfl (by simp [hc]) (by simp [hc])

/-- **An interrupt is taken between two instructions.** -/
theorem accept_leads (h : Decoding a y) (hirq : (irq && a.ie) = true) :
    Leads order (Isa.enterInterrupt a) 2 (y.step order irq) := by
  have hs : y.cpu.shouldServiceInterruptIfNotInStall (y.cpuIn irq) = true := by
    rw [shouldService_eq]
    rw [← h.arch] at hirq
    exact hirq
  have hd : (y.step order irq).cpu.decode = y.cpu.respondToInterrupt := by
    rw [step_decode, Frost32Cpu.decodeStage_accept rfl h.counter hs]
  have hf : (y.step order irq).cpu.fetch = y.cpu.fetch := by
    rw [step_fetch, Frost32Cpu.fetchStage_accept rfl h.counter hs]
  -- the response leaves a bubble, which has no effect
  have hb : (y.step order irq).cpu.decode.multiStageDataExecute
      = (y.step order irq).cpu.decode.multiStageDataExecute.makeBubble := by rw [hd]; rfl
  have hregs : (y.step order irq).arch.regs = a.regs := by
    rw [arch_regs_of_bubble hb, liveRegs_step h.inv, h.arch]
  have hmem : (y.step order irq).ram.mem = a.mem := by
    rw [step_ram_read order irq (h.inv.atZero h.counter).1, ← h.arch]
    rfl
  have hu : (y.step order irq).cpu.UnitsIdle :=
    Frost32Cpu.unitsIdle_step h.units rfl
      (MultiStageData.not_usesUnits_of_nonstalling h.inv.latch (h.inv.settled h.counter))
  refine ⟨?_, fun irq' => Fetching.leads ?_⟩
  · rw [hd]
    exact (show ¬ stallCounterRespondToInterrupts = _ by decide)
  · have hc2 : (y.step order irq).cpu.decode.stallCounter = 2#5 := by rw [hd]; rfl
    have hd2 : ((y.step order irq).step order irq').cpu.decode =
        { y.cpu.respondToInterrupt with stallCounter := 1#5, ie := false } := by
      rw [step_decode_atTwo order irq' hc2]
      unfold Frost32Cpu.decodeAtTwo
      rw [hd]
      rfl
    refine fetching_of_bubble (inv_step h.inv) hc2 hb hu
      (by rw [hf, (h.inv.atZero h.counter).1]; rfl) ?_ ?_ ?_ ?_ hmem hregs
    · unfold Frost32Cpu.fetchAtTwo
      rw [hd, ← h.arch]
      rfl
    · rw [hd2, ← h.arch]; rfl
    · rw [hd2, ← h.arch]; rfl
    · rw [hd2]; rfl

end System

end Frost32.Hdl
