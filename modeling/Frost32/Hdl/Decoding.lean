import Frost32.Hdl.Completion
import Frost32.Hdl.ArithlogCorrect

namespace Frost32.Hdl

open Isa (Regs Arch)

/-!
# The system as an instruction set machine

`System.arch` reads a state of the instruction set machine off a state of the system:
`pc_val`, the special registers, the memory, and the registers as they stand once the
instruction in the execute stage has completed.

* `UnitsIdle` — the multiplier and the divider wait for a command; instructions that do not
  use them keep them so.
* `Decoding b` — `stall_counter == 0` with the machine in state `b`.
* `Fetching b` — the last cycle of a stall, with the result `b` already determined;
  `fetching_step` leads from there to `Decoding b`.
* `decoding_send` — **an instruction that does not stall takes one cycle.**
* `Sent a w` — the stalling instruction `w` of the state `a` is in the execute stage;
  `sent_of_decoding` leads there.
-/

/-! ### The multiplier and the divider between instructions -/

/-- The latched instruction gives the multiplier or the divider a command. -/
def MultiStageData.UsesUnits (m : MultiStageData) : Prop :=
  (m.instrGroup = 0#4 ∧ (m.instrOpcode = 6#4 ∨ m.instrOpcode = 14#4 ∨ m.instrOpcode = 15#4)) ∨
    (m.instrGroup = 1#4 ∧ m.instrOpcode = 6#4)

namespace Frost32Cpu

variable {i : PortInFrost32Cpu} {s : Frost32Cpu} {order : BlockOrder} {a : Arch} {w : Word}

/-- Both units are ready for a command and none is given. -/
structure UnitsIdle (s : Frost32Cpu) : Prop where
  mulLow : s.execute.inMul32.enable = false
  mulIdle : s.mul32.canAcceptCmd = true
  divLow : s.execute.inDiv32.enable = false
  divIdle : s.div32.Idle

/-- Other instructions leave the command ports alone. -/
theorem executeStage_ports (hw : i.waitForMem = false)
    (h : ¬ s.decode.multiStageDataExecute.UsesUnits) :
    (s.executeStage i).inMul32 = s.execute.inMul32 ∧
      (s.executeStage i).inDiv32 = s.execute.inDiv32 := by
  unfold executeStage
  rw [if_neg (by simp [hw])]
  -- group by group
  split
  · rename_i hg
    rw [executeThreeRegs_eq]
    have h6 : s.decode.multiStageDataExecute.instrOpcode ≠ 6#4 :=
      fun he => h (Or.inl ⟨hg, Or.inl he⟩)
    have h14 : s.decode.multiStageDataExecute.instrOpcode ≠ 14#4 :=
      fun he => h (Or.inl ⟨hg, Or.inr (Or.inl he)⟩)
    have h15 : s.decode.multiStageDataExecute.instrOpcode ≠ 15#4 :=
      fun he => h (Or.inl ⟨hg, Or.inr (Or.inr he)⟩)
    rw [if_neg h6, if_neg h14, if_neg h15]
    exact ⟨rfl, rfl⟩
  · rename_i hg
    rw [executeImmediates_eq]
    have h6 : s.decode.multiStageDataExecute.instrOpcode ≠ 6#4 :=
      fun he => h (Or.inr ⟨hg, he⟩)
    rw [if_neg h6]
    split
    · exact ⟨rfl, rfl⟩
    · split <;> exact ⟨rfl, rfl⟩
  · exact ⟨rfl, rfl⟩
  · exact ⟨rfl, rfl⟩
  · unfold executeCalls
    split <;> exact ⟨rfl, rfl⟩
  · unfold executeLoadsStores
    split
    · split <;> exact ⟨rfl, rfl⟩
    · exact ⟨rfl, rfl⟩
  · rw [executeInterruptsStuff_eq]
    split
    · exact ⟨rfl, rfl⟩
    · split <;> exact ⟨rfl, rfl⟩
  · exact ⟨rfl, rfl⟩

/-- Commands are only given in the first cycle of a stall. -/
theorem executeStage_low (hw : i.waitForMem = false) (h5 : s.decode.stallCounter ≠ 5#5)
    (h23 : s.decode.stallCounter ≠ 23#5) (hm : s.execute.inMul32.enable = false)
    (hd : s.execute.inDiv32.enable = false) :
    (s.executeStage i).inMul32.enable = false ∧ (s.executeStage i).inDiv32.enable = false := by
  by_cases hu : s.decode.multiStageDataExecute.UsesUnits
  · rcases hu with ⟨hg, hop⟩ | ⟨hg, hop⟩
    · rw [executeStage_group0 hw hg, executeThreeRegs_eq]
      rcases hop with hop | hop | hop <;> rw [hop]
      · rw [if_pos rfl, ctrlMultiply32_low h5]; exact ⟨rfl, hd⟩
      · rw [if_neg (by decide), if_pos rfl, ctrlDivide32_low h23]; exact ⟨hm, rfl⟩
      · rw [if_neg (by decide), if_neg (by decide), if_pos rfl, ctrlDivide32_low h23]
        exact ⟨hm, rfl⟩
    · rw [executeStage_group1 hw hg, executeImmediates_eq, hop, if_neg (by decide),
        if_neg (by decide), if_pos rfl, ctrlMultiply32_low h5]
      exact ⟨rfl, hd⟩
  · obtain ⟨hm', hd'⟩ := executeStage_ports hw hu
    rw [hm', hd']
    exact ⟨hm, hd⟩

/-- Idle units stay idle past the first cycle of a stall, and for other instructions. -/
theorem unitsIdle_step_of_counter (h : s.UnitsIdle) (hw : i.waitForMem = false)
    (h5 : s.decode.stallCounter ≠ 5#5) (h23 : s.decode.stallCounter ≠ 23#5) :
    (s.step i order).UnitsIdle := by
  obtain ⟨hm, hd⟩ := executeStage_low hw h5 h23 h.mulLow h.divLow
  refine ⟨hm, ?_, hd, ?_⟩
  · rw [step_mul32, Multiplier32.step_idle h.mulLow h.mulIdle]; exact h.mulIdle
  · rw [step_div32]; exact NonRestoringDivider.idle_step h.divIdle h.divLow

theorem unitsIdle_step (h : s.UnitsIdle) (hw : i.waitForMem = false)
    (hu : ¬ s.decode.multiStageDataExecute.UsesUnits) : (s.step i order).UnitsIdle := by
  obtain ⟨hm, hd⟩ := executeStage_ports hw hu
  refine ⟨?_, ?_, ?_, ?_⟩
  · rw [step_execute, hm]; exact h.mulLow
  · rw [step_mul32, Multiplier32.step_idle h.mulLow h.mulIdle]; exact h.mulIdle
  · rw [step_execute, hd]; exact h.divLow
  · rw [step_div32]; exact NonRestoringDivider.idle_step h.divIdle h.divLow

end Frost32Cpu

/-- The instructions that use a unit, by their fields. -/
theorem MultiStageData.usesUnits_ofWord (w pc : Word) :
    (MultiStageData.ofWord w pc).UsesUnits ↔
      (Isa.group w = 0#4 ∧
        (Isa.opcodeLow w = 6#4 ∨ Isa.opcodeLow w = 14#4 ∨ Isa.opcodeLow w = 15#4)) ∨
      (Isa.group w = 1#4 ∧ Isa.opcodeHigh w = 6#4) := by
  unfold UsesUnits ofWord
  dsimp only
  rcases group_cases w with hg | hg | hg | hg | hg | hg | hg | hg
  · rw [instrDecoder_of_group0 hg]; simp [hg]
  · rw [instrDecoder_of_group1 hg]; simp [hg]
  · rw [instrDecoder_of_group2 hg]; simp [hg]
  · rw [instrDecoder_of_group3 hg]; simp [hg]
  · rw [instrDecoder_of_group4 hg]; simp [hg]
  · rw [instrDecoder_of_group5 hg]; simp [hg]
  · rw [instrDecoder_of_group6 hg]; simp [hg]
  · rw [instrDecoder_of_undefined hg]
    have hne : ∀ g : BitVec 4, g.toNat < 7 → Isa.group w ≠ g := by
      intro g hlt he
      rw [he] at hg
      omega
    simp [hne 0#4 (by decide), hne 1#4 (by decide)]

/-- An instruction that does not stall uses neither unit. -/
theorem MultiStageData.not_usesUnits_of_nonstalling {m : MultiStageData} (h : m.LatchOk)
    (hst : m.instrCausesStall = false) : ¬ m.UsesUnits := by
  rcases h with hb | hd
  · -- a bubble has the opcode of `add`
    rw [hb]
    rintro (⟨-, h⟩ | ⟨-, h⟩)
    · rcases h with h | h | h <;> exact absurd h (show ¬ (0#4 = _) by decide)
    · exact absurd h (show ¬ (0#4 = _) by decide)
  · rw [hd] at hst ⊢
    rw [usesUnits_ofWord]
    rintro (⟨hg, hop⟩ | ⟨hg, hop⟩)
    · have hst' : (instrDecoder m.rawInstruction).causesStall = false := hst
      rw [instrDecoder_of_group0 hg] at hst'
      rcases hop with hop | hop | hop <;> simp [hop] at hst'
    · have hst' : (instrDecoder m.rawInstruction).causesStall = false := hst
      rw [instrDecoder_of_group1 hg] at hst'
      simp [hop] at hst'

namespace System

variable {order : BlockOrder} {irq : Bool} {y : System} {bo : Isa.ByteOrder}
  {a b : Arch} {w : Word} {c : BitVec 5}

/-! ### The abstraction -/

/-- The state of the instruction set machine. -/
def arch (y : System) : Arch where
  regs := y.cpu.settledRegs (y.cpuIn false)
  pc := y.cpu.fetch.pcVal
  ireta := y.cpu.decode.ireta
  idsta := y.cpu.decode.idsta
  ie := y.cpu.decode.ie
  mem := y.ram.mem

/-- After an edge the live registers are those the edge settled. -/
theorem liveRegs_step (h : y.Inv) : (y.step order irq).cpu.liveRegs = y.arch.regs := by
  rw [step_cpu, Frost32Cpu.liveRegs_step h.writePort rfl]
  rfl

/-! ### Decoding and the last cycle of a stall -/

/-- Out of a stall, with the machine in state `b`. -/
structure Decoding (b : Arch) (y : System) : Prop where
  inv : y.Inv
  counter : y.cpu.decode.stallCounter = 0#5
  arch : y.arch = b
  units : y.cpu.UnitsIdle

/-- In the last cycle of a stall, with the result `b` determined. -/
structure Fetching (b : Arch) (y : System) : Prop where
  inv : y.Inv
  counter : y.cpu.decode.stallCounter = 1#5
  pc : y.cpu.fetch.pc = b.pc
  regs : y.arch.regs = b.regs
  ireta : y.cpu.decode.ireta = b.ireta
  idsta : y.cpu.decode.idsta = b.idsta
  ie : y.cpu.decode.ie = b.ie
  mem : y.ram.mem = b.mem
  units : y.cpu.UnitsIdle

/-- A bubble in the execute latch changes no register. -/
theorem arch_regs_of_bubble
    (h : y.cpu.decode.multiStageDataExecute = y.cpu.decode.multiStageDataExecute.makeBubble) :
    y.arch.regs = y.cpu.liveRegs := by
  refine Frost32Cpu.settledRegs_of_quiet ?_
  rw [Frost32Cpu.executeStage_group0 rfl (by rw [h]; rfl), Frost32Cpu.executeThreeRegs_eq]
  rw [if_neg (by rw [h]; exact (show ¬ (0#4 = _) by decide)),
    if_neg (by rw [h]; exact (show ¬ (0#4 = _) by decide)),
    if_neg (by rw [h]; exact (show ¬ (0#4 = _) by decide))]
  show y.cpu.decode.multiStageDataExecute.instrRaIndex = 0#4
  rw [h]
  rfl

/-- **The next instruction is decoded in the state a stall has determined.** -/
theorem fetching_step (h : Fetching b y) : Decoding b (y.step order irq) := by
  have hd : (y.step order irq).cpu.decode =
      { y.cpu.decode with
        stallCounter := 0#5
        multiStageDataExecute := y.cpu.decode.multiStageDataExecute.makeBubble } := by
    rw [step_decode, Frost32Cpu.decodeStage_inStall rfl (by simp [h.counter]),
      Frost32Cpu.decodeInStall_atOne h.counter]
  have hf : (y.step order irq).cpu.fetch = y.cpu.fetch.prepLoadFollowingInstruction := by
    rw [step_fetch, Frost32Cpu.fetchStage_atOne rfl h.counter]
  have hregs : (y.step order irq).arch.regs = b.regs := by
    rw [arch_regs_of_bubble (by rw [hd]; rfl), liveRegs_step h.inv, h.regs]
  have hmem : (y.step order irq).ram.mem = b.mem := by
    rw [step_ram_read order irq (h.inv.atOne h.counter)]
    exact h.mem
  refine ⟨inv_step h.inv, by rw [hd], ?_, ?_⟩
  · show Arch.mk (y.step order irq).arch.regs _ _ _ _ _ = b
    rw [hregs, hmem, hd, hf]
    show Arch.mk b.regs y.cpu.fetch.pc y.cpu.decode.ireta y.cpu.decode.idsta y.cpu.decode.ie
      b.mem = b
    rw [h.pc, h.ireta, h.idsta, h.ie]
  · exact Frost32Cpu.unitsIdle_step_of_counter h.units rfl (by simp [h.counter])
      (by simp [h.counter])

/-! ### After an instruction has been sent -/

/-- The stalling instruction `w` of the state `a` is in the execute stage, with `c` cycles
    of its stall to go. -/
structure Stalled (a : Arch) (w : Word) (c : BitVec 5) (y : System) : Prop where
  inv : y.Inv
  latched : y.cpu.Latched a w
  counter : y.cpu.decode.stallCounter = c
  mem : y.ram.mem = a.mem
  units : y.cpu.UnitsIdle

/-- … and nothing but the fetch of the next instruction has been asked of the memory, nor
    has a special register been written. -/
structure Sent (a : Arch) (w : Word) (st : StallState) (c : BitVec 5) (y : System) : Prop
    extends Stalled a w c y where
  state : y.cpu.decode.stallState = st
  ireta : y.cpu.decode.ireta = a.ireta
  idsta : y.cpu.decode.idsta = a.idsta
  ie : y.cpu.decode.ie = a.ie
  bus : y.cpu.fetch.out.we = false

theorem shouldService_eq (irq : Bool) :
    y.cpu.shouldServiceInterruptIfNotInStall (y.cpuIn irq) = (irq && y.cpu.decode.ie) := by
  unfold Frost32Cpu.shouldServiceInterruptIfNotInStall
  cases y.cpu.decode.ie <;> cases irq <;> rfl

variable (irq) in
/-- The instruction at the decode stage, out of a stall. -/
theorem decode_word (h : Decoding a y) :
    y.cpu.multiStageDataInstrDecode (y.cpuIn irq) = .ofWord a.fetched a.pc := by
  rw [Frost32Cpu.multiStageDataInstrDecode_eq, Frost32Cpu.inInstrDecoder,
    if_neg (by simp [Frost32Cpu.inStall, h.counter]), cpuIn_data, h.inv.word h.counter]
  rw [← h.arch]
  rfl

section Sending

variable (h : Decoding a y) (hirq : (irq && a.ie) = false)
include h hirq

variable (order) in
private theorem send_decode :
    (y.step order irq).cpu.decode = y.cpu.sendInstrThrough (y.cpuIn irq) := by
  rw [step_decode, Frost32Cpu.decodeStage_send rfl h.counter]
  rw [shouldService_eq]
  rw [← h.arch] at hirq
  exact hirq

variable (order) in
/-- The instruction sent is latched, with the live registers of its state. -/
private theorem send_latched : (y.step order irq).cpu.Latched a a.fetched := by
  have hd := send_decode order h hirq
  refine ⟨?_, (inv_step h.inv).reads, ?_, ?_, ?_⟩
  · rw [hd, Frost32Cpu.sendInstrThrough, decode_word irq h]
  · rw [liveRegs_step h.inv, h.arch]
  · rw [hd, ← h.arch]; rfl
  · rw [hd, ← h.arch]; rfl

omit hirq in
private theorem send_units : (y.step order irq).cpu.UnitsIdle :=
  Frost32Cpu.unitsIdle_step h.units rfl
    (MultiStageData.not_usesUnits_of_nonstalling h.inv.latch (h.inv.settled h.counter))

variable (order irq) in
omit hirq in
private theorem send_mem : (y.step order irq).ram.mem = a.mem := by
  rw [step_ram_read order irq (h.inv.atZero h.counter).1, ← h.arch]
  rfl

/-- **An instruction that does not stall takes one cycle.** -/
theorem decoding_send (hst : (instrDecoder a.fetched).causesStall = false) :
    Decoding (Isa.exec bo a.fetched a) (y.step order irq) := by
  have hd := send_decode order h hirq
  have hf : (y.step order irq).cpu.fetch
      = y.cpu.fetch.prepLoadInstruction (y.cpu.fetch.pc + 4) := by
    rw [step_fetch, Frost32Cpu.fetchStage_send rfl h.counter]
    · rw [shouldService_eq]
      rw [← h.arch] at hirq
      exact hirq
    · rw [decode_word irq h]; exact hst
  have hlat := send_latched order h hirq
  have hmem := send_mem order irq h
  refine ⟨inv_step h.inv, ?_, ?_, send_units h⟩
  · rw [hd, Frost32Cpu.sendInstrThrough, decode_word irq h]
    show (if (instrDecoder a.fetched).causesStall then _ else _) = _
    rw [hst]
    exact h.counter
  · rw [Frost32Cpu.exec_of_nonstalling hlat (i := (y.step order irq).cpuIn false) rfl hst]
    show Arch.mk (y.step order irq).arch.regs _ _ _ _ _ = _
    rw [hmem, hd, hf]
    show Arch.mk _ y.cpu.fetch.pc y.cpu.decode.ireta y.cpu.decode.idsta y.cpu.decode.ie a.mem = _
    rw [(h.inv.atZero h.counter).2, ← h.arch]
    rfl

variable (order) in
/-- **An instruction that stalls is in the execute stage one cycle later.** -/
theorem sent_of_decoding (hst : (instrDecoder a.fetched).causesStall = true) :
    Sent a a.fetched ((MultiStageData.ofWord a.fetched a.pc).nextStallState
        y.cpu.decode.stallState)
      (MultiStageData.ofWord a.fetched a.pc).nextStallCounter (y.step order irq) := by
  have hd := send_decode order h hirq
  have hcs : (MultiStageData.ofWord a.fetched a.pc).instrCausesStall = true := hst
  have hf : (y.step order irq).cpu.fetch = y.cpu.fetch := by
    rw [step_fetch, Frost32Cpu.fetchStage_send_stall rfl h.counter]
    · rw [shouldService_eq]
      rw [← h.arch] at hirq
      exact hirq
    · rw [decode_word irq h]; exact hst
  refine ⟨⟨inv_step h.inv, send_latched order h hirq, ?_, send_mem order irq h, send_units h⟩,
    ?_, ?_, ?_, ?_, ?_⟩
  · rw [hd, Frost32Cpu.sendInstrThrough, decode_word irq h]
    exact if_pos hcs
  · rw [hd, Frost32Cpu.sendInstrThrough, decode_word irq h]
    exact if_pos hcs
  · rw [hd, ← h.arch]; rfl
  · rw [hd, ← h.arch]; rfl
  · rw [hd, ← h.arch]; rfl
  · rw [hf, (h.inv.atZero h.counter).1]; rfl

end Sending

end System

end Frost32.Hdl
