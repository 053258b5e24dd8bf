import Frost32.Lib.Pacing
import Frost32.Hdl.CallRuns
import Frost32.Hdl.Interrupts

namespace Frost32.Hdl

open Isa (Arch)

/-!
# Cycles

How long the CPU takes, to the cycle.

* `cyclesOf` — the cycles of an instruction, by its group and opcode; `cyclesOf_eq`: it is the
  stall that the decode stage starts, and one more.
* `next_decode` — **the next instruction is decoded after these cycles**, whatever the CPU
  holds.
* `Determined`, `archStep` — the instructions whose outcome depends on the state of the machine
  alone, and their outcome; `Faithful` — those with their documented effect.
* `cycle_exact` — **the CPU is in step with the instruction set machine with a clock.**
* `powerUp_irrelevant` — **what the registers hold at power-up makes no difference.**
* `interrupt_latency` — **how long an interrupt waits for its handler.**
-/

/-! ### The cycles of an instruction -/

/-- `mul`, `udiv` and `sdiv` wait for their unit. -/
def aluCycles (op : BitVec 4) : Nat :=
  if op = 6#4 then 6 else if op = 14#4 ∨ op = 15#4 then 24 else 1

/-- A comparison of jumps, calls and branches is signed from opcode 6 on, and the opcodes from
    10 on are undefined. -/
def condCycles (unsigned : Nat) (op : BitVec 4) : Nat :=
  if op.ult 6#4 then unsigned else if op.ult 10#4 then unsigned + 1 else 1

/-- The branches on `ie` compare nothing. -/
def branchCycles (op : BitVec 4) : Nat := if op = 10#4 ∨ op = 11#4 then 3 else condCycles 3 op

/-- Copies from `ireta` and `idsta` do not stall. -/
def interruptsCycles (op : BitVec 4) : Nat := if op ∈ [0#4, 1#4, 2#4, 4#4, 6#4] then 3 else 1

/-- The cycles from an instruction in decode to the next one. -/
def cyclesOf (w : Word) : Nat :=
  match Isa.group w with
  | 0#4 => aluCycles (Isa.opcodeLow w)
  | 1#4 => if Isa.opcodeHigh w = 6#4 then 6 else 1
  | 2#4 => branchCycles (Isa.opcodeHigh w)
  | 3#4 | 4#4 => condCycles 4 (Isa.opcodeLow w)
  | 5#4 => 4
  | 6#4 => interruptsCycles (Isa.opcodeLow w)
  | _ => 1

/-- The cycles of one step, in which an interrupt may be accepted instead. -/
def stepCycles (irq : Bool) (a : Arch) : Nat := if irq && a.ie then 3 else cyclesOf a.fetched

/-- The cycles of an instruction whose stall is this one. -/
def stallCycles (causesStall : Bool) (counter : BitVec 5) : Nat :=
  1 + if causesStall then counter.toNat else 0

section Opcodes

variable (op : BitVec 4)

theorem aluCycles_eq :
    aluCycles op = stallCycles (op == 6#4 || op == 14#4 || op == 15#4)
      (if op = 6#4 then 5#5 else 23#5) := by
  revert op
  decide

theorem condCycles_eq :
    condCycles 4 op = stallCycles (op.ult 10#4)
      (if (CondType.ofBits op).isSigned then 4#5 else 3#5) := by
  revert op
  decide

theorem branchCycles_eq :
    branchCycles op = stallCycles (op.ult 12#4)
      (if (CondType.ofBits op).isSigned then 3#5 else 2#5) := by
  revert op
  decide

theorem interruptsCycles_eq :
    interruptsCycles op = stallCycles (op == 2#4 || op == 4#4 || op == 6#4 || op == 0#4 ||
      op == 1#4) 2#5 := by
  revert op
  decide

end Opcodes

/-- **The cycles are those of the stall that the decode stage starts.** -/
theorem cyclesOf_eq (w pc : Word) :
    cyclesOf w = stallCycles (instrDecoder w).causesStall
      (MultiStageData.ofWord w pc).nextStallCounter := by
  obtain ⟨h0, h2, h3, h4, h5, h6⟩ := System.stall_of_group (w := w) pc .stInit
  rcases group_cases w with hg | hg | hg | hg | hg | hg | hg | hg
  · rw [(h0 hg).2, instrDecoder_of_group0 hg, cyclesOf, hg]
    exact aluCycles_eq _
  · rw [instrDecoder_of_group1 hg, cyclesOf, hg]
    -- only `muli` stalls
    by_cases hop : Isa.opcodeHigh w = 6#4
    · rw [(System.stall_of_muli ⟨hg, hop⟩ pc .stInit).2, hop]
      rfl
    · simp [stallCycles, hop]
  · rw [(h2 hg).2, instrDecoder_of_group2 hg, cyclesOf, hg]
    exact branchCycles_eq _
  · rw [(h3 hg).2, instrDecoder_of_group3 hg, cyclesOf, hg]
    exact condCycles_eq _
  · rw [(h4 hg).2, instrDecoder_of_group4 hg, cyclesOf, hg]
    exact condCycles_eq _
  · rw [(h5 hg).2, instrDecoder_of_group5 hg, cyclesOf, hg]
    rfl
  · rw [(h6 hg).2, instrDecoder_of_group6 hg, cyclesOf, hg]
    exact interruptsCycles_eq _
  · have hne : ∀ g : BitVec 4, g.toNat < 7 → Isa.group w ≠ g := by
      rintro g hlt rfl
      omega
    rw [instrDecoder_of_undefined hg, cyclesOf]
    split
    case h_8 => rfl
    all_goals exact absurd ‹_› (hne _ (by decide))

theorem cyclesOf_pos (w : Word) : 0 < cyclesOf w := by
  rw [cyclesOf_eq w 0, stallCycles]
  omega

section NoInterrupt

variable {irq : Bool} {a : Arch} (h : (irq && a.ie) = false)
include h

theorem stepCycles_of_no_interrupt : stepCycles irq a = cyclesOf a.fetched := by
  unfold stepCycles
  rw [h]
  rfl

theorem step_of_no_interrupt (bo : Isa.ByteOrder) : Isa.step bo irq a = Isa.step bo false a := by
  unfold Isa.step
  rw [h]
  rfl

end NoInterrupt

namespace System

/-! ### The next decoded instruction -/

/-- The stall that an instruction starts when it is sent. -/
theorem stallCounter_of_sends (order : BlockOrder) {irq : Bool} {y : System} (ht : y.AtDecode)
    (hs : y.sends irq = true) :
    (y.step order irq).cpu.decode.stallCounter =
      if (instrDecoder y.decoded).causesStall then
        (MultiStageData.ofWord y.decoded y.cpu.fetch.pcVal).nextStallCounter else 0#5 := by
  have hacc : y.cpu.shouldServiceInterruptIfNotInStall (y.cpuIn irq) = false := by
    rw [shouldService_eq]
    exact Bool.eq_false_of_not_eq_true' hs
  rw [step_decode, Frost32Cpu.decodeStage_send rfl ht hacc, Frost32Cpu.sendInstrThrough,
    multiStageDataInstrDecode_decoded]
  show (if (instrDecoder y.decoded).causesStall then _ else y.cpu.decode.stallCounter) = _
  rw [show y.cpu.decode.stallCounter = 0#5 from ht]

section Next

variable (order : BlockOrder) (y : System) (irq : Nat → Bool) {t : Nat}

/-- A stall of `c` cycles that begins at the next edge. -/
theorem nextAt_of_stall {c : BitVec 5}
    (hc : (runFrom order y irq (t + 1)).cpu.decode.stallCounter = c) (h2 : 2 ≤ c.toNat) :
    Lib.NextAt (fun u => (runFrom order y irq u).AtDecode) t (t + 1 + c.toNat) := by
  obtain ⟨hmid, hover⟩ := stall_window order hc h2 (fun k => irq (t + 1 + k))
  have hafter := runFrom_after order y irq t
  refine ⟨by omega, ?_, ?_⟩
  · show (runFrom order y irq (t + 1 + c.toNat)).AtDecode
    rw [hafter]
    exact hover.counter
  · intro j hlo hhi
    obtain ⟨i, rfl⟩ : ∃ i, j = t + 1 + i := ⟨j - (t + 1), by omega⟩
    show ¬(runFrom order y irq (t + 1 + i)).AtDecode
    rw [hafter]
    exact (hmid i (by omega)).1

/-- **The next instruction is decoded after exactly these cycles**, in any state of the CPU and
    the memory. -/
theorem next_decode (ht : (runFrom order y irq t).AtDecode) :
    Lib.NextAt (fun u => (runFrom order y irq u).AtDecode) t
      (t + if (runFrom order y irq t).sends (irq t) then
        cyclesOf (runFrom order y irq t).decoded else 3) := by
  cases hs : (runFrom order y irq t).sends (irq t) with
  | false =>
    obtain ⟨hirq, hie⟩ : irq t = true ∧ (runFrom order y irq t).cpu.decode.ie = true := by
      unfold sends at hs
      simpa using hs
    exact (next_of_accepts order irq y (accepts_iff.mpr ⟨ht, hie, hirq⟩)).1
  | true =>
    have hc := stallCounter_of_sends order ht hs
    rw [if_pos rfl, cyclesOf_eq _ (runFrom order y irq t).cpu.fetch.pcVal, stallCycles,
      ← Nat.add_assoc]
    cases hst : (instrDecoder (runFrom order y irq t).decoded).causesStall with
    | false =>
      rw [hst] at hc
      exact ⟨by omega, hc, fun j hlo hhi => absurd hhi (by simp; omega)⟩
    | true =>
      rw [hst] at hc
      exact nextAt_of_stall order y irq hc (MultiStageData.two_le_nextStallCounter _)

end Next

/-! ### Steps that depend on the state of the machine alone -/

/-- An instruction whose outcome depends on what the instruction set knows: `muli` depends on the
    stall state and the product left over, a signed call on the comparisons left over. -/
def Determined (w : Word) : Prop := ¬IsMuli w ∧ ¬IsSignedCall w

instance (w : Word) : Decidable (Determined w) := inferInstanceAs (Decidable (_ ∧ _))

/-- The outcome of such an instruction, or of an accepted interrupt. -/
def archStep (bo : Isa.ByteOrder) (irq : Bool) (a : Arch) : Arch :=
  if irq && a.ie then Isa.enterInterrupt a
  else if IsCall a.fetched then callOutcome (callCondition a.fetched a.regs) a.fetched a
  else if IsSubWord a.fetched then ldstOutcome a.fetched a
  else Isa.exec bo a.fetched a

theorem isUnsignedCall_of_isCall {w : Word} (h : IsCall w) (hs : ¬IsSignedCall w) :
    IsUnsignedCall w := by
  refine ⟨h.1, ?_⟩
  have hall : ∀ op : BitVec 4, op.ult 10#4 = true →
      ¬((6#4).ule op = true ∧ op.ult 10#4 = true) → op.ult 6#4 = true := by decide
  exact hall _ h.2 fun hop => hs ⟨h.1, hop⟩

theorem outcome_eq_archStep (bo : Isa.ByteOrder) {irq : Bool} {y : System}
    (h : (irq && y.arch.ie) = false → Determined y.arch.fetched) :
    y.outcome bo irq = archStep bo irq y.arch := by
  unfold outcome archStep
  dsimp only
  cases hirq : irq && y.arch.ie with
  | true => rfl
  | false =>
    obtain ⟨hmuli, hsigned⟩ := h hirq
    rw [if_neg hmuli]
    by_cases hcall : IsCall y.arch.fetched
    · have hsgn := (isUnsignedCall_of_isCall hcall hsigned).isCall.2
      rw [if_pos hcall, if_pos hcall, earlyCondition, hsgn]
      rfl
    · rw [if_neg hcall, if_neg hcall]

/-- An instruction that has its documented effect in the pipeline in the state `a`. -/
def Faithful (w : Word) (a : Arch) : Prop := Refined w ∨ IsUnsignedCall w ∧ CallSound w a

/-- The step has its documented effect in the pipeline. -/
def StepFaithful (irq : Bool) (a : Arch) : Prop := (irq && a.ie) = false → Faithful a.fetched a

theorem Faithful.determined {w : Word} {a : Arch} (h : Faithful w a) : Determined w := by
  rcases h with h | ⟨⟨hg, hop⟩, -⟩
  · exact ⟨h.not_muli, fun hs => h.not_call hs.isCall.1⟩
  · refine ⟨fun hm => absurd (hg.symm.trans hm.1) (by decide), fun hs => ?_⟩
    have hall : ∀ op : BitVec 4, op.ult 6#4 = true → (6#4).ule op = false := by decide
    exact Bool.noConfusion ((hall _ hop).symm.trans hs.2.1)

theorem archStep_of_faithful (bo : Isa.ByteOrder) {irq : Bool} {a : Arch}
    (h : StepFaithful irq a) : archStep bo irq a = Isa.step bo irq a := by
  unfold archStep Isa.step
  cases hirq : irq && a.ie with
  | true => rfl
  | false =>
    rcases h hirq with hr | ⟨hcall, hsound⟩
    · simp only [if_neg hr.not_call, if_neg hr.not_subWord]
    · have hc := hcall.isCall.1
      simp only [if_pos hc]
      exact ((callOutcome_eq_iff a.fetched a).mpr hsound).trans (exec_call hc bo a).symm

/-! ### The machine with a clock -/

section Run

variable (order : BlockOrder) (junk : System) (mem : BitVec 11 → Word) (irq : Nat → Bool)
  (bo : Isa.ByteOrder)

/-- A decoded instruction of a run, by the machine that the system stands for. -/
theorem cycles_everyRun {t : Nat} (ht : (runFrom order (init junk mem) irq t).AtDecode) :
    Lib.NextAt (fun u => (runFrom order (init junk mem) irq u).AtDecode) t
      (t + stepCycles (irq t) (runFrom order (init junk mem) irq t).arch) := by
  have hnext := next_decode order (init junk mem) irq ht
  have hd := decoding_everyRun order junk mem irq ht
  rw [decoded_eq hd] at hnext
  unfold stepCycles
  unfold sends at hnext
  cases hirq : irq t && (runFrom order (init junk mem) irq t).arch.ie with
  | false =>
    have hirq' : (irq t && (runFrom order (init junk mem) irq t).cpu.decode.ie) = false := hirq
    rw [hirq'] at hnext
    exact hnext
  | true =>
    have hirq' : (irq t && (runFrom order (init junk mem) irq t).cpu.decode.ie) = true := hirq
    rw [hirq'] at hnext
    exact hnext

/-- **One step of the clocked machine**, wherever the run decodes an instruction. -/
theorem paced_archStep :
    Lib.Paced (fun t => (runFrom order (init junk mem) irq t).AtDecode)
      (fun t => (runFrom order (init junk mem) irq t).arch)
      (fun t a => stepCycles (irq t) a) (fun t a => archStep bo (irq t) a)
      fun t a => (irq t && a.ie) = false → Determined a.fetched where
  nextAt t ht _ := cycles_everyRun order junk mem irq ht
  obs_eq t ht hgood := by
    obtain ⟨u, -, hnext, harch⟩ := next_everyRun order junk mem irq bo ht
    rw [(cycles_everyRun order junk mem irq ht).unique hnext]
    exact harch.trans (outcome_eq_archStep bo hgood)

/-- **One step of the instruction set machine**, wherever the run decodes an instruction with its
    documented effect. -/
theorem paced_step :
    Lib.Paced (fun t => (runFrom order (init junk mem) irq t).AtDecode)
      (fun t => (runFrom order (init junk mem) irq t).arch)
      (fun t a => stepCycles (irq t) a) (fun t a => Isa.step bo (irq t) a)
      fun t a => StepFaithful (irq t) a :=
  (paced_archStep order junk mem irq bo).congr (fun _ _ hf hirq => (hf hirq).determined)
    fun _ _ hf => archStep_of_faithful bo hf

/-- **One step without interrupts**, wherever the run decodes an instruction with its documented
    effect and has accepted no interrupt. -/
theorem paced_uninterrupted {n : Nat}
    (hno : ∀ t < n, ¬Accepts (irq t) (runFrom order (init junk mem) irq t)) :
    Lib.Paced (fun t => (runFrom order (init junk mem) irq t).AtDecode)
      (fun t => (runFrom order (init junk mem) irq t).arch)
      (fun _ a => cyclesOf a.fetched) (fun _ a => Isa.step bo false a)
      fun t a => t < n ∧ Faithful a.fetched a := by
  have hlow : ∀ t < n, (runFrom order (init junk mem) irq t).AtDecode →
      (irq t && (runFrom order (init junk mem) irq t).arch.ie) = false := by
    intro t ht hd
    rw [Bool.and_eq_false_imp]
    intro hirq
    exact Bool.eq_false_of_not_eq_true fun hie => hno t ht (accepts_iff.mpr ⟨hd, hie, hirq⟩)
  constructor
  · intro t hd hg
    rw [← stepCycles_of_no_interrupt (hlow t hg.1 hd)]
    exact (paced_step order junk mem irq bo).nextAt t hd fun _ => hg.2
  · intro t hd hg
    rw [← stepCycles_of_no_interrupt (hlow t hg.1 hd), ← step_of_no_interrupt (hlow t hg.1 hd)]
    exact (paced_step order junk mem irq bo).obs_eq t hd fun _ => hg.2

/-- The instruction set machine with a clock, after `k` steps from the state after reset: the
    interrupt line is the one at the time of a step. -/
def timedIsa (k : Nat) : Lib.Timed Arch :=
  Lib.Timed.run (fun t a => stepCycles (irq t) a) (fun t a => Isa.step bo (irq t) a)
    ⟨2, Isa.reset mem⟩ k

/-- **The CPU is in step with the clocked machine**, to the cycle: as long as the machine
    executes instructions with their documented effect in the pipeline, the CPU decodes the
    instructions of the machine at the times of the machine, in its states, and no others. -/
theorem cycle_exact (n : Nat)
    (hr : ∀ k < n, StepFaithful (irq (timedIsa mem irq bo k).time) (timedIsa mem irq bo k).state) :
    let z := runFrom order (init junk mem) irq
    (∀ k ≤ n, (z (timedIsa mem irq bo k).time).AtDecode ∧
      (z (timedIsa mem irq bo k).time).arch = (timedIsa mem irq bo k).state) ∧
    ∀ t ≤ (timedIsa mem irq bo n).time, (z t).AtDecode →
      ∃ k ≤ n, t = (timedIsa mem irq bo k).time := by
  intro z
  obtain ⟨h, hquiet⟩ := (init_leads order junk mem).run irq
  have hp := paced_step order junk mem irq bo
  constructor
  · exact hp.in_step h.counter h.arch hr
  · intro t ht hd
    refine hp.exists_of_sample (s := ⟨2, Isa.reset mem⟩) h.counter h.arch hr ?_ ht hd
    -- the initial stall
    by_contra hlt
    exact hquiet t (Nat.lt_of_not_le hlt) hd

/-- **What the registers hold at power-up makes no difference**, nor does the order of the
    divider's blocks: as long as the run sends neither `muli` nor a signed call, every other run
    over the same memory decodes at the same times, in the same states of the machine. -/
theorem powerUp_irrelevant {t : Nat}
    (h : ∀ u < t, (runFrom order (init junk mem) irq u).AtDecode →
      (runFrom order (init junk mem) irq u).sends (irq u) = true →
      Determined (runFrom order (init junk mem) irq u).decoded)
    (order' : BlockOrder) (junk' : System) :
    let z := runFrom order (init junk mem) irq
    let z' := runFrom order' (init junk' mem) irq
    ((z t).AtDecode ↔ (z' t).AtDecode) ∧ ((z t).AtDecode → (z t).arch = (z' t).arch) := by
  intro z z'
  obtain ⟨h₀, hquiet⟩ := (init_leads order junk mem).run irq
  obtain ⟨h₀', hquiet'⟩ := (init_leads order' junk' mem).run irq
  by_cases ht : 2 ≤ t
  · refine (paced_archStep order junk mem irq .littleEndian).agree
      (paced_archStep order' junk' mem irq .littleEndian) h₀.counter h₀'.counter
      (h₀.arch.trans h₀'.arch.symm) ht ?_
    intro u _ hut hu hirq
    have hd := decoding_everyRun order junk mem irq hu
    rw [← decoded_eq hd]
    exact h u hut hu (congrArg not hirq)
  · -- in the initial stall neither run decodes
    have hnone := hquiet t (by omega)
    exact ⟨⟨fun hz => absurd hz hnone, fun hz => absurd hz (hquiet' t (by omega))⟩,
      fun hz => absurd hz hnone⟩

theorem stepCycles_le (irq : Bool) (a : Arch) : stepCycles irq a ≤ 24 := by
  unfold stepCycles
  split
  · omega
  · have hlt := MultiStageData.nextStallCounter_lt (.ofWord a.fetched a.pc)
    rw [cyclesOf_eq a.fetched a.pc, stallCycles]
    split <;> omega

theorem stepCycles_pos (irq : Bool) (a : Arch) : 0 < stepCycles irq a := by
  unfold stepCycles
  split
  · omega
  · exact cyclesOf_pos a.fetched

/-- The clock of the machine does not stand still. -/
theorem time_strictMono : StrictMono fun k => (timedIsa mem irq bo k).time :=
  strictMono_nat_of_lt_succ fun _ => Nat.lt_add_of_pos_right (stepCycles_pos _ _)

/-- From any cycle on, an instruction is in decode within 23 cycles. -/
theorem exists_decode (t : Nat) :
    let z := runFrom order (init junk mem) irq
    ∃ u, t ≤ u ∧ u ≤ t + 23 ∧ (z u).AtDecode ∧ ∀ v, t ≤ v → v < u → ¬(z v).AtDecode := by
  intro z
  induction t with
  | zero =>
    obtain ⟨h, hquiet⟩ := (init_leads order junk mem).run irq
    exact ⟨2, by omega, by omega, h.counter, fun v _ hv => hquiet v hv⟩
  | succ t ih =>
    obtain ⟨u, hlo, hhi, hu, hquiet⟩ := ih
    by_cases htu : t = u
    · -- the instruction in decode at `t` is followed by the next one
      subst htu
      have hnext := cycles_everyRun order junk mem irq hu
      have hle := stepCycles_le (irq t) (runFrom order (init junk mem) irq t).arch
      have hlt := hnext.lt
      exact ⟨_, hlt, by omega, hnext.sample, fun v hv hvu => hnext.quiet v (by omega) hvu⟩
    · exact ⟨u, by omega, by omega, hu, fun v hv hvu => hquiet v (by omega) hvu⟩

/-- **How long an interrupt waits**: from any cycle of any run, an instruction is in decode
    within 23 cycles; if the line is high and interrupts are enabled then, the handler is in
    decode 3 cycles later, with that instruction to return to. -/
theorem interrupt_latency (t : Nat) :
    ∃ u, t ≤ u ∧ u ≤ t + 23 ∧ (runFrom order (init junk mem) irq u).AtDecode ∧
      (∀ v, t ≤ v → v < u → ¬(runFrom order (init junk mem) irq v).AtDecode) ∧
      (irq u = true → (runFrom order (init junk mem) irq u).arch.ie = true →
        Lib.NextAt (fun v => (runFrom order (init junk mem) irq v).AtDecode) u (u + 3) ∧
        (runFrom order (init junk mem) irq (u + 3)).arch =
          Isa.enterInterrupt (runFrom order (init junk mem) irq u).arch) := by
  obtain ⟨u, hlo, hhi, hu, hquiet⟩ := exists_decode order junk mem irq t
  refine ⟨u, hlo, hhi, hu, hquiet, ?_⟩
  intro hirq hie
  have hacc : (irq u && (runFrom order (init junk mem) irq u).arch.ie) = true := by
    rw [hirq, hie]
    rfl
  obtain ⟨u', -, hnext, harch⟩ := next_everyRun order junk mem irq .littleEndian hu
  have hcycles := cycles_everyRun order junk mem irq hu
  rw [show stepCycles (irq u) _ = 3 from if_pos hacc] at hcycles
  obtain rfl := hnext.unique hcycles
  refine ⟨hnext, harch.trans ?_⟩
  unfold outcome
  exact if_pos hacc

end Run

/-- The run of `storeMulWait` through its interrupt: the mul takes 6 cycles. -/
theorem cycle_exact_storeMulWait :
    let z := runFrom .preEdge (init cleared storeMulWait) inCycle23
    let m := timedIsa storeMulWait inCycle23 .littleEndian
    (∀ k ≤ 8, (z (m k).time).AtDecode ∧ (z (m k).time).arch = (m k).state) ∧
      ∀ t ≤ (m 8).time, (z t).AtDecode → ∃ k ≤ 8, t = (m k).time := by
  have hrefined : ∀ k < 8,
      let w := (timedIsa storeMulWait inCycle23 .littleEndian k).state.fetched
      ¬IsMuli w ∧ ¬IsCall w ∧ ¬IsSubWord w := by decide +kernel
  refine cycle_exact .preEdge cleared storeMulWait inCycle23 .littleEndian 8 ?_
  intro k hk _
  obtain ⟨hmuli, hcall, hsub⟩ := hrefined k hk
  exact .inl ⟨hmuli, hcall, hsub⟩

/-- Two runs of it that start with other contents of the registers. -/
theorem powerUp_irrelevant_storeMulWait :
    let z := runFrom .preEdge (init cleared storeMulWait) inCycle23
    let z' := runFrom .postEdge (init (cleared.step .preEdge true) storeMulWait) inCycle23
    ((z 26).AtDecode ↔ (z' 26).AtDecode) ∧ ((z 26).AtDecode → (z 26).arch = (z' 26).arch) := by
  refine powerUp_irrelevant .preEdge cleared storeMulWait inCycle23 ?_ _ _
  intro u hu hd hs
  have hr := refined_storeMulWait u (by omega) hd hs
  exact ⟨hr.not_muli, fun hcall => hr.not_call hcall.isCall.1⟩

end System

end Frost32.Hdl
