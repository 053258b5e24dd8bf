import Frost32.Hdl.EveryRun

namespace Frost32.Hdl

open Isa (Regs Arch)

/-!
# Calls in every run

What a call does wherever a run of the system decodes it, next to what it is documented to
do.

* `CallMeaning` — the documented effect of a call decoded at a given cycle.
* `callMeaning_iff` — **when a call on an equality or unsigned condition has it**: unless the
  `lr` it writes early changes its own condition or target (`CallSound`).
* `SignedCallMeaning` — the documented effect of a signed call, with the write-back events of
  `lr` while it is in the execute stage.
* `signedCallMeaning_iff` — **when a signed call has it**: unless the comparison left over
  holds and its own does not.
-/

/-! ### The condition for the early write of `lr` -/

/-- Writing `lr` before the condition and the target are read does no harm. -/
def CallSound (w : Word) (a : Arch) : Prop :=
  callCondition w a.regs = false ∨ a.regs.val (Isa.fieldC w) = a.pc + 4 ∨
    (Isa.fieldC w ≠ Isa.lr ∧ callCondition w (a.regs.set Isa.lr (a.pc + 4)) = true)

/-- The documented effect of the call `w` on the state `a`. -/
def callEffect (w : Word) (a : Arch) : Arch :=
  { a with
    regs := if callCondition w a.regs then a.regs.set Isa.lr (a.pc + 4) else a.regs
    pc := if callCondition w a.regs then a.regs.val (Isa.fieldC w) else a.pc + 4 }

/-- It is the effect in the instruction set. -/
theorem exec_eq_callEffect {w : Word} (hw : IsCall w) (bo : Isa.ByteOrder) (a : Arch) :
    Isa.exec bo w a = callEffect w a := exec_call hw bo a

/-- **The outcome of an unsigned call is the documented one in exactly the sound cases.** -/
theorem callOutcome_eq_iff (w : Word) (a : Arch) :
    callOutcome (callCondition w a.regs) w a = callEffect w a ↔ CallSound w a := by
  unfold callOutcome callEffect CallSound
  cases hc : callCondition w a.regs with
  | false =>
    -- nothing is written early
    simp [hc]
  | true =>
    have hval : (a.regs.set Isa.lr (a.pc + 4)).val (Isa.fieldC w) = a.regs.val (Isa.fieldC w) ↔
        Isa.fieldC w ≠ Isa.lr ∨ a.regs.val (Isa.fieldC w) = a.pc + 4 := by
      by_cases hr : Isa.fieldC w = Isa.lr
      · rw [hr, Regs.set_val_self (by decide)]
        exact ⟨fun h => Or.inr h.symm, fun h => (h.resolve_left (fun h => h rfl)).symm⟩
      · rw [Regs.set_val_of_ne hr]
        exact ⟨fun _ => Or.inl hr, fun _ => rfl⟩
    have hregs : ∀ taken, callRegs taken a.pc (callRegs true a.pc a.regs)
        = a.regs.set Isa.lr (a.pc + 4) := fun taken => callRegs_callRegs_true taken _ _
    have hearly : callRegs true a.pc a.regs = a.regs.set Isa.lr (a.pc + 4) := rfl
    dsimp only
    rw [hregs, hearly]
    cases hc' : callCondition w (a.regs.set Isa.lr (a.pc + 4)) with
    | false =>
      -- the jump is not made, and the following instruction has to be its target
      simp [eq_comm]
    | true =>
      -- the jump is made, to what `rC` holds after the write
      simp only [if_true, Arch.mk.injEq, true_and, and_true, hval]
      tauto

/-! ### The two kinds of calls -/

/-- The calls on `ne`, `eq`, `ltu`, `geu`, `leu` and `gtu`. -/
def IsUnsignedCall (w : Word) : Prop := Isa.group w = 4#4 ∧ (Isa.opcodeLow w).ult 6#4 = true

/-- The calls on `lts`, `ges`, `les` and `gts`. -/
def IsSignedCall (w : Word) : Prop :=
  Isa.group w = 4#4 ∧ (6#4).ule (Isa.opcodeLow w) = true ∧ (Isa.opcodeLow w).ult 10#4 = true

instance (w : Word) : Decidable (IsUnsignedCall w) := inferInstanceAs (Decidable (_ ∧ _))
instance (w : Word) : Decidable (IsSignedCall w) := inferInstanceAs (Decidable (_ ∧ _ ∧ _))

theorem IsUnsignedCall.isCall {w : Word} (h : IsUnsignedCall w) :
    IsCall w ∧ (CondType.ofBits (Isa.opcodeLow w)).isSigned = false := by
  obtain ⟨hg, hop⟩ := h
  have hall : ∀ op : BitVec 4, op.ult 6#4 = true →
      op.ult 10#4 = true ∧ (CondType.ofBits op).isSigned = false := by decide
  exact ⟨⟨hg, (hall _ hop).1⟩, (hall _ hop).2⟩

theorem IsSignedCall.isCall {w : Word} (h : IsSignedCall w) :
    IsCall w ∧ (CondType.ofBits (Isa.opcodeLow w)).isSigned = true := by
  obtain ⟨hg, hlo, hhi⟩ := h
  have hall : ∀ op : BitVec 4, (6#4).ule op = true → op.ult 10#4 = true →
      (CondType.ofBits op).isSigned = true := by decide
  exact ⟨⟨hg, hhi⟩, hall _ hlo hhi⟩

namespace System

/-! ### Equality and unsigned conditions -/

/-- The documented effect of the call decoded at cycle `t` of the run `z`. -/
def CallMeaning (z : Nat → System) (t : Nat) : Prop :=
  ∃ t', Lib.NextAt (fun u => (z u).AtDecode) t t' ∧
    (z t').arch = callEffect (z t).decoded (z t).arch

section Run

variable (order : BlockOrder) (junk : System) (mem : BitVec 11 → Word) (irq : Nat → Bool)

/-- What a decoded call leads to. -/
private theorem call_next {t : Nat} (ht : (runFrom order (init junk mem) irq t).AtDecode)
    (hs : (runFrom order (init junk mem) irq t).sends (irq t) = true)
    (hw : IsCall (runFrom order (init junk mem) irq t).decoded) :
    let y := runFrom order (init junk mem) irq t
    ∃ t', Lib.NextAt (fun u => (runFrom order (init junk mem) irq u).AtDecode) t t' ∧
      (runFrom order (init junk mem) irq t').arch
        = callOutcome (earlyCondition y.decoded y.cpu.fetch y.arch.regs) y.decoded y.arch := by
  intro y
  have hd : Decoding y.arch y := decoding_everyRun order junk mem irq ht
  have hw' : IsCall y.decoded := hw
  rw [decoded_eq hd] at hw' ⊢
  exact ⟨_, (call_decoded order hd (not_accepted_of_sends hs) hw').nextAt order junk mem irq⟩

/-- **When a call on an equality or unsigned condition has its documented effect**: in every
    run and wherever it is decoded, exactly if the early write of `lr` is sound for it. -/
theorem callMeaning_iff (t : Nat) (ht : (runFrom order (init junk mem) irq t).AtDecode)
    (hs : (runFrom order (init junk mem) irq t).sends (irq t) = true)
    (hw : IsUnsignedCall (runFrom order (init junk mem) irq t).decoded) :
    CallMeaning (runFrom order (init junk mem) irq) t ↔
      CallSound (runFrom order (init junk mem) irq t).decoded
        (runFrom order (init junk mem) irq t).arch := by
  obtain ⟨hcall, hsgn⟩ := hw.isCall
  obtain ⟨t', hnext, harch⟩ := call_next order junk mem irq ht hs hcall
  have hearly : ∀ f g, earlyCondition (runFrom order (init junk mem) irq t).decoded f g
      = callCondition (runFrom order (init junk mem) irq t).decoded g := by
    intro f g
    unfold earlyCondition
    rw [hsgn, if_neg Bool.false_ne_true]
  rw [hearly] at harch
  -- the meaning is an equation between the documented state and the one the run reaches
  rw [← callOutcome_eq_iff, ← harch]
  constructor
  · rintro ⟨u, hnext', harch'⟩
    rw [Lib.NextAt.unique hnext hnext', harch']
  · intro h
    exact ⟨_, hnext, h⟩

end Run

/-- A run over a memory of "ceq lr, zero, zero": its condition holds, and the `lr` it
    writes makes it fail. -/
theorem callMeaning_iff_first :
    let z := runFrom .preEdge (init cleared fun _ => 0x4D000001#32) (fun _ => false)
    CallMeaning z 2 ↔ CallSound (z 2).decoded (z 2).arch :=
  callMeaning_iff .preEdge cleared (fun _ => 0x4D000001#32) (fun _ => false) 2 (by decide)
    (by decide) (by decide)

/-- That call writes `lr` and goes on at the next instruction instead of its target 0. -/
theorem call_with_lr :
    let z := runFrom .preEdge (init cleared fun _ => 0x4D000001#32) (fun _ => false)
    (z 2).AtDecode ∧ (z 2).sends false = true ∧ IsUnsignedCall (z 2).decoded ∧
      ¬ CallMeaning z 2 := by
  refine ⟨by decide, by decide, by decide, ?_⟩
  rintro ⟨t', hnext', harch'⟩
  obtain ⟨u, hnext, harch⟩ := call_next .preEdge cleared (fun _ => 0x4D000001#32)
    (fun _ => false) (t := 2) (by decide) (by decide) (by decide)
  rw [← Lib.NextAt.unique hnext hnext', harch] at harch'
  exact absurd (congrArg Arch.pc harch') (by decide)

/-! ### Signed conditions -/

/-- The record in front of the forwarding network gives `lr` the value `ret`. -/
def ForwardsLr (ret : Word) (y : System) : Prop :=
  y.cpu.execute.prevWrittenRegIndex0 = Isa.lr ∧ y.cpu.execute.nRegData0 = ret

/-- The write port of the register file gives `lr` the value `ret`. -/
def WritesLr (ret : Word) (y : System) : Prop :=
  y.cpu.writeBack = { writeEn := true, writeSel := Isa.lr, writeData := ret }

/-- The documented effect of the signed call decoded at cycle `t` of the run `z`.  While it
    is in the execute stage, in the cycles `u` up to the next one with `stall_counter == 0`,
    it loads the return address for `lr` into the forwarding record and, an edge later, into
    the write port, exactly if its condition holds; what later instructions see agrees. -/
def SignedCallMeaning (z : Nat → System) (t : Nat) : Prop :=
  let a := (z t).arch
  let w := (z t).decoded
  ∃ t', Lib.NextAt (fun u => (z u).AtDecode) t t' ∧
    ((∃ u, t < u ∧ u < t' ∧ (z (u + 1)).ForwardsLr (a.pc + 4)) ↔
      callCondition w a.regs = true) ∧
    ((∃ u, t < u ∧ u < t' ∧ (z (u + 2)).WritesLr (a.pc + 4)) ↔
      callCondition w a.regs = true) ∧
    (z t').arch = callEffect w a

/-- The write port takes over the record in front of the forwarding network. -/
theorem writesLr_step_iff {order : BlockOrder} {irq : Bool} {y : System} {ret : Word} :
    (y.step order irq).WritesLr ret ↔ y.ForwardsLr ret := by
  have hwb : (y.step order irq).cpu.writeBack =
      { writeEn := true, writeSel := y.cpu.execute.prevWrittenRegIndex0,
        writeData := y.cpu.execute.nRegData0 } := by
    rw [step_cpu, Frost32Cpu.step_writeBack, Frost32Cpu.writeBackStage, if_neg (by simp)]
  unfold WritesLr ForwardsLr
  rw [hwb]
  simp

/-- A cycle of a call loads the record if the condition it consults holds. -/
theorem forwardsLr_step_iff (order : BlockOrder) (irq : Bool) {y : System} {a : Arch} {w : Word}
    (h : y.cpu.Latched a w) (hw : IsCall w) :
    (y.step order irq).ForwardsLr (a.pc + 4) ↔ y.cpu.ctrlFlowCondition = true := by
  obtain ⟨hsel, hdata⟩ := Frost32Cpu.executeStage_call (i := y.cpuIn irq) h hw rfl
  unfold ForwardsLr
  rw [step_execute, hsel, hdata]
  cases y.cpu.ctrlFlowCondition <;> simp [Isa.lr]

/-- The registers of a signed call that does not involve `lr` are those before it. -/
theorem callCondition_callRegs {w : Word} (hA : Isa.fieldA w ≠ Isa.lr) (hB : Isa.fieldB w ≠ Isa.lr)
    (early : Bool) (pc : Word) (g : Regs) :
    callCondition w (callRegs early pc g) = callCondition w g := by
  cases early with
  | false => rfl
  | true =>
    unfold callCondition
    rw [show callRegs true pc g = g.set Isa.lr (pc + 4) from rfl, Regs.set_val_of_ne hA,
      Regs.set_val_of_ne hB]

/-- The outcome of such a call is the documented one but for `lr`. -/
theorem callOutcome_signed {w : Word} (hA : Isa.fieldA w ≠ Isa.lr) (hB : Isa.fieldB w ≠ Isa.lr)
    (hC : Isa.fieldC w ≠ Isa.lr) (early : Bool) (a : Arch) :
    callOutcome early w a =
      { callEffect w a with
        regs := callRegs (callCondition w a.regs) a.pc (callRegs early a.pc a.regs) } := by
  have hval : (callRegs early a.pc a.regs).val (Isa.fieldC w) = a.regs.val (Isa.fieldC w) := by
    cases early with
    | false => rfl
    | true => exact Regs.set_val_of_ne hC _ _
  unfold callOutcome callEffect
  dsimp only
  rw [callCondition_callRegs hA hB, hval]

section Run

variable (order : BlockOrder) (junk : System) (mem : BitVec 11 → Word) (irq : Nat → Bool)

/-- The cycles of a signed call that load the record. -/
private theorem signedCall_events {t : Nat}
    (ht : (runFrom order (init junk mem) irq t).AtDecode)
    (hs : (runFrom order (init junk mem) irq t).sends (irq t) = true)
    (hw : IsSignedCall (runFrom order (init junk mem) irq t).decoded) :
    let z := runFrom order (init junk mem) irq
    let a := (z t).arch
    let w := (z t).decoded
    let early := staleCondition w (z t).cpu.fetch
    Lib.NextAt (fun u => (z u).AtDecode) t (t + 5) ∧
      (z (t + 5)).arch = callOutcome early w a ∧
      ∀ j < 4, (z (t + 1 + j + 1)).ForwardsLr (a.pc + 4) ↔
        (if j < 2 then early else callCondition w (callRegs early a.pc a.regs)) = true := by
  intro z a w early
  have hd : Decoding a (z t) := decoding_everyRun order junk mem irq ht
  obtain ⟨hcall, hsgn⟩ := hw.isCall
  have hcall' : IsCall w := hcall
  have hsgn' : (CondType.ofBits (Isa.opcodeLow w)).isSigned = true := hsgn
  have hw' : w = a.fetched := decoded_eq hd
  have hst := causesStall_of_call hcall'
  have hdec : (instrDecoder w).conditionType = .ofBits (Isa.opcodeLow w) := by
    rw [instrDecoder_of_group4 hcall'.1]
  obtain ⟨hstate, hc⟩ := (stall_of_group (w := w) a.pc (z t).cpu.decode.stallState).2.2.2.1
    hcall'.1
  rw [hdec, hsgn', if_pos rfl] at hc
  have hsent : Sent a w .stCtrlFlowJumpCall 4#5 ((z t).step order (irq t)) := by
    have h := sent_of_decoding order hd (not_accepted_of_sends hs)
      (by rw [← hw']; exact hst)
    rw [← hw', hstate, hc] at h
    exact h
  -- the flags in fetch are still those that the comparison before the call has left
  have hfetch : ((z t).step order (irq t)).cpu.fetch = (z t).cpu.fetch :=
    (send_keeps hd (not_accepted_of_sends hs) (by rw [← hw']; exact hst)).1
  obtain ⟨hnext, harch⟩ : Lib.NextAt (fun u => (z u).AtDecode) t (t + 1 + 4) ∧
      (z (t + 1 + 4)).arch = callOutcome early w a := by
    have hl := call_decoded order hd (not_accepted_of_sends hs)
      (by rw [← hw']; exact hcall')
    rw [← hw', hc, earlyCondition, hsgn', if_pos rfl] at hl
    exact hl.nextAt order junk mem irq
  refine ⟨hnext, harch, fun j hj => ?_⟩
  -- the execute stage has latched the call in each of the four cycles
  obtain ⟨⟨g, hlat⟩, hcond⟩ := signedCall_conditions hcall' hsgn' hsent
    (fun k => irq (t + 1 + k)) hj
  rw [← runFrom_after order (init junk mem) irq t j] at hlat hcond
  rw [hfetch] at hcond
  rw [← hcond]
  have hf := forwardsLr_step_iff order (irq (t + 1 + j)) hlat hcall'
  exact hf

/-- Some cycle of the call loads the record: one of the first two if the comparison left over
    holds, one of the last two if its own does. -/
private theorem signedCall_forwardsLr_iff {t : Nat}
    (ht : (runFrom order (init junk mem) irq t).AtDecode)
    (hs : (runFrom order (init junk mem) irq t).sends (irq t) = true)
    (hw : IsSignedCall (runFrom order (init junk mem) irq t).decoded)
    (hA : Isa.fieldA (runFrom order (init junk mem) irq t).decoded ≠ Isa.lr)
    (hB : Isa.fieldB (runFrom order (init junk mem) irq t).decoded ≠ Isa.lr) :
    (∃ u, t < u ∧ u < t + 5 ∧
      (runFrom order (init junk mem) irq (u + 1)).ForwardsLr
        ((runFrom order (init junk mem) irq t).arch.pc + 4)) ↔
      (staleCondition (runFrom order (init junk mem) irq t).decoded
          (runFrom order (init junk mem) irq t).cpu.fetch = true ∨
        callCondition (runFrom order (init junk mem) irq t).decoded
          (runFrom order (init junk mem) irq t).arch.regs = true) := by
  obtain ⟨-, -, hevents⟩ := signedCall_events order junk mem irq ht hs hw
  rw [callCondition_callRegs hA hB] at hevents
  constructor
  · rintro ⟨u, hlo, hhi, hu⟩
    obtain ⟨j, rfl⟩ : ∃ j, u = t + 1 + j := ⟨u - (t + 1), by omega⟩
    have hj := (hevents j (by omega)).mp hu
    by_cases h2 : j < 2
    · rw [if_pos h2] at hj; exact Or.inl hj
    · rw [if_neg h2] at hj; exact Or.inr hj
  · rintro (h | h)
    · exact ⟨t + 1 + 0, by omega, by omega, (hevents 0 (by omega)).mpr h⟩
    · exact ⟨t + 1 + 2, by omega, by omega, (hevents 2 (by omega)).mpr h⟩

/-- **When a signed call that does not involve `lr` has its documented effect**: in every run
    and wherever it is decoded, exactly if its condition holds or the comparison left over
    does not. -/
theorem signedCallMeaning_iff (t : Nat) (ht : (runFrom order (init junk mem) irq t).AtDecode)
    (hs : (runFrom order (init junk mem) irq t).sends (irq t) = true)
    (hw : IsSignedCall (runFrom order (init junk mem) irq t).decoded)
    (hA : Isa.fieldA (runFrom order (init junk mem) irq t).decoded ≠ Isa.lr)
    (hB : Isa.fieldB (runFrom order (init junk mem) irq t).decoded ≠ Isa.lr)
    (hC : Isa.fieldC (runFrom order (init junk mem) irq t).decoded ≠ Isa.lr) :
    SignedCallMeaning (runFrom order (init junk mem) irq) t ↔
      (staleCondition (runFrom order (init junk mem) irq t).decoded
          (runFrom order (init junk mem) irq t).cpu.fetch = false ∨
        callCondition (runFrom order (init junk mem) irq t).decoded
          (runFrom order (init junk mem) irq t).arch.regs = true) := by
  obtain ⟨hnext, harch, -⟩ := signedCall_events order junk mem irq ht hs hw
  rw [callOutcome_signed hA hB hC] at harch
  have hforward := signedCall_forwardsLr_iff order junk mem irq ht hs hw hA hB
  -- the write port follows the record an edge later
  have hwrite : (∃ u, t < u ∧ u < t + 5 ∧
      (runFrom order (init junk mem) irq (u + 2)).WritesLr
        ((runFrom order (init junk mem) irq t).arch.pc + 4)) ↔
      ∃ u, t < u ∧ u < t + 5 ∧ (runFrom order (init junk mem) irq (u + 1)).ForwardsLr
        ((runFrom order (init junk mem) irq t).arch.pc + 4) :=
    exists_congr fun u => and_congr_right fun _ => and_congr_right fun _ => writesLr_step_iff
  constructor
  · rintro ⟨t', hnext', hmeaning, -, -⟩
    rw [Lib.NextAt.unique hnext' hnext, hforward] at hmeaning
    cases hstale : staleCondition (runFrom order (init junk mem) irq t).decoded
        (runFrom order (init junk mem) irq t).cpu.fetch with
    | false => exact Or.inl rfl
    | true => exact Or.inr (hmeaning.mp (Or.inl hstale))
  · intro h
    -- in both cases the comparison left over adds nothing to the call's own
    have honly : (staleCondition (runFrom order (init junk mem) irq t).decoded
          (runFrom order (init junk mem) irq t).cpu.fetch = true ∨
        callCondition (runFrom order (init junk mem) irq t).decoded
          (runFrom order (init junk mem) irq t).arch.regs = true) ↔
        callCondition (runFrom order (init junk mem) irq t).decoded
          (runFrom order (init junk mem) irq t).arch.regs = true := by
      rcases h with h | h <;> simp [h]
    refine ⟨t + 5, hnext, hforward.trans honly, (hwrite.trans hforward).trans honly, ?_⟩
    rw [harch]
    rcases h with h | h
    · rw [h]; rfl
    · unfold callEffect
      rw [h, callRegs_true_callRegs]
      rfl

end Run

/-- "addi u0, zero, 1", "bges zero, zero, 0x8" to the next instruction, and
    "cges zero, u0, u1". -/
def staleProgram (index : BitVec 11) : Word :=
  if index = 0#11 then 0x11000001#32
  else if index = 1#11 then 0x20070000#32
  else 0x40120007#32

/-- A run of that program: the call is decoded at cycle 7. -/
theorem signedCallMeaning_iff_stale :
    let z := runFrom .preEdge (init cleared staleProgram) (fun _ => false)
    SignedCallMeaning z 7 ↔ (staleCondition (z 7).decoded (z 7).cpu.fetch = false ∨
      callCondition (z 7).decoded (z 7).arch.regs = true) :=
  signedCallMeaning_iff .preEdge cleared staleProgram (fun _ => false) 7 (by decide) (by decide)
    (by decide) (by decide) (by decide) (by decide)

/-- The call's condition is false, and the comparison the branch has left over makes it write
    `lr`. -/
theorem stale_condition_writes_lr :
    let z := runFrom .preEdge (init cleared staleProgram) (fun _ => false)
    (z 7).AtDecode ∧ (z 7).sends false = true ∧ IsSignedCall (z 7).decoded ∧
      Isa.fieldA (z 7).decoded ≠ Isa.lr ∧ Isa.fieldB (z 7).decoded ≠ Isa.lr ∧
      Isa.fieldC (z 7).decoded ≠ Isa.lr ∧ ¬ SignedCallMeaning z 7 := by
  refine ⟨by decide, by decide, by decide, by decide, by decide, by decide, ?_⟩
  rintro ⟨t', hnext', -, -, harch'⟩
  obtain ⟨hnext, harch, -⟩ := signedCall_events .preEdge cleared staleProgram
    (fun _ => false) (t := 7) (by decide) (by decide) (by decide)
  rw [Lib.NextAt.unique hnext' hnext, harch] at harch'
  exact absurd (congrArg (fun b => b.regs.val Isa.lr) harch') (by decide)

end System

end Frost32.Hdl
