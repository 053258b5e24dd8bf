import Frost32.Hdl.EveryRun

namespace Frost32.Hdl

open Isa (Arch)

/-!
# `mul` and `muli` in every run

What the two multiplications do wherever a run of the system decodes them.

* `multiplier_and_mul` — **the multiplier and `mul`.**
* `MuliMeaning` — the documented effect of a `muli` decoded at a given cycle.
* `muliMeaning_iff` — **when `muli` has it**: as `MuliSound` says of the stall state, the
  product and the registers found at that cycle.
-/

/-- `mul`. -/
def IsMul (w : Word) : Prop := Isa.group w = 0#4 ∧ Isa.opcodeLow w = 6#4

instance (w : Word) : Decidable (IsMul w) := inferInstanceAs (Decidable (_ ∧ _))

namespace System

variable {order : BlockOrder} {irq : Bool} {y : System} {bo : Isa.ByteOrder}

/-- The step of a `mul` is the one documented. -/
theorem outcome_mul (hirq : (irq && y.arch.ie) = false) (hw : IsMul y.arch.fetched) :
    y.outcome bo irq = { y.arch with
      pc := y.arch.pc + 4
      regs := y.arch.regs.set (Isa.fieldA y.arch.fetched)
        (y.arch.regs.val (Isa.fieldB y.arch.fetched)
          * y.arch.regs.val (Isa.fieldC y.arch.fetched)) } := by
  have hg : ∀ g, g ≠ 0#4 → Isa.group y.arch.fetched ≠ g := fun g hne he => hne (he ▸ hw.1)
  unfold outcome
  dsimp only
  rw [hirq, if_neg Bool.false_ne_true, if_neg (fun h => hg _ (by decide) h.1),
    if_neg (fun h => hg _ (by decide) h.1), if_neg (fun h => hg _ (by decide) h.1)]
  simp only [Isa.exec, hw.1, hw.2]
  rfl

section Run

variable (order) (junk : System) (mem : BitVec 11 → Word) (irq : Nat → Bool)

/-- **The multiplier, and `mul` with it.**  In any state of the multiplier with
    `can_accept_cmd` high a command makes both outputs low, and exactly two edges after the
    edge that takes it the product is there with both high, whatever the input ports do
    meanwhile.  In any run the CPU therefore retires a `mul` with the product of the old
    operands, however its registers overlap. -/
theorem multiplier_and_mul :
    (∀ (m : Multiplier32) (i j k : PortInMultiplier32), i.enable = true → m.canAcceptCmd = true →
      ((m.step i).canAcceptCmd = false ∧ (m.step i).dataReady = false) ∧
      (((m.step i).step j).canAcceptCmd = false ∧ ((m.step i).step j).dataReady = false) ∧
      (((m.step i).step j).step k).prod = i.x * i.y ∧
      (((m.step i).step j).step k).dataReady = true ∧
      (((m.step i).step j).step k).canAcceptCmd = true) ∧
    let z := runFrom order (init junk mem) irq
    ∀ t, (z t).AtDecode → (z t).sends (irq t) = true → IsMul (z t).decoded →
      ∃ t', Lib.NextAt (fun u => (z u).AtDecode) t t' ∧
        (z t').arch = { (z t).arch with
          pc := (z t).arch.pc + 4
          regs := (z t).arch.regs.set (Isa.fieldA (z t).decoded)
            ((z t).arch.regs.val (Isa.fieldB (z t).decoded)
              * (z t).arch.regs.val (Isa.fieldC (z t).decoded)) } := by
  constructor
  · intro m i j k he ha
    obtain ⟨h1, h2, hcan, hready⟩ := Multiplier32.step_step_handshake (j := j) (k := k) he ha
    exact ⟨h1, h2, (Multiplier32.step_step_prod he ha).1, hready, hcan⟩
  · intro z t ht hs hw
    have hd := decoding_everyRun order junk mem irq ht
    have hirq : (irq t && (z t).arch.ie) = false := not_accepted_of_sends hs
    rw [decoded_eq hd] at hw ⊢
    obtain ⟨t', -, hnext, harch⟩ := next_everyRun order junk mem irq .littleEndian ht
    exact ⟨t', hnext, harch.trans (outcome_mul hirq hw)⟩

/-- 300 times 70000 in a multiplier that has just been reset, with other operands at its ports
    meanwhile; and the mul of `storeMulWait`, 28 times the 28 it has loaded. -/
theorem multiplier_and_mul_storeMulWait :
    ((((Multiplier32.init cleared.cpu.mul32).step ⟨true, 300, 70000⟩).step ⟨true, 5, 6⟩).step
      ⟨false, 7, 8⟩).prod = 21000000 ∧
    let z := runFrom .preEdge (init cleared storeMulWait) inCycle23
    ∃ t', Lib.NextAt (fun u => (z u).AtDecode) 14 t' ∧
      (z t').arch = { (z 14).arch with pc := 20, regs := (z 14).arch.regs.set 3#4 784 } := by
  have hboth := multiplier_and_mul .preEdge cleared storeMulWait inCycle23
  refine ⟨(hboth.1 _ _ _ _ rfl rfl).2.2.1, ?_⟩
  intro z
  have hdecoded : (z 14).decoded = 0x03210006 := by decide +kernel
  have hpc : (z 14).arch.pc = 16 := by decide +kernel
  have hregs : (z 14).arch.regs.val 1#4 = 28 ∧ (z 14).arch.regs.val 2#4 = 28 := by decide +kernel
  obtain ⟨t', hnext, harch⟩ := hboth.2 14 (by decide +kernel) (by decide +kernel)
    (by decide +kernel)
  refine ⟨t', hnext, harch.trans ?_⟩
  rw [hdecoded, hpc]
  show Arch.mk (Isa.Regs.set 3#4 ((z 14).arch.regs.val 2#4 * (z 14).arch.regs.val 1#4) _) _ _ _ _ _
    = _
  rw [hregs.1, hregs.2]
  rfl

/-- The documented effect of the `muli` decoded at cycle `t` of the run `z`. -/
def MuliMeaning (z : Nat → System) (t : Nat) : Prop :=
  ∃ t', Lib.NextAt (fun u => (z u).AtDecode) t t' ∧
    (z t').arch = { (z t).arch with
      pc := (z t).arch.pc + 4
      regs := (z t).arch.regs.set (Isa.fieldA (z t).decoded)
        ((z t).arch.regs.val (Isa.fieldB (z t).decoded)
          * (Isa.imm16 (z t).decoded).setWidth 32) }

/-- What a decoded `muli` leads to. -/
private theorem muli_next {t : Nat} (ht : (runFrom order (init junk mem) irq t).AtDecode)
    (hs : (runFrom order (init junk mem) irq t).sends (irq t) = true)
    (hw : IsMuli (runFrom order (init junk mem) irq t).decoded) :
    let y := runFrom order (init junk mem) irq t
    Lib.NextAt (fun u => (runFrom order (init junk mem) irq u).AtDecode) t (t + 1 + 5) ∧
      (runFrom order (init junk mem) irq (t + 1 + 5)).arch
        = muliOutcome y.cpu.decode.stallState y.cpu.mul32.prod y.decoded y.arch := by
  intro y
  have hd : Decoding y.arch y := decoding_everyRun order junk mem irq ht
  have hw' : IsMuli y.decoded := hw
  rw [decoded_eq hd] at hw' ⊢
  exact (muli_decoded hd (not_accepted_of_sends hs) hw').nextAt order junk mem irq

/-- **When `muli` has its documented effect**: in every run and wherever it is decoded,
    exactly if the stall state found there is sound for it. -/
theorem muliMeaning_iff (t : Nat) (ht : (runFrom order (init junk mem) irq t).AtDecode)
    (hs : (runFrom order (init junk mem) irq t).sends (irq t) = true)
    (hw : IsMuli (runFrom order (init junk mem) irq t).decoded) :
    MuliMeaning (runFrom order (init junk mem) irq) t ↔
      MuliSound (runFrom order (init junk mem) irq t).cpu.decode.stallState
        (runFrom order (init junk mem) irq t).cpu.mul32.prod
        (runFrom order (init junk mem) irq t).decoded
        (runFrom order (init junk mem) irq t).arch := by
  obtain ⟨hnext, harch⟩ := muli_next order junk mem irq ht hs hw
  rw [← muliOutcome_eq_iff, ← harch]
  constructor
  · rintro ⟨t', hnext', harch'⟩
    rw [Lib.NextAt.unique hnext hnext', harch']
    rfl
  · intro h
    exact ⟨_, hnext, h⟩

end Run

/-- A run over a memory of "muli u0, zero, 0": its first instruction does not have its
    effect. -/
theorem muliMeaning_iff_first :
    let z := runFrom .preEdge (init cleared fun _ => 0x11060000#32) (fun _ => false)
    MuliMeaning z 2 ↔ MuliSound (z 2).cpu.decode.stallState (z 2).cpu.mul32.prod (z 2).decoded
      (z 2).arch :=
  muliMeaning_iff .preEdge cleared (fun _ => 0x11060000#32) (fun _ => false) 2 (by decide)
    (by decide) (by decide)

/-- That instruction, found in the stall state of the reset, is followed by the one at 0. -/
theorem muli_after_reset :
    let z := runFrom .preEdge (init cleared fun _ => 0x11060000#32) (fun _ => false)
    (z 2).AtDecode ∧ (z 2).sends false = true ∧ IsMuli (z 2).decoded ∧ ¬ MuliMeaning z 2 := by
  refine ⟨by decide, by decide, by decide, ?_⟩
  rintro ⟨t', hnext', harch'⟩
  obtain ⟨hnext, harch⟩ := muli_next .preEdge cleared (fun _ => 0x11060000#32)
    (fun _ => false) (t := 2) (by decide) (by decide) (by decide)
  rw [← Lib.NextAt.unique hnext hnext', harch] at harch'
  exact absurd (congrArg Arch.pc harch') (by decide)

end System

end Frost32.Hdl
