import Frost32.Hdl.EveryRun

namespace Frost32.Hdl

open Isa (Arch)

/-!
# The divider and `udiv`, `sdiv`

What a command to `NonRestoringDivider` gives, from every reachable state that accepts one, and
what the CPU makes of it.

* `idle_of_reachable` — a reachable divider that can accept a command is idle.
* `argValue`, `Divides` — the quotient and the remainder as integers.
* `divider_correct` — **every command, at every unroll factor and in either order of the two
  clocked blocks**, and every `udiv` and `sdiv` the CPU decodes.
-/

namespace NonRestoringDivider

variable {W k : Nat} {order : BlockOrder}

/-! ### Reachable states -/

/-- Only the edge that takes a command enters the start state. -/
theorem startState_step (i : PortInDivider W) (d : NonRestoringDivider W)
    (hc : (d.step k order i).outCanAcceptCmd = true) : (d.step k order i).startState = true := by
  revert hc
  unfold step controlBlock
  dsimp only
  split
  · exact fun hc => absurd hc (by simp)
  split
  · exact fun _ => rfl
  · rename_i hstart
    have hs : d.startState = true := by simpa using hstart
    split
    · split
      · exact fun _ => hs
      · split
        · exact fun _ => hs
        · exact fun _ => hs
    · exact fun _ => hs

/-- **A reachable divider that can accept a command is idle.** -/
theorem idle_of_reachable (input : Nat → PortInDivider W) (n : Nat)
    (hc : (Lib.run (step k order) init input n).outCanAcceptCmd = true) :
    (Lib.run (step k order) init input n).Idle := by
  refine ⟨hc, ?_⟩
  cases n with
  | zero => rfl
  | succ n => exact startState_step _ _ hc

end NonRestoringDivider

/-! ### The results as integers -/

/-- The value of an argument or result, signed or unsigned. -/
def argValue {n : Nat} (sgn : Bool) (x : BitVec n) : Int := if sgn then x.toInt else x.toNat

/-- `quot` and `rem` are the quotient truncated toward zero and the remainder with the sign of
    `num`, up to the one quotient that does not fit. -/
structure Divides {n : Nat} (sgn : Bool) (num denom quot rem : BitVec n) : Prop where
  truncates : quot = BitVec.ofInt n ((argValue sgn num).tdiv (argValue sgn denom))
  remains : argValue sgn rem = (argValue sgn num).tmod (argValue sgn denom)
  fits : ¬ (sgn = true ∧ num = BitVec.intMin n ∧ denom = -1#n) →
    argValue sgn num = argValue sgn quot * argValue sgn denom + argValue sgn rem
  small : (argValue sgn rem).natAbs < (argValue sgn denom).natAbs

/-- The operations of the bit vectors are those. -/
theorem divides_of_ops {n : Nat} (sgn : Bool) (num denom : BitVec n) (hd : denom ≠ 0#n) :
    Divides sgn num denom (if sgn then num.sdiv denom else num / denom)
      (if sgn then num.srem denom else num % denom) := by
  cases sgn with
  | false =>
    have hpos : denom.toNat ≠ 0 := fun he => hd (BitVec.eq_of_toNat_eq he)
    have hquot : (num / denom).toNat = num.toNat / denom.toNat := BitVec.toNat_udiv
    have hrem : (num % denom).toNat = num.toNat % denom.toNat := BitVec.toNat_umod
    refine ⟨?_, ?_, fun _ => ?_, ?_⟩
    · show num / denom = BitVec.ofInt n ((num.toNat : Int).tdiv denom.toNat)
      rw [← Int.ofNat_tdiv, ← hquot, BitVec.ofInt_natCast, BitVec.ofNat_toNat, BitVec.setWidth_eq]
    · show ((num % denom).toNat : Int) = (num.toNat : Int).tmod denom.toNat
      rw [hrem, Int.ofNat_tmod]
    · show (num.toNat : Int) = (num / denom).toNat * denom.toNat + (num % denom).toNat
      rw [hquot, hrem]
      exact_mod_cast (Nat.div_add_mod' num.toNat denom.toNat).symm
    · show ((num % denom).toNat : Int).natAbs < (denom.toNat : Int).natAbs
      rw [hrem, Int.natAbs_natCast, Int.natAbs_natCast]
      exact Nat.mod_lt _ (by omega)
  | true =>
    have hne : denom.toInt ≠ 0 :=
      fun he => hd (BitVec.eq_of_toInt_eq (he.trans BitVec.toInt_zero.symm))
    have hrem : (num.srem denom).toInt = num.toInt.tmod denom.toInt := BitVec.toInt_srem _ _
    refine ⟨?_, hrem, fun hover => ?_, ?_⟩
    · show num.sdiv denom = BitVec.ofInt n (num.toInt.tdiv denom.toInt)
      apply BitVec.eq_of_toInt_eq
      rw [BitVec.toInt_sdiv, BitVec.toInt_ofInt]
    · have hquot : (num.sdiv denom).toInt = num.toInt.tdiv denom.toInt := by
        refine BitVec.toInt_sdiv_of_ne_or_ne _ _ ?_
        -- the quotient is out of range for the least number and -1 only
        by_cases hmin : num = BitVec.intMin n
        · exact Or.inr fun h1 => hover ⟨rfl, hmin, h1⟩
        · exact Or.inl hmin
      show num.toInt = (num.sdiv denom).toInt * denom.toInt + (num.srem denom).toInt
      rw [hquot, hrem, Int.mul_comm]
      exact (Int.mul_tdiv_add_tmod _ _).symm
    · show (num.srem denom).toInt.natAbs < denom.toInt.natAbs
      rw [hrem, Int.natAbs_tmod]
      exact Nat.mod_lt _ (Int.natAbs_pos.mpr hne)

/-- `udiv` (with `sgn` false) and `sdiv`. -/
def IsDiv (sgn : Bool) (w : Word) : Prop :=
  Isa.group w = 0#4 ∧ Isa.opcodeLow w = if sgn then 15#4 else 14#4

instance (sgn : Bool) (w : Word) : Decidable (IsDiv sgn w) := inferInstanceAs (Decidable (_ ∧ _))

/-- The instruction set's divisions give the quotient. -/
theorem exec_div {sgn : Bool} {w : Word} (hw : IsDiv sgn w) (bo : Isa.ByteOrder) (a : Arch) :
    Isa.exec bo w a = a.writeA w (if sgn then
        (a.regs.val (Isa.fieldB w)).sdiv (a.regs.val (Isa.fieldC w))
      else a.regs.val (Isa.fieldB w) / a.regs.val (Isa.fieldC w)) := by
  obtain ⟨hg, hop⟩ := hw
  simp only [Isa.exec, hg, hop]
  cases sgn <;> rfl

namespace System

variable {order : BlockOrder} {irq : Bool} {y : System} {a : Arch}

variable (order) in
/-- The stall of a division lasts for `32 / k + 7` cycles. -/
theorem div_decoded {sgn : Bool} (h : Decoding a y) (hirq : (irq && a.ie) = false)
    (hw : IsDiv sgn a.fetched) (bo : Isa.ByteOrder) :
    Leads order (Isa.exec bo a.fetched a) (32 / numIterationsPerDivide32Cycle + 7)
      (y.step order irq) := by
  have hmd : Frost32Cpu.IsMulDiv a.fetched := by
    refine ⟨hw.1, Or.inr ?_⟩
    rw [hw.2]
    cases sgn with
    | false => exact Or.inl rfl
    | true => exact Or.inr rfl
  -- a multiplication would be shorter
  have h6 : Isa.opcodeLow a.fetched ≠ 6#4 := by
    rw [hw.2]
    cases sgn <;> decide
  have hst : (instrDecoder a.fetched).causesStall = true := by
    rw [instrDecoder_of_group0 hw.1]
    rcases hmd.2 with hop | hop | hop <;> simp [hop]
  have hs := sent_of_decoding order h hirq hst
  obtain ⟨hstate, hc⟩ := (stall_of_group (w := a.fetched) a.pc y.cpu.decode.stallState).1 hw.1
  rw [hstate] at hs
  have hl := mulDiv_leads order bo hmd hs hc
  rw [hc, if_neg h6] at hl
  exact hl

section Run

variable (order) (junk : System) (mem : BitVec 11 → Word) (irq : Nat → Bool)

/-- **The divider, and `udiv` and `sdiv` with it.**  From every reachable state that can accept
    one, a command with a denominator other than 0 is done `32 / k + 4` edges after the edge
    that takes it and stays done while no other is given, whatever came before it.  In any run
    the CPU, which waits for `32 / k + 7` cycles, therefore retires the quotient. -/
theorem divider_correct :
    (∀ (k : Nat) (blocks : BlockOrder), k = 1 ∨ k = 2 ∨ k = 4 →
      ∀ (input : Nat → PortInDivider 32) (n : Nat),
        (Lib.run (NonRestoringDivider.step k blocks) .init input n).outCanAcceptCmd = true →
      ∀ (c : PortInDivider 32), c.enable = true → c.denom ≠ 0#32 →
      ∀ (later : Nat → PortInDivider 32), (∀ t, (later t).enable = false) →
      ∀ j, 32 / k + 4 ≤ j →
        let d := Lib.run (NonRestoringDivider.step k blocks)
          (NonRestoringDivider.step k blocks c
            (Lib.run (NonRestoringDivider.step k blocks) .init input n)) later j
        d.outDataReady = true ∧ Divides c.unsgnOrSgn c.num c.denom d.outQuot d.outRem) ∧
    let z := runFrom order (init junk mem) irq
    ∀ (sgn : Bool) (t : Nat), (z t).AtDecode → (z t).sends (irq t) = true →
      IsDiv sgn (z t).decoded → (z t).arch.regs.val (Isa.fieldC (z t).decoded) ≠ 0 →
      let t' := t + 1 + (32 / numIterationsPerDivide32Cycle + 7)
      Lib.NextAt (fun u => (z u).AtDecode) t t' ∧
        ∃ quot rem, Divides sgn ((z t).arch.regs.val (Isa.fieldB (z t).decoded))
            ((z t).arch.regs.val (Isa.fieldC (z t).decoded)) quot rem ∧
          (z t').arch = { (z t).arch with
            pc := (z t).arch.pc + 4
            regs := (z t).arch.regs.set (Isa.fieldA (z t).decoded) quot } := by
  constructor
  · intro k blocks hk input n hcan c hc hdenom later hlow j hj d
    have hidle := NonRestoringDivider.idle_of_reachable input n hcan
    -- from idle a command runs to its end, and the result stays
    have hdone : NonRestoringDivider.Done c d := by
      have hdiv : 32 / k * k = 32 := by rcases hk with rfl | rfl | rfl <;> rfl
      exact NonRestoringDivider.done_run (by omega) (by omega) (by omega) (by omega) hdiv
        (fun _ => by rcases hk with rfl | rfl | rfl <;> decide) hidle hc hlow j hj
    refine ⟨hdone.ready, ?_⟩
    rw [hdone.quot hdenom, hdone.rem hdenom]
    exact divides_of_ops _ _ _ hdenom
  · intro z sgn t ht hs hw hne t'
    -- the CPU waits longer than the divider takes
    have hd : Decoding (z t).arch (z t) := decoding_everyRun order junk mem irq ht
    rw [decoded_eq hd] at hw hne ⊢
    obtain ⟨hnext, harch⟩ := (div_decoded order hd (not_accepted_of_sends hs) hw
      .littleEndian).nextAt order junk mem irq
    refine ⟨hnext, _, _, divides_of_ops sgn _ _ hne, ?_⟩
    rw [exec_div hw] at harch
    exact harch

end Run

/-- "addi u0, zero, 7" and then "udiv u1, u0, u0". -/
def divideProgram (index : BitVec 11) : Word :=
  if index = 0#11 then 0x11000007#32 else 0x0211000E#32

/-- A run of that program: the division is decoded at cycle 3. -/
theorem divider_correct_first :
    let z := runFrom .preEdge (init cleared divideProgram) (fun _ => false)
    Lib.NextAt (fun u => (z u).AtDecode) 3 27 ∧
      ∃ quot rem, Divides false 7#32 7#32 quot rem ∧
        (z 27).arch = { (z 3).arch with
          pc := (z 3).arch.pc + 4
          regs := (z 3).arch.regs.set 2#4 quot } :=
  (divider_correct .preEdge cleared divideProgram (fun _ => false)).2 false 3 (by decide)
    (by decide) (by decide) (by decide)

end System

end Frost32.Hdl
