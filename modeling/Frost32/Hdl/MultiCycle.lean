import Frost32.Hdl.Stalls

namespace Frost32.Hdl

open Isa (Regs Arch)

/-!
# `mul`, `udiv` and `sdiv` in the pipeline

In the first cycle of the stall the command is given, in every later cycle the execute stage
posts whatever the unit shows, and the value posted in the last cycle is the one that stays.
`Computing a w` therefore only says that the live registers are those of `a` but for `rA`.

* `computing_run` — the stall counts down with `Computing` intact.
* `mul_run`, `div_run` — the unit has taken the command and is done in the last cycle.
* `mulDiv_leads` — **the instruction as a whole.**
-/

namespace Frost32Cpu

variable {i : PortInFrost32Cpu} {s : Frost32Cpu}

/-- What a unit shows for `w` while it is not given a command. -/
def unitResult (w : Word) (s : Frost32Cpu) : Word :=
  if Isa.opcodeLow w = 6#4 then s.mul32.prod
  else if s.execute.inDiv32.denom ≠ 0 then s.div32.outQuot else 0

/-- The instruction word is one of `mul`, `udiv` and `sdiv`. -/
def IsMulDiv (w : Word) : Prop :=
  Isa.group w = 0#4 ∧
    (Isa.opcodeLow w = 6#4 ∨ Isa.opcodeLow w = 14#4 ∨ Isa.opcodeLow w = 15#4)

variable {w pc : Word} (h : s.decode.multiStageDataExecute = .ofWord w pc) (hw : IsMulDiv w)
  (hi : i.waitForMem = false)
include h hw hi

/-- The execute stage while such an instruction is in it. -/
theorem executeStage_mulDiv :
    s.executeStage i =
      if Isa.opcodeLow w = 6#4 then
        s.ctrlMultiply32 s.rfileData.rb s.rfileData.rc s.shiftedRecord
      else s.ctrlDivide32 (Isa.opcodeLow w == 15#4) s.shiftedRecord := by
  have hd := instrDecoder_of_group0 hw.1
  have hg : s.decode.multiStageDataExecute.instrGroup = 0#4 := by
    rw [h]
    show (instrDecoder w).group = _
    rw [hd]
  have ho : s.decode.multiStageDataExecute.instrOpcode = Isa.opcodeLow w := by
    rw [h]
    show (instrDecoder w).opcode = _
    rw [hd]
  rw [executeStage_group0 hi hg, executeThreeRegs_eq, ho]
  rcases hw.2 with hop | hop | hop <;> rw [hop] <;> rfl

omit hi in
theorem raIndex_mulDiv : s.decode.multiStageDataExecute.instrRaIndex = Isa.fieldA w := by
  rw [h]
  show (instrDecoder w).raIndex = _
  rw [instrDecoder_of_group0 hw.1]

/-- It always posts a value for `rA`. -/
theorem executeStage_mulDiv_sel :
    (s.executeStage i).prevWrittenRegIndex0 = Isa.fieldA w := by
  rw [executeStage_mulDiv h hw hi, ← raIndex_mulDiv h hw]
  unfold ctrlMultiply32 ctrlDivide32
  repeat' split
  all_goals rfl

/-- After the first cycle the value is what the unit shows. -/
theorem executeStage_mulDiv_data (h5 : s.decode.stallCounter ≠ 5#5)
    (h23 : s.decode.stallCounter ≠ 23#5) : (s.executeStage i).nRegData0 = s.unitResult w := by
  rw [executeStage_mulDiv h hw hi]
  unfold unitResult
  by_cases hop : Isa.opcodeLow w = 6#4
  · rw [if_pos hop, if_pos hop, ctrlMultiply32_low h5]
    rfl
  · rw [if_neg hop, if_neg hop, ctrlDivide32_low h23]
    rfl

/-- The command ports while `mul` is in the execute stage. -/
theorem executeStage_mul_ports (hop : Isa.opcodeLow w = 6#4) :
    (s.executeStage i).inMul32 =
      (if s.decode.stallCounter = 5#5 then
        { enable := true, x := s.rfileData.rb, y := s.rfileData.rc }
      else { s.execute.inMul32 with enable := false }) ∧
    (s.executeStage i).inDiv32 = s.execute.inDiv32 := by
  rw [executeStage_mulDiv h hw hi, if_pos hop]
  by_cases h5 : s.decode.stallCounter = 5#5
  · rw [ctrlMultiply32_command h5, if_pos h5]
    exact ⟨rfl, rfl⟩
  · rw [ctrlMultiply32_low h5, if_neg h5]
    exact ⟨rfl, rfl⟩

/-- The command ports while a division is. -/
theorem executeStage_div_ports (hop : Isa.opcodeLow w ≠ 6#4) :
    (s.executeStage i).inDiv32 =
      (if s.decode.stallCounter = 23#5 then
        { enable := true, unsgnOrSgn := Isa.opcodeLow w == 15#4,
          num := s.rfileData.rb, denom := s.rfileData.rc }
      else { s.execute.inDiv32 with enable := false }) ∧
    (s.executeStage i).inMul32 = s.execute.inMul32 := by
  rw [executeStage_mulDiv h hw hi, if_neg hop]
  by_cases h23 : s.decode.stallCounter = 23#5
  · rw [ctrlDivide32_command h23, if_pos h23]
    exact ⟨rfl, rfl⟩
  · rw [ctrlDivide32_low h23, if_neg h23]
    exact ⟨rfl, rfl⟩

end Frost32Cpu

namespace System

variable {order : BlockOrder} {irq : Bool} {y : System} {bo : Isa.ByteOrder}
  {a b : Arch} {w : Word} {c : BitVec 5}

/-- `mul`, `udiv` or `sdiv` is in the execute stage, and only `rA` may have changed. -/
structure Computing (a : Arch) (w : Word) (c : BitVec 5) (y : System) : Prop where
  inv : y.Inv
  latch : y.cpu.decode.multiStageDataExecute = .ofWord w a.pc
  regs : ∀ v, y.cpu.liveRegs.set (Isa.fieldA w) v = a.regs.set (Isa.fieldA w) v
  counter : y.cpu.decode.stallCounter = c
  state : y.cpu.decode.stallState = .stMulDiv
  ireta : y.cpu.decode.ireta = a.ireta
  idsta : y.cpu.decode.idsta = a.idsta
  ie : y.cpu.decode.ie = a.ie
  mem : y.ram.mem = a.mem
  bus : y.cpu.fetch.out.we = false

theorem computing_of_sent (h : Sent a w .stMulDiv c y) : Computing a w c y :=
  ⟨h.inv, h.latched.latch, fun v => by rw [h.latched.live], h.counter, h.state, h.ireta, h.idsta,
    h.ie, h.mem, h.bus⟩

variable (order irq) in
/-- One cycle before the last. -/
theorem computing_step (hw : Frost32Cpu.IsMulDiv w) (h : Computing a w c y)
    (hc : 2 ≤ c.toNat) :
    Computing a w (c - 1#5) (y.step order irq) ∧
      (c = 2#5 → (y.step order irq).cpu.fetch.pc = a.pc + 4) := by
  have hne : ∀ k : Nat, k ≤ 1 → y.cpu.decode.stallCounter ≠ BitVec.ofNat 5 k := by
    intro k hk
    rw [h.counter]
    exact Lib.Countdown.ne_ofNat_of_lt c (by omega)
  -- fetch and decode go on as in any stall, and the unit with them
  have hd : (y.step order irq).cpu.decode
      = { y.cpu.decode with stallCounter := y.cpu.decode.stallCounter - 1#5 } := by
    by_cases h2 : y.cpu.decode.stallCounter = 2#5
    · rw [step_decode_atTwo order irq h2, h2]
      unfold Frost32Cpu.decodeAtTwo
      rw [h.state]
      rfl
    · refine step_decode_beyond order irq ?_
      rw [h.counter]
      have h2' : c.toNat ≠ 2 := fun he => h2 (h.counter.trans (BitVec.eq_of_toNat_eq he))
      omega
  -- the fetch stage waits until the counter is 2
  have hf : (y.step order irq).cpu.fetch
      = if y.cpu.decode.stallCounter = 2#5 then y.cpu.fetch.prepLoadInstruction (a.pc + 4)
        else y.cpu.fetch := by
    have hfol : y.cpu.followingPcStageExecute = a.pc + 4 := by
      rw [Frost32Cpu.followingPcStageExecute, h.latch]
      rfl
    rw [step_fetch]
    unfold Frost32Cpu.fetchStage Frost32Cpu.fetchAtTwo Frost32Cpu.fetchAtThree
    rw [if_neg (by simp), if_pos (Frost32Cpu.inStall_eq_true (hne 0 (by omega))),
      if_neg (hne 1 (by omega)), h.state, hfol]
    simp only [ite_self]
  refine ⟨⟨inv_step h.inv, ?_, ?_, ?_, ?_, ?_, ?_, ?_, ?_, ?_⟩, ?_⟩
  · rw [hd]; exact h.latch
  · intro v
    rw [liveRegs_step h.inv]
    show ((y.cpu.liveRegs).set _ _).set _ _ = _
    rw [Frost32Cpu.executeStage_mulDiv_sel h.latch hw rfl, Regs.set_set, h.regs]
  · rw [hd, h.counter]
  · rw [hd]; exact h.state
  · rw [hd]; exact h.ireta
  · rw [hd]; exact h.idsta
  · rw [hd]; exact h.ie
  · exact (step_mem order irq h.bus).trans h.mem
  · rw [hf]
    split
    · rfl
    · exact h.bus
  · rintro rfl
    rw [hf, if_pos h.counter]
    rfl

variable (order) in
/-- **The stall counts down to its last cycle.** -/
theorem computing_run (hw : Frost32Cpu.IsMulDiv w) (h : Computing a w c y) (irq : Nat → Bool)
    {n : Nat} (hn : n < c.toNat) :
    Computing a w (c - BitVec.ofNat 5 n) (runFrom order y irq n) := by
  induction n with
  | zero => rw [BitVec.sub_zero]; exact h
  | succ n ih =>
    have hc := Lib.Countdown.toNat_sub_ofNat c (n := n) (by omega)
    have hstep := (computing_step order (irq n) hw (ih (by omega))
      (by rw [hc]; omega)).1
    rw [← Lib.Countdown.sub_ofNat_sub_one]
    exact hstep

/-! ### The units during the stall -/

/-- The operands of the command. -/
theorem Sent.operands {st : StallState} (hw : Frost32Cpu.IsMulDiv w) (h : Sent a w st c y) :
    y.cpu.rfileData.rb = a.regs.val (Isa.fieldB w) ∧
      y.cpu.rfileData.rc = a.regs.val (Isa.fieldC w) := by
  rw [h.latched.rfileData, Frost32Cpu.operandsOf, instrDecoder_of_group0 hw.1]
  exact ⟨rfl, rfl⟩

section Idle

variable (order : BlockOrder) (hu : y.cpu.UnitsIdle) (irq : Nat → Bool) {n : Nat}
include hu

/-- The multiplier stays idle while nothing is written to its command port. -/
private theorem mul_idle_run
    (hp : ∀ t < n, (runFrom order y irq (t + 1)).cpu.execute.inMul32 = y.cpu.execute.inMul32) :
    ∀ t ≤ n, (runFrom order y irq t).cpu.execute.inMul32.enable = false ∧
      (runFrom order y irq t).cpu.mul32.canAcceptCmd = true := by
  intro t ht
  induction t with
  | zero => exact ⟨hu.mulLow, hu.mulIdle⟩
  | succ t ih =>
    obtain ⟨hlow, hidle⟩ := ih (by omega)
    constructor
    · rw [hp t (by omega)]
      exact hu.mulLow
    · exact (congrArg Multiplier32.canAcceptCmd (Multiplier32.step_idle hlow hidle)).trans hidle

/-- The divider stays idle while nothing is written to its command port. -/
private theorem div_idle_run
    (hp : ∀ t < n, (runFrom order y irq (t + 1)).cpu.execute.inDiv32 = y.cpu.execute.inDiv32) :
    ∀ t ≤ n, (runFrom order y irq t).cpu.execute.inDiv32.enable = false ∧
      (runFrom order y irq t).cpu.div32.Idle := by
  intro t ht
  induction t with
  | zero => exact ⟨hu.divLow, hu.divIdle⟩
  | succ t ih =>
    obtain ⟨hlow, hidle⟩ := ih (by omega)
    constructor
    · rw [hp t (by omega)]
      exact hu.divLow
    · exact NonRestoringDivider.idle_step hidle hlow

end Idle

/-- A command to the multiplier alone, given at the first edge: four edges later the product
    is there and both units are idle again. -/
theorem product_run (order : BlockOrder) (hu : y.cpu.UnitsIdle) (irq : Nat → Bool) {x z : Word}
    (hp : ∀ t < 4,
      (runFrom order y irq (t + 1)).cpu.execute.inMul32 = { enable := t == 0, x := x, y := z } ∧
        (runFrom order y irq (t + 1)).cpu.execute.inDiv32 = y.cpu.execute.inDiv32) :
    (runFrom order y irq 4).cpu.mul32.prod = x * z ∧ (runFrom order y irq 4).cpu.UnitsIdle := by
  have hstep : ∀ t, (runFrom order y irq (t + 1)).cpu.mul32 = (runFrom order y irq t).cpu.mul32.step
      (runFrom order y irq t).cpu.execute.inMul32 := fun _ => rfl
  have h1 : (runFrom order y irq 1).cpu.mul32 = y.cpu.mul32 :=
    Multiplier32.step_idle hu.mulLow hu.mulIdle
  have hcmd := (hp 0 (by omega)).1
  -- command, products, sum
  have hprod := Multiplier32.step_step_prod (m := y.cpu.mul32)
    (i := (runFrom order y irq 1).cpu.execute.inMul32)
    (j := (runFrom order y irq 2).cpu.execute.inMul32)
    (k := (runFrom order y irq 3).cpu.execute.inMul32) (by rw [hcmd]; rfl) hu.mulIdle
  rw [← h1, ← hstep 1, ← hstep 2, ← hstep 3] at hprod
  obtain ⟨hlow, hidle⟩ :=
    div_idle_run order hu irq (fun t ht => (hp t ht).2) 4 (le_refl 4)
  refine ⟨?_, ?_, hprod.2, hlow, hidle⟩
  · rw [hprod.1, hcmd]
  · rw [(hp 3 (by omega)).1]
    rfl

section Mul

variable (hw : Frost32Cpu.IsMulDiv w) (hop : Isa.opcodeLow w = 6#4)
  (h : Sent a w .stMulDiv 5#5 y) (irq : Nat → Bool)
include hw hop h

variable (order) in
/-- The command ports during a multiplication. -/
private theorem mul_ports {t : Nat} (ht : t < 4) :
    (runFrom order y irq (t + 1)).cpu.execute.inMul32 =
        { enable := t == 0, x := a.regs.val (Isa.fieldB w), y := a.regs.val (Isa.fieldC w) } ∧
      (runFrom order y irq (t + 1)).cpu.execute.inDiv32 = y.cpu.execute.inDiv32 := by
  induction t with
  | zero =>
    have hp := Frost32Cpu.executeStage_mul_ports (i := y.cpuIn (irq 0)) h.latched.latch hw rfl hop
    rw [if_pos h.counter, (h.operands hw).1, (h.operands hw).2] at hp
    exact hp
  | succ t ih =>
    obtain ⟨ihm, ihd⟩ := ih (by omega)
    have hc := computing_run order hw (computing_of_sent h) irq
      (show t + 1 < (5#5).toNat by simp; omega)
    have hp := Frost32Cpu.executeStage_mul_ports (i := (runFrom order y irq (t + 1)).cpuIn
      (irq (t + 1))) hc.latch hw rfl hop
    have h5 : (runFrom order y irq (t + 1)).cpu.decode.stallCounter ≠ 5#5 := by
      rw [hc.counter]
      exact Lib.Countdown.sub_ofNat_ne_self _ (by omega) (by simp; omega)
    rw [if_neg h5, ihm, ihd] at hp
    exact hp

variable (order) in
/-- **In the last cycle the multiplier shows the product.** -/
theorem mul_run :
    (runFrom order y irq 4).cpu.mul32.prod
        = a.regs.val (Isa.fieldB w) * a.regs.val (Isa.fieldC w) ∧
      (runFrom order y irq 4).cpu.UnitsIdle :=
  product_run order h.units irq (fun _ ht => mul_ports order hw hop h irq ht)

end Mul

/-- The quotient of `udiv` and `sdiv`, and 0 for a denominator of 0. -/
private theorem guarded_quotient {op : BitVec 4} (h : op = 14#4 ∨ op = 15#4) (num denom : Word) :
    (if denom ≠ 0 then
        NonRestoringDivider.quotient
          { enable := true, unsgnOrSgn := op == 15#4, num := num, denom := denom }
      else 0) = Isa.aluOp op num denom := by
  have hzero : denom = 0 → Isa.aluOp op num denom = 0 := by
    rintro rfl
    rcases h with rfl | rfl
    · exact BitVec.udiv_zero
    · exact BitVec.sdiv_zero
  by_cases hd : denom = 0
  · rw [if_neg (by simpa using hd), hzero hd]
  · rw [if_pos hd]
    rcases h with rfl | rfl <;> rfl

section Div

variable (hw : Frost32Cpu.IsMulDiv w) (hop : Isa.opcodeLow w ≠ 6#4)
  (h : Sent a w .stMulDiv 23#5 y) (irq : Nat → Bool)
include hw hop h

variable (order) in
/-- The command ports during a division. -/
private theorem div_ports {t : Nat} (ht : t < 22) :
    (runFrom order y irq (t + 1)).cpu.execute.inDiv32 =
        { enable := t == 0, unsgnOrSgn := Isa.opcodeLow w == 15#4,
          num := a.regs.val (Isa.fieldB w), denom := a.regs.val (Isa.fieldC w) } ∧
      (runFrom order y irq (t + 1)).cpu.execute.inMul32 = y.cpu.execute.inMul32 := by
  induction t with
  | zero =>
    have hp := Frost32Cpu.executeStage_div_ports (i := y.cpuIn (irq 0)) h.latched.latch hw rfl hop
    rw [if_pos h.counter, (h.operands hw).1, (h.operands hw).2] at hp
    exact hp
  | succ t ih =>
    obtain ⟨ihd, ihm⟩ := ih (by omega)
    have hc := computing_run order hw (computing_of_sent h) irq
      (show t + 1 < (23#5).toNat by simp; omega)
    have hp := Frost32Cpu.executeStage_div_ports (i := (runFrom order y irq (t + 1)).cpuIn
      (irq (t + 1))) hc.latch hw rfl hop
    have h23 : (runFrom order y irq (t + 1)).cpu.decode.stallCounter ≠ 23#5 := by
      rw [hc.counter]
      exact Lib.Countdown.sub_ofNat_ne_self _ (by omega) (by simp; omega)
    rw [if_neg h23, ihd, ihm] at hp
    exact hp

variable (order) in
/-- The divider takes the command at the second edge and has the quotient 20 edges later. -/
private theorem div_done :
    NonRestoringDivider.Done
      { enable := true, unsgnOrSgn := Isa.opcodeLow w == 15#4,
        num := a.regs.val (Isa.fieldB w), denom := a.regs.val (Isa.fieldC w) }
      (runFrom order y irq 22).cpu.div32 := by
  let c : PortInDivider 32 :=
    { enable := true, unsgnOrSgn := Isa.opcodeLow w == 15#4,
      num := a.regs.val (Isa.fieldB w), denom := a.regs.val (Isa.fieldC w) }
  have hports : ∀ n < 20, (runFrom order y irq (2 + n)).cpu.execute.inDiv32
      = { c with enable := false } := by
    intro n hn
    rw [Nat.add_comm 2 n]
    exact (div_ports order hw hop h irq (show n + 1 < 22 by omega)).1
  have hidle : (runFrom order y irq 1).cpu.div32.Idle :=
    NonRestoringDivider.idle_step h.units.divIdle h.units.divLow
  have h2 : (runFrom order y irq 2).cpu.div32
      = NonRestoringDivider.step 2 order c (runFrom order y irq 1).cpu.div32 := by
    have hc : (runFrom order y irq 1).cpu.execute.inDiv32 = c :=
      (div_ports order hw hop h irq (show 0 < 22 by omega)).1
    exact congrArg (fun p => NonRestoringDivider.step 2 order p _) hc
  have hrun : ∀ n ≤ 20, (runFrom order y irq (2 + n)).cpu.div32
      = Lib.run (NonRestoringDivider.step 2 order) (runFrom order y irq 2).cpu.div32
          (fun _ => { c with enable := false }) n := by
    intro n hn
    induction n with
    | zero => rfl
    | succ n ih =>
      rw [Lib.run_succ, ← ih (by omega), ← hports n (by omega)]
      rfl
  have hdone : NonRestoringDivider.Done c (Lib.run (NonRestoringDivider.step 2 order)
      (NonRestoringDivider.step 2 order c (runFrom order y irq 1).cpu.div32)
      (fun _ => { c with enable := false }) 20) :=
    NonRestoringDivider.done_run (k := 2) (m := 16) (by omega) (by omega) (by omega) (by omega)
      rfl (fun _ => by omega) hidle rfl (fun _ => rfl) 20 (le_refl 20)
  rw [← h2, ← hrun 20 (le_refl 20)] at hdone
  exact hdone

variable (order) in
/-- **In the last cycle the divider shows the quotient.** -/
theorem div_run :
    (runFrom order y irq 22).cpu.unitResult w
        = Isa.aluOp (Isa.opcodeLow w) (a.regs.val (Isa.fieldB w)) (a.regs.val (Isa.fieldC w)) ∧
      (runFrom order y irq 22).cpu.UnitsIdle := by
  have hports := (div_ports order hw hop h irq (show 21 < 22 by omega)).1
  have hdone := div_done order hw hop h irq
  obtain ⟨hlow, hidle⟩ := mul_idle_run order h.units irq
    (fun t ht => (div_ports order hw hop h irq ht).2) 22 (le_refl 22)
  refine ⟨?_, hlow, hidle, ?_, hdone.toIdle⟩
  · unfold Frost32Cpu.unitResult
    rw [if_neg hop, hports]
    rw [← guarded_quotient (hw.2.resolve_left hop)]
    show (if a.regs.val (Isa.fieldC w) ≠ 0 then _ else _) = _
    by_cases hz : a.regs.val (Isa.fieldC w) = 0
    · rw [if_neg (by simpa using hz), if_neg (by simpa using hz)]
    · rw [if_pos hz, if_pos hz, hdone.quot hz]
  · rw [hports]
    rfl

end Div

/-! ### The instructions -/

/-- The last cycle, once the unit shows the result. -/
private theorem fetching_of_computing (hw : Frost32Cpu.IsMulDiv w) (h : Sent a w .stMulDiv c y)
    (irq : Nat → Bool) {n : Nat} (hn : c = BitVec.ofNat 5 (n + 2)) (hn' : n + 2 < 32)
    (hres : (runFrom order y irq (n + 1)).cpu.unitResult w
      = Isa.aluOp (Isa.opcodeLow w) (a.regs.val (Isa.fieldB w)) (a.regs.val (Isa.fieldC w)))
    (hu : (runFrom order y irq (n + 1)).cpu.UnitsIdle) :
    Fetching (Isa.exec bo w a) (runFrom order y irq (n + 1)) := by
  have hcn : c.toNat = n + 2 := by rw [hn, BitVec.toNat_ofNat, Nat.mod_eq_of_lt hn']
  have hx : Isa.exec bo w a = a.writeA w (Isa.aluOp (Isa.opcodeLow w)
      (a.regs.val (Isa.fieldB w)) (a.regs.val (Isa.fieldC w))) := by
    simp only [Isa.exec, hw.1]
  have hlast := computing_run order hw (computing_of_sent h) irq
    (show n + 1 < c.toNat by omega)
  have hprev := computing_run order hw (computing_of_sent h) irq
    (show n < c.toNat by omega)
  rw [Lib.Countdown.sub_ofNat_eq c (k := 1) (by omega)] at hlast
  rw [Lib.Countdown.sub_ofNat_eq c (k := 2) (by omega)] at hprev
  -- the address of the following instruction has been loaded a cycle before
  have hpc := (computing_step order (irq n) hw hprev (by decide)).2 rfl
  have hone : (runFrom order y irq (n + 1)).cpu.decode.stallCounter = 1#5 := hlast.counter
  refine ⟨hlast.inv, hone, ?_, ?_, ?_, ?_, ?_, ?_, hu⟩ <;> rw [hx]
  · exact hpc
  · -- the result of the unit is posted in the last cycle
    have hdata := Frost32Cpu.executeStage_mulDiv_data
      (i := (runFrom order y irq (n + 1)).cpuIn false) hlast.latch hw rfl
      (by rw [hone]; decide) (by rw [hone]; decide)
    have hpost := Frost32Cpu.settledRegs_of_post
      ⟨Frost32Cpu.executeStage_mulDiv_sel (i := (runFrom order y irq (n + 1)).cpuIn false)
        hlast.latch hw rfl, hdata⟩
    refine hpost.trans ?_
    rw [hlast.regs, hres]
    rfl
  · exact hlast.ireta
  · exact hlast.idsta
  · exact hlast.ie
  · exact hlast.mem

variable (order bo) in
/-- **A multiplication or division.** -/
theorem mulDiv_leads (hw : Frost32Cpu.IsMulDiv w) (h : Sent a w .stMulDiv c y)
    (hc : c = if Isa.opcodeLow w = 6#4 then 5#5 else 23#5) :
    Leads order (Isa.exec bo w a) c.toNat y := by
  have hstall : ∀ irq : Nat → Bool, ∀ j < c.toNat,
      (runFrom order y irq j).cpu.decode.stallCounter ≠ 0#5 := by
    intro irq j hj
    rw [(computing_run order hw (computing_of_sent h) irq hj).counter]
    exact Lib.Countdown.sub_ofNat_ne_zero c hj
  by_cases hop : Isa.opcodeLow w = 6#4
  · rw [if_pos hop] at hc
    subst hc
    refine leads_of_run (n := 4) (fun irq j hj => hstall irq j (by simp; omega)) fun irq => ?_
    obtain ⟨hprod, hu⟩ := mul_run order hw hop h irq
    refine fetching_of_computing hw h irq (n := 3) rfl (by omega) ?_ hu
    rw [Frost32Cpu.unitResult, if_pos hop, hprod, hop]
    rfl
  · rw [if_neg hop] at hc
    subst hc
    refine leads_of_run (n := 22) (fun irq j hj => hstall irq j (by simp; omega)) fun irq => ?_
    obtain ⟨hres, hu⟩ := div_run order hw hop h irq
    exact fetching_of_computing hw h irq (n := 21) rfl (by omega) hres hu

end System

end Frost32.Hdl
