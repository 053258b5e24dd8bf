import Frost32.Hdl.MultiCycle
import Mathlib.Tactic.IntervalCases

namespace Frost32.Hdl

open Isa (Arch)

/-!
# The pipeline refines the instruction set

Between two cycles with `stall_counter == 0` the machine that `System.arch` reads off the
system makes one step of the instruction set: an accepted interrupt, or the instruction at
`pc`, with no trace of how many cycles it took.

* `Refined` — the instructions for which this holds: all but `muli`, the calls and the
  16 and 8-bit loads and stores.
* `decoding_leads` — **one step**, from any cycle with `stall_counter == 0`.
* `init_leads` — the `initial` values lead to the state after reset.
* `decoding_run` — **every run**: as long as only refined instructions have been sent, every
  cycle with `stall_counter == 0` is in step with the instruction set.
* `system_refines_isa` — the same between successive such cycles.
-/

/-! ### The instructions covered -/

/-- `muli`. -/
def IsMuli (w : Word) : Prop := Isa.group w = 1#4 ∧ Isa.opcodeHigh w = 6#4

/-- The calls of group 4. -/
def IsCall (w : Word) : Prop := Isa.group w = 4#4 ∧ (Isa.opcodeLow w).ult 10#4 = true

/-- Loads and stores of 16 or 8 bits. -/
def IsSubWord (w : Word) : Prop :=
  Isa.group w = 5#4 ∧ (Isa.opcodeLow w).extractLsb' 0 3 ≠ 0#3 ∧
    (Isa.opcodeLow w).extractLsb' 0 3 ≠ 5#3

/-- The remaining instruction words, the undefined ones included. -/
structure Refined (w : Word) : Prop where
  not_muli : ¬ IsMuli w
  not_call : ¬ IsCall w
  not_subWord : ¬ IsSubWord w

instance (w : Word) : Decidable (IsMuli w) := inferInstanceAs (Decidable (_ ∧ _))
instance (w : Word) : Decidable (IsCall w) := inferInstanceAs (Decidable (_ ∧ _))
instance (w : Word) : Decidable (IsSubWord w) := inferInstanceAs (Decidable (_ ∧ _ ∧ _))

namespace System

variable {order : BlockOrder} {irq : Bool} {y : System} {bo : Isa.ByteOrder}
  {a : Arch} {w : Word}

/-! ### One step -/

/-- The stall an instruction starts, by its group. -/
theorem stall_of_group (pc : Word) (old : StallState) :
    let m := MultiStageData.ofWord w pc
    (Isa.group w = 0#4 → m.nextStallState old = .stMulDiv ∧
      m.nextStallCounter = if Isa.opcodeLow w = 6#4 then 5#5 else 23#5) ∧
    (Isa.group w = 2#4 → m.nextStallState old = .stCtrlFlowBranch ∧
      m.nextStallCounter = if (instrDecoder w).conditionType.isSigned then 3#5 else 2#5) ∧
    (Isa.group w = 3#4 → m.nextStallState old = .stCtrlFlowJumpCall ∧
      m.nextStallCounter = if (instrDecoder w).conditionType.isSigned then 4#5 else 3#5) ∧
    (Isa.group w = 4#4 → m.nextStallState old = .stCtrlFlowJumpCall ∧
      m.nextStallCounter = if (instrDecoder w).conditionType.isSigned then 4#5 else 3#5) ∧
    (Isa.group w = 5#4 → m.nextStallState old = .stMemAccess ∧ m.nextStallCounter = 3#5) ∧
    (Isa.group w = 6#4 → m.nextStallState old = interruptsStallState w ∧
      m.nextStallCounter = 2#5) := by
  unfold MultiStageData.nextStallState MultiStageData.nextStallCounter MultiStageData.ofWord
    interruptsStallState
  dsimp only
  refine ⟨fun hg => ?_, fun hg => ?_, fun hg => ?_, fun hg => ?_, fun hg => ?_, fun hg => ?_⟩
  · rw [instrDecoder_of_group0 hg]
    exact ⟨rfl, rfl⟩
  · rw [instrDecoder_of_group2 hg]
    exact ⟨rfl, rfl⟩
  · rw [instrDecoder_of_group3 hg]
    exact ⟨rfl, rfl⟩
  · rw [instrDecoder_of_group4 hg]
    exact ⟨rfl, rfl⟩
  · rw [instrDecoder_of_group5 hg]
    exact ⟨rfl, rfl⟩
  · rw [instrDecoder_of_group6 hg]
    dsimp only
    -- `reti` has a stall state of its own
    by_cases h6 : Isa.opcodeLow w = 6#4
    · rw [h6]; exact ⟨rfl, rfl⟩
    · rw [if_neg h6]
      exact ⟨if_pos h6, if_pos h6⟩

/-- An instruction that stalls, by its group. -/
private theorem stalling_cases (hst : (instrDecoder w).causesStall = true) (hr : Refined w) :
    Frost32Cpu.IsMulDiv w ∨ Isa.group w = 2#4 ∨ Isa.group w = 3#4 ∨ Isa.group w = 5#4 ∨
      Isa.group w = 6#4 := by
  rcases group_cases w with hg | hg | hg | hg | hg | hg | hg | hg
  · rw [instrDecoder_of_group0 hg] at hst
    refine Or.inl ⟨hg, ?_⟩
    simp only [Bool.or_eq_true, beq_iff_eq] at hst
    tauto
  · rw [instrDecoder_of_group1 hg] at hst
    -- the only immediate form that stalls is `muli`
    exact absurd ⟨hg, by simpa using hst⟩ hr.not_muli
  · tauto
  · tauto
  · rw [instrDecoder_of_group4 hg] at hst
    exact absurd ⟨hg, hst⟩ hr.not_call
  · tauto
  · tauto
  · rw [instrDecoder_of_undefined hg] at hst
    exact absurd hst (by simp)

/-- An instruction that stalls, from the cycle in which it has been sent. -/
private theorem sent_leads (hst : (instrDecoder w).causesStall = true) (hr : Refined w)
    {pc : Word} {old : StallState}
    (h : Sent a w ((MultiStageData.ofWord w pc).nextStallState old)
      (MultiStageData.ofWord w pc).nextStallCounter y) :
    Leads order (Isa.exec bo w a) (MultiStageData.ofWord w pc).nextStallCounter.toNat y := by
  obtain ⟨h0, h2, h3, -, h5, h6⟩ := stall_of_group (w := w) pc old
  rcases stalling_cases hst hr with hw | hg | hg | hg | hg
  · obtain ⟨hs, hc⟩ := h0 hw.1
    rw [hs] at h
    exact mulDiv_leads order bo hw h hc
  · obtain ⟨hs, hc⟩ := h2 hg
    rw [hs] at h
    exact branch_leads hg hst h hc
  · obtain ⟨hs, hc⟩ := h3 hg
    rw [hs] at h
    exact jump_leads hg hst h hc
  · obtain ⟨hs, hc⟩ := h5 hg
    rw [hs, hc] at h
    rw [hc]
    -- loads, stores, and the accesses of less than a word
    by_cases hk : (Isa.opcodeLow w).extractLsb' 0 3 = 0#3
    · exact load_leads hg hk h
    · by_cases hk' : (Isa.opcodeLow w).extractLsb' 0 3 = 5#3
      · exact store_leads hg hk' h
      · exact absurd ⟨hg, hk, hk'⟩ hr.not_subWord
  · obtain ⟨hs, hc⟩ := h6 hg
    rw [hs, hc] at h
    rw [hc]
    exact interrupts_leads hg hst h

variable (order bo) in
/-- **One step of the instruction set takes a bounded number of cycles.** -/
theorem decoding_leads (h : Decoding a y) (hr : (irq && a.ie) = false → Refined a.fetched) :
    ∃ n < 24, Leads order (Isa.step bo irq a) n (y.step order irq) := by
  cases hirq : irq && a.ie with
  | true =>
    refine ⟨2, by omega, ?_⟩
    unfold Isa.step
    rw [hirq]
    exact accept_leads h hirq
  | false =>
    unfold Isa.step
    rw [hirq]
    cases hst : (instrDecoder a.fetched).causesStall with
    | false => exact ⟨0, by omega, decoding_send h hirq hst⟩
    | true =>
      exact ⟨_, MultiStageData.nextStallCounter_lt _,
        sent_leads hst (hr hirq) (sent_of_decoding order h hirq hst)⟩

/-! ### From the initial values -/

theorem unitsIdle_init (junk : System) (mem : BitVec 11 → Word) :
    (init junk mem).cpu.UnitsIdle := ⟨rfl, rfl, rfl, ⟨rfl, rfl⟩⟩

variable (order) in
/-- **The `initial` values lead to the state after reset.** -/
theorem init_leads (junk : System) (mem : BitVec 11 → Word) :
    Leads order (Isa.reset mem) 2 (init junk mem) := by
  have hregs : (init junk mem).arch.regs = Isa.Regs.cleared := by
    rw [arch_regs_of_bubble rfl]
    ext r : 1
    show ((Isa.Regs.set 0#4 _ _).set 0#4 _).val r = _
    rw [Isa.Regs.set_zero, Isa.Regs.set_zero]
    exact ite_self _
  refine ⟨(show ¬ 2#5 = _ by decide), fun irq => Fetching.leads ?_⟩
  exact fetching_of_bubble (inv_init junk mem) rfl rfl (unitsIdle_init junk mem) rfl rfl rfl rfl
    rfl rfl hregs

/-! ### Every run -/

/-- `stall_counter == 0`. -/
def AtDecode (y : System) : Prop := y.cpu.decode.stallCounter = 0#5

instance (y : System) : Decidable y.AtDecode := inferInstanceAs (Decidable (_ = _))

/-- The instruction word the decode stage sees. -/
def decoded (y : System) : Word := y.cpu.inInstrDecoder (y.cpuIn false)

/-- The instruction in decode is sent to the execute stage: no interrupt is accepted. -/
def sends (irq : Bool) (y : System) : Bool := !(irq && y.cpu.decode.ie)

theorem decoded_eq (h : Decoding a y) : y.decoded = a.fetched := by
  have hw := congrArg MultiStageData.rawInstruction (decode_word false h)
  exact hw

/-- Where a run leads is settled at every moment. -/
theorem Leads.step {n : Nat} (h : Leads order a n y)
    (hr : y.AtDecode → y.sends irq = true → Refined y.decoded) :
    ∃ b m, Leads order b m (y.step order irq) := by
  cases n with
  | zero =>
    have hd : Decoding a y := h
    have hr' : (irq && a.ie) = false → Refined a.fetched := by
      intro hirq
      rw [← decoded_eq hd]
      refine hr hd.counter ?_
      rw [← hd.arch] at hirq
      exact congrArg not hirq
    obtain ⟨n, -, hn⟩ := decoding_leads order .littleEndian hd hr'
    exact ⟨_, n, hn⟩
  | succ n => exact ⟨a, n, h.2 irq⟩

section Run

variable (order) (junk : System) (mem : BitVec 11 → Word) (irq : Nat → Bool)

/-- **At every `stall_counter == 0` the system stands for a state of the machine**, as long
    as only refined instructions have been sent. -/
theorem decoding_run {t : Nat}
    (hr : ∀ u < t, (runFrom order (init junk mem) irq u).AtDecode →
      (runFrom order (init junk mem) irq u).sends (irq u) = true →
      Refined (runFrom order (init junk mem) irq u).decoded)
    (ht : (runFrom order (init junk mem) irq t).AtDecode) :
    Decoding (runFrom order (init junk mem) irq t).arch (runFrom order (init junk mem) irq t) := by
  have hleads : ∃ b m, Leads order b m (runFrom order (init junk mem) irq t) := by
    clear ht
    induction t with
    | zero => exact ⟨_, _, init_leads order junk mem⟩
    | succ t ih =>
      obtain ⟨b, m, h⟩ := ih (fun u hu => hr u (by omega))
      exact h.step (hr t (by omega))
  obtain ⟨b, m, h⟩ := hleads
  cases m with
  | zero =>
    have hd : Decoding b _ := h
    rw [hd.arch]
    exact hd
  | succ m => exact absurd ht h.1

/-- Where the cycle after `t` leads is the next cycle of the run with `stall_counter == 0`. -/
theorem Leads.nextAt {b : Arch} {t n : Nat}
    (h : Leads order b n ((runFrom order (init junk mem) irq t).step order (irq t))) :
    Lib.NextAt (fun u => (runFrom order (init junk mem) irq u).AtDecode) t (t + 1 + n) ∧
      (runFrom order (init junk mem) irq (t + 1 + n)).arch = b := by
  obtain ⟨hend, hquiet⟩ := h.run (fun j => irq (t + 1 + j))
  rw [← runFrom_after order (init junk mem) irq t n] at hend
  refine ⟨⟨by omega, hend.counter, ?_⟩, hend.arch⟩
  intro j hlo hhi
  obtain ⟨i, rfl⟩ : ∃ i, j = t + 1 + i := ⟨j - (t + 1), by omega⟩
  show ¬ (runFrom order (init junk mem) irq (t + 1 + i)).AtDecode
  rw [runFrom_after order (init junk mem) irq t i]
  exact hquiet i (by omega)

/-- **The pipeline refines the instruction set.**  The first instruction is decoded in the
    state after reset, and from one cycle with `stall_counter == 0` to the next, which comes
    within 24 cycles, the machine makes one step. -/
theorem system_refines_isa (bo : Isa.ByteOrder) :
    (Lib.NextAt (fun u => (runFrom order (init junk mem) irq u).AtDecode) 0 2 ∧
      (runFrom order (init junk mem) irq 2).arch = Isa.reset mem) ∧
    ∀ t, (∀ u ≤ t, (runFrom order (init junk mem) irq u).AtDecode →
        (runFrom order (init junk mem) irq u).sends (irq u) = true →
        Refined (runFrom order (init junk mem) irq u).decoded) →
      (runFrom order (init junk mem) irq t).AtDecode →
      ∃ t' ≤ t + 24,
        Lib.NextAt (fun u => (runFrom order (init junk mem) irq u).AtDecode) t t' ∧
        (runFrom order (init junk mem) irq t').arch
          = Isa.step bo (irq t) (runFrom order (init junk mem) irq t).arch := by
  constructor
  · obtain ⟨h, hquiet⟩ := (init_leads order junk mem).run irq
    exact ⟨⟨by omega, h.counter, fun j _ hj => hquiet j hj⟩, h.arch⟩
  · intro t hr ht
    have hd := decoding_run order junk mem irq (fun u hu => hr u hu.le) ht
    have hr' : (irq t && (runFrom order (init junk mem) irq t).arch.ie) = false →
        Refined (runFrom order (init junk mem) irq t).arch.fetched := by
      intro hirq
      rw [← decoded_eq hd]
      exact hr t (le_refl t) ht (congrArg not hirq)
    obtain ⟨n, hn, hl⟩ := decoding_leads order bo hd hr'
    obtain ⟨hnext, harch⟩ := hl.nextAt order junk mem irq
    exact ⟨t + 1 + n, by omega, hnext, harch⟩

end Run

/-- `addi u0, zero, 28`, `cpy idsta, u0`, `stri u0, [zero, 64]`, `ldri u1, [zero, 64]`,
    `mul u2, u1, u0`, `ei`, a branch to itself, and the handler `reti`. -/
def storeMulWait (i : BitVec 11) : Word :=
  if i = 0 then 0x1100001C else if i = 1 then 0x61000004 else if i = 2 then 0x5100040D
  else if i = 3 then 0x52000408 else if i = 4 then 0x03210006 else if i = 5 then 0x60000000
  else if i = 6 then 0x2001FFFC else 0x60000006

/-- The line is high in cycle 23 only, when the branch is decoded. -/
def inCycle23 (t : Nat) : Bool := t == 23

/-- The words of this program are refined, also after the store. -/
theorem refined_storeMulWait :
    let z := runFrom .preEdge (init cleared storeMulWait) inCycle23
    ∀ u ≤ 26, (z u).AtDecode → (z u).sends (inCycle23 u) = true → Refined (z u).decoded := by
  have hrefined :
      let z := runFrom .preEdge (init cleared storeMulWait) inCycle23
      ∀ u ≤ 26, (z u).AtDecode → ¬IsMuli (z u).decoded ∧ ¬IsCall (z u).decoded ∧
        ¬IsSubWord (z u).decoded := by decide +kernel
  intro z u hu hd _
  obtain ⟨hmuli, hcall, hsub⟩ := hrefined u hu hd
  exact ⟨hmuli, hcall, hsub⟩

/-- Its run up to the return from the handler. -/
theorem system_refines_isa_storeMulWait :
    let z := runFrom .preEdge (init cleared storeMulWait) inCycle23
    ∀ t ≤ 26, (z t).AtDecode →
      ∃ t' ≤ t + 24, Lib.NextAt (fun u => (z u).AtDecode) t t' ∧
        (z t').arch = Isa.step .littleEndian (inCycle23 t) (z t).arch := by
  intro z t ht hd
  exact (system_refines_isa .preEdge cleared storeMulWait inCycle23 .littleEndian).2 t
    (fun u hu => refined_storeMulWait u (by omega)) hd

end System

end Frost32.Hdl
