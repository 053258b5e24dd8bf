import Frost32.Hdl.Refinement

namespace Frost32.Hdl

/-!
# Interrupts are precise

Out of a stall the decode stage either accepts an interrupt or sends its instruction; what
follows until it decodes again depends on that instruction alone.  Nothing here looks at the
values in the registers, so calls, sub-word accesses and undefined encodings are included.

* `Accepts`, `Sends` — the two things that happen at `stall_counter == 0`.
* `stall_window` — a stall as a whole: the latch keeps its instruction until the last cycle,
  and the special registers change only with two cycles to go.
* `accept_window`, `send_window` — from one decoded instruction to the next.
* `handler_run` — the induction over the instructions of a handler.
* `PreciseInterrupts`, `interrupts_precise` — **interrupts are precise in every run.**
-/

/-- `ei`. -/
def IsEi (w : Word) : Prop := Isa.group w = 6#4 ∧ Isa.opcodeLow w = 0#4
/-- `cpy ireta, rA`. -/
def IsCpyIreta (w : Word) : Prop := Isa.group w = 6#4 ∧ Isa.opcodeLow w = 2#4
/-- `reti`. -/
def IsReti (w : Word) : Prop := Isa.group w = 6#4 ∧ Isa.opcodeLow w = 6#4

namespace System

variable {order : BlockOrder} {irq : Bool} {y : System} {c : BitVec 5}

/-- The decode stage accepts an interrupt. -/
def Accepts (irq : Bool) (y : System) : Prop :=
  y.cpu.inStall = false ∧ y.cpu.shouldServiceInterruptIfNotInStall (y.cpuIn irq) = true

/-- The decode stage sends the instruction it sees to the execute stage. -/
def Sends (irq : Bool) (y : System) : Prop :=
  y.AtDecode ∧ ¬ Accepts irq y

/-- The execute stage has nothing to do. -/
def Bubble (y : System) : Prop :=
  y.cpu.decode.multiStageDataExecute = y.cpu.decode.multiStageDataExecute.makeBubble

/-- The execute stage has the instruction `w` from address `pc`. -/
def Executes (w pc : Word) (y : System) : Prop :=
  y.cpu.decode.multiStageDataExecute = .ofWord w pc

/-! ### A stall as a whole -/

variable (order) in
/-- Before `stall_counter == 2` only the counter moves. -/
private theorem stall_run (hc : y.cpu.decode.stallCounter = c) (irq : Nat → Bool) {n : Nat}
    (hn : n + 2 ≤ c.toNat) :
    (runFrom order y irq n).cpu.decode
      = { y.cpu.decode with stallCounter := c - BitVec.ofNat 5 n } := by
  induction n with
  | zero =>
    show y.cpu.decode = _
    rw [← hc, BitVec.sub_zero]
  | succ n ih =>
    have hprev := ih (by omega)
    have hcnt : (runFrom order y irq n).cpu.decode.stallCounter = c - BitVec.ofNat 5 n := by
      rw [hprev]
    have hstep := step_decode_beyond order (irq n) (y := runFrom order y irq n) (by
      rw [hcnt, Lib.Countdown.toNat_sub_ofNat c (by omega)]
      omega)
    show ((runFrom order y irq n).step order (irq n)).cpu.decode = _
    rw [hstep, hprev, ← Lib.Countdown.sub_ofNat_sub_one c n]

/-- A stall that begins at `y` and has two cycles to go at `e` is over at `y'`. -/
structure StallOver (y e y' : System) : Prop where
  counter : y'.AtDecode
  bubble : y'.Bubble
  two : e.cpu.decode = { y.cpu.decode with stallCounter := 2#5 }
  special : ∃ q : Bool,
    let d := e.cpu.decodeAtTwo (e.cpuIn q) { y.cpu.decode with stallCounter := 1#5 }
    y'.cpu.decode.ireta = d.ireta ∧ y'.cpu.decode.idsta = d.idsta ∧ y'.cpu.decode.ie = d.ie
  pcVal : y'.cpu.fetch.pcVal = e.cpu.fetchAtTwo.pc

variable (order) in
/-- **A stall of `c` cycles.** -/
theorem stall_window (hc : y.cpu.decode.stallCounter = c) (h2 : 2 ≤ c.toNat)
    (irq : Nat → Bool) :
    (∀ j < c.toNat, ¬ (runFrom order y irq j).AtDecode ∧
      (runFrom order y irq j).cpu.decode.multiStageDataExecute
        = y.cpu.decode.multiStageDataExecute) ∧
    StallOver y (runFrom order y irq (c.toNat - 2)) (runFrom order y irq c.toNat) := by
  obtain ⟨n, hn⟩ : ∃ n, c.toNat = n + 2 := ⟨c.toNat - 2, by omega⟩
  have hrun := fun {m} (hm : m ≤ n) =>
    stall_run order hc irq (n := m) (show m + 2 ≤ c.toNat by omega)
  have htwo : (runFrom order y irq n).cpu.decode = { y.cpu.decode with stallCounter := 2#5 } := by
    rw [hrun (le_refl n), Lib.Countdown.sub_ofNat_eq c (k := 2) hn]
  -- the last two edges of the stall
  have hd1 : (runFrom order y irq (n + 1)).cpu.decode
      = (runFrom order y irq n).cpu.decodeAtTwo ((runFrom order y irq n).cpuIn (irq n))
          { y.cpu.decode with stallCounter := 1#5 } := by
    have hstep := step_decode_atTwo order (irq n) (y := runFrom order y irq n) (by rw [htwo])
    rw [htwo] at hstep
    exact hstep
  have hf1 : (runFrom order y irq (n + 1)).cpu.fetch
      = (runFrom order y irq n).cpu.fetchAtTwo := by
    rw [runFrom_succ, step_fetch, Frost32Cpu.fetchStage_atTwo rfl (by rw [htwo])]
  have hc1 : (runFrom order y irq (n + 1)).cpu.decode.stallCounter = 1#5 := by
    rw [hd1, Frost32Cpu.decodeAtTwo_frame]
  have hl1 : (runFrom order y irq (n + 1)).cpu.decode.multiStageDataExecute
      = y.cpu.decode.multiStageDataExecute := by
    rw [hd1, Frost32Cpu.decodeAtTwo_frame]
  have hd0 : (runFrom order y irq (n + 2)).cpu.decode =
      { (runFrom order y irq (n + 1)).cpu.decode with
        stallCounter := 0#5
        multiStageDataExecute := (runFrom order y irq
          (n + 1)).cpu.decode.multiStageDataExecute.makeBubble } := by
    rw [runFrom_succ, step_decode, Frost32Cpu.decodeStage_inStall rfl (by rw [hc1]; decide),
      Frost32Cpu.decodeInStall_atOne hc1]
  have hf0 : (runFrom order y irq (n + 2)).cpu.fetch
      = (runFrom order y irq (n + 1)).cpu.fetch.prepLoadFollowingInstruction := by
    rw [runFrom_succ, step_fetch, Frost32Cpu.fetchStage_atOne rfl hc1]
  rw [hn, show n + 2 - 2 = n by omega]
  constructor
  · intro j hj
    by_cases hj1 : j = n + 1
    · subst hj1
      exact ⟨fun h => absurd (hc1.symm.trans h) (by decide), hl1⟩
    · have hjn : (runFrom order y irq j).cpu.decode = _ := hrun (show j ≤ n by omega)
      refine ⟨fun h => ?_, by rw [hjn]⟩
      rw [AtDecode, hjn] at h
      exact Lib.Countdown.sub_ofNat_ne_zero c (by omega) h
  · refine ⟨?_, ?_, htwo, ⟨irq n, ?_⟩, ?_⟩
    · rw [AtDecode, hd0]
    · rw [Bubble, hd0]
      rfl
    · rw [hd0, hd1]
      exact ⟨rfl, rfl, rfl⟩
    · rw [hf0, hf1]
      rfl

/-! ### From one decoded instruction to the next -/

theorem accepts_iff : Accepts irq y ↔ y.AtDecode ∧ y.cpu.decode.ie = true ∧ irq = true := by
  unfold Accepts AtDecode
  rw [shouldService_eq, Bool.and_eq_true, Bool.eq_false_iff, ne_eq, Frost32Cpu.inStall_iff,
    not_not, and_comm (a := irq = true)]

/-- The instruction in decode and its address. -/
theorem multiStageDataInstrDecode_decoded (irq : Bool) :
    y.cpu.multiStageDataInstrDecode (y.cpuIn irq) = .ofWord y.decoded y.cpu.fetch.pcVal := rfl

variable (order) in
/-- **An accepted interrupt.** -/
theorem accept_window (ha : Accepts irq y) (input : Nat → Bool) :
    let z := runFrom order (y.step order irq) input
    (∀ j < 2, ¬ (z j).AtDecode ∧ (z j).Bubble) ∧ (z 2).AtDecode ∧ (z 2).Bubble ∧
      (z 0).cpu.decode.ireta = y.cpu.fetch.pcVal ∧ (z 2).cpu.decode.ireta = y.cpu.fetch.pcVal ∧
      (z 2).cpu.fetch.pcVal = y.cpu.decode.idsta ∧ (z 2).cpu.decode.ie = false := by
  have h0 := (accepts_iff.mp ha).1
  have hd : (y.step order irq).cpu.decode = y.cpu.respondToInterrupt := by
    rw [step_decode, Frost32Cpu.decodeStage_accept rfl h0 ha.2]
  obtain ⟨hmid, hover⟩ := stall_window order (y := y.step order irq) (c := 2#5)
    (by rw [hd]; rfl) (by decide) input
  have hbub : (y.step order irq).cpu.decode.multiStageDataExecute.makeBubble
      = (y.step order irq).cpu.decode.multiStageDataExecute := by rw [hd]; rfl
  obtain ⟨q, hireta, -, hie⟩ := hover.special
  -- the stall begins with its last two cycles
  have he : (runFrom order (y.step order irq) input ((2#5).toNat - 2)).cpu.decode
      = y.cpu.respondToInterrupt := hd
  refine ⟨fun j hj => ⟨(hmid j hj).1, ?_⟩, hover.counter, hover.bubble, ?_, ?_, ?_, ?_⟩
  · rw [Bubble, (hmid j hj).2, hbub]
  · exact congrArg DecodeRegs.ireta hd
  · refine hireta.trans ?_
    unfold Frost32Cpu.decodeAtTwo
    rw [he, hd]
    rfl
  · refine hover.pcVal.trans ?_
    unfold Frost32Cpu.fetchAtTwo
    rw [he]
    rfl
  · refine hie.trans ?_
    unfold Frost32Cpu.decodeAtTwo
    rw [he]
    rfl

/-- The special registers at the next decoded instruction `y'` after `w` has been sent
    from `y`. -/
structure Followed (w : Word) (y y' : System) : Prop where
  ireta : ¬ IsCpyIreta w → y'.cpu.decode.ireta = y.cpu.decode.ireta
  ie : ¬ IsEi w → ¬ IsReti w → y.cpu.decode.ie = false → y'.cpu.decode.ie = false
  reti : IsReti w → y'.cpu.fetch.pcVal = y.cpu.decode.ireta ∧ y'.cpu.decode.ie = true

/-- The stall states of the other groups leave the special registers alone. -/
private theorem decodeAtTwo_of_group {w pc : Word} {old : StallState} {i : PortInFrost32Cpu}
    {s : Frost32Cpu} {d : DecodeRegs} (hg : Isa.group w ≠ 6#4) (hm : ¬ IsMuli w)
    (hst : (instrDecoder w).causesStall = true)
    (hs : s.decode.stallState = (MultiStageData.ofWord w pc).nextStallState old) :
    s.decodeAtTwo i d = d := by
  have hother : (MultiStageData.ofWord w pc).nextStallState old = .stMulDiv ∨
      (MultiStageData.ofWord w pc).nextStallState old = .stCtrlFlowBranch ∨
      (MultiStageData.ofWord w pc).nextStallState old = .stCtrlFlowJumpCall ∨
      (MultiStageData.ofWord w pc).nextStallState old = .stMemAccess := by
    obtain ⟨h0, h2, h3, h4, h5, -⟩ := stall_of_group (w := w) pc old
    rcases group_cases w with h | h | h | h | h | h | h | h
    · exact Or.inl (h0 h).1
    · rw [instrDecoder_of_group1 h] at hst
      exact absurd ⟨h, by simpa using hst⟩ hm
    · exact Or.inr (Or.inl (h2 h).1)
    · exact Or.inr (Or.inr (Or.inl (h3 h).1))
    · exact Or.inr (Or.inr (Or.inl (h4 h).1))
    · exact Or.inr (Or.inr (Or.inr (h5 h).1))
    · exact absurd h hg
    · rw [instrDecoder_of_undefined h] at hst
      exact absurd hst (by simp)
  unfold Frost32Cpu.decodeAtTwo
  rw [hs]
  rcases hother with h | h | h | h <;> rw [h]

/-- What a stalling instruction does to the special registers. -/
private theorem followed_of_stallOver {w pc : Word} {y₁ e y' : System} (hm : ¬ IsMuli w)
    (hst : (instrDecoder w).causesStall = true)
    (hd : y₁.cpu.decode = { y.cpu.decode with
      stallCounter := (MultiStageData.ofWord w pc).nextStallCounter
      stallState := (MultiStageData.ofWord w pc).nextStallState y.cpu.decode.stallState
      multiStageDataExecute := .ofWord w pc
      iretaData := y.cpu.decode.ireta
      idstaData := y.cpu.decode.idsta })
    (h : StallOver y₁ e y') : Followed w y y' := by
  have hlat : e.cpu.decode.multiStageDataExecute = .ofWord w pc := by rw [h.two, hd]
  have hstate : e.cpu.decode.stallState
      = (MultiStageData.ofWord w pc).nextStallState y.cpu.decode.stallState := by
    rw [h.two, hd]
  obtain ⟨q, hireta, -, hie⟩ := h.special
  by_cases hg : Isa.group w = 6#4
  · have hs := ((stall_of_group (w := w) pc y.cpu.decode.stallState).2.2.2.2.2 hg).1
    rw [hs] at hstate
    by_cases h6 : Isa.opcodeLow w = 6#4
    · rw [interruptsStallState, if_pos h6] at hstate
      unfold Frost32Cpu.decodeAtTwo at hireta hie
      rw [hstate, hd] at hireta hie
      refine ⟨fun _ => hireta, fun _ hr => absurd ⟨hg, h6⟩ hr, fun _ => ⟨?_, hie⟩⟩
      refine h.pcVal.trans ?_
      unfold Frost32Cpu.fetchAtTwo
      rw [hstate, h.two, hd]
      rfl
    · rw [interruptsStallState, if_neg h6] at hstate
      have hop : e.cpu.decode.multiStageDataExecute.instrOpcode = Isa.opcodeLow w := by
        rw [hlat]
        show (instrDecoder w).opcode = _
        rw [instrDecoder_of_group6 hg]
      have hdec : (e.cpu.multiStageDataInstrDecode (e.cpuIn q)).instrOpcode
          = Isa.opcodeLow w := by
        rw [Frost32Cpu.multiStageDataInstrDecode_eq, Frost32Cpu.inInstrDecoder,
          if_pos (Frost32Cpu.inStall_eq_true
            (by rw [h.two]; exact (show ¬ 2#5 = _ by decide))), hlat]
        show (instrDecoder w).opcode = _
        rw [instrDecoder_of_group6 hg]
      rw [Frost32Cpu.decodeAtTwo_otherInterruptsStuff hstate, hop, hdec, hd] at hireta hie
      refine ⟨fun hne => ?_, fun hne _ he => ?_, fun hr => absurd hr.2 h6⟩
      · rw [if_neg (fun h2 => hne ⟨hg, h2⟩)] at hireta
        split at hireta <;> exact hireta
      · -- the copies leave `ie`, and the opcode is not that of `ei`
        split at hie
        · exact hie.trans he
        · split at hie
          · exact hie.trans he
          · refine hie.trans (beq_eq_false_iff_ne.mpr fun h0 => hne ⟨hg, h0⟩)
  · -- `ireta` and `ie` are those of the cycle that sent the instruction
    rw [decodeAtTwo_of_group hg hm hst hstate, hd] at hireta hie
    exact ⟨fun _ => hireta, fun _ _ he => hie.trans he, fun hr => absurd hr.1 hg⟩

variable (order) in
/-- **An instruction that is sent.** -/
theorem send_window (hs : Sends irq y) (input : Nat → Bool) :
    let z := runFrom order (y.step order irq) input
    ∃ n < 24, (∀ j < n, ¬ (z j).AtDecode ∧ (z j).Executes y.decoded y.cpu.fetch.pcVal) ∧
      (z n).AtDecode ∧
      (n = 0 → (z n).Executes y.decoded y.cpu.fetch.pcVal) ∧ (n ≠ 0 → (z n).Bubble) ∧
      (¬ IsMuli y.decoded → Followed y.decoded y (z n)) := by
  have h0 := hs.1
  have hd : (y.step order irq).cpu.decode = y.cpu.sendInstrThrough (y.cpuIn irq) := by
    rw [step_decode, Frost32Cpu.decodeStage_send rfl h0]
    rw [Bool.eq_false_iff]
    exact fun ha => hs.2 ⟨Frost32Cpu.inStall_eq_false y.cpu h0, ha⟩
  rw [Frost32Cpu.sendInstrThrough, multiStageDataInstrDecode_decoded] at hd
  cases hst : (instrDecoder y.decoded).causesStall with
  | false =>
    have hcs : (MultiStageData.ofWord y.decoded y.cpu.fetch.pcVal).instrCausesStall = false := hst
    rw [hcs] at hd
    have hz : (runFrom order (y.step order irq) input 0).cpu.decode
        = (y.step order irq).cpu.decode := rfl
    refine ⟨0, by omega, fun j hj => absurd hj (by omega), ?_, fun _ => ?_, fun h => absurd rfl h,
      fun _ => ⟨fun _ => ?_, fun _ _ he => ?_, fun hr => ?_⟩⟩
    · rw [AtDecode, hz, hd]
      exact h0
    · rw [Executes, hz, hd]
    · rw [hz, hd]
    · rw [hz, hd]
      exact he
    · -- `reti` stalls
      rw [instrDecoder_of_group6 hr.1] at hst
      simp [hr.2] at hst
  | true =>
    have hcs : (MultiStageData.ofWord y.decoded y.cpu.fetch.pcVal).instrCausesStall = true := hst
    rw [hcs] at hd
    simp only [if_true] at hd
    have h2 := MultiStageData.two_le_nextStallCounter (.ofWord y.decoded y.cpu.fetch.pcVal)
    obtain ⟨hmid, hover⟩ := stall_window order (y := y.step order irq)
      (c := (MultiStageData.ofWord y.decoded y.cpu.fetch.pcVal).nextStallCounter) (by rw [hd]) h2
      input
    refine ⟨_, MultiStageData.nextStallCounter_lt _, fun j hj => ⟨(hmid j hj).1, ?_⟩,
      hover.counter, fun he => ?_, fun _ => hover.bubble,
      fun hm => followed_of_stallOver hm hst hd hover⟩
    · rw [Executes, (hmid j hj).2, hd]
    · rw [he] at h2
      exact absurd h2 (by omega)

/-! ### Every run -/

/-- The cycles in which an instruction is decoded. -/
def decodes (z : Nat → System) (t : Nat) : Prop := (z t).AtDecode

/-- **Precise interrupts**, of a run `z` that sees `irq` on the interrupt line. -/
structure PreciseInterrupts (z : Nat → System) (irq : Nat → Bool) : Prop where
  /-- The first instruction is decoded in cycle 2; until then nothing is executed. -/
  start : Lib.NextAt (decodes z) 0 2 ∧ ∀ t ≤ 2, (z t).Bubble
  /-- The word in decode is the memory word at `pc_val`. -/
  word : ∀ t, decodes z t →
    (z t).decoded = (z t).ram.mem (ramIndex (z t).cpu.fetch.pcVal)
  /-- An interrupt is accepted out of a stall and with `ie` set only. -/
  accepted : ∀ t, Accepts (irq t) (z t) →
    (z t).cpu.decode.stallCounter = 0#5 ∧ (z t).cpu.decode.ie = true ∧ irq t = true
  /-- `ireta` receives the address in decode, nothing is executed, and the instruction at
      `idsta` is decoded next, with `ie` cleared. -/
  response : ∀ t, Accepts (irq t) (z t) →
    (z (t + 1)).cpu.decode.ireta = (z t).cpu.fetch.pcVal ∧
    ∃ t', Lib.NextAt (decodes z) t t' ∧ (∀ u, t < u → u ≤ t' → (z u).Bubble) ∧
      (z t').cpu.fetch.pcVal = (z t).cpu.decode.idsta ∧ (z t').cpu.decode.ie = false
  /-- No further interrupt before an `ei` or a `reti`. -/
  exclusive : ∀ t t', t < t' → Accepts (irq t) (z t) → Accepts (irq t') (z t') →
    (∀ u, t < u → u < t' → Sends (irq u) (z u) → ¬ IsMuli (z u).decoded) →
    ∃ u, t < u ∧ u < t' ∧ Sends (irq u) (z u) ∧ (IsEi (z u).decoded ∨ IsReti (z u).decoded)
  /-- After `reti` the instruction at `ireta` is decoded, with `ie` set. -/
  returns : ∀ t, Sends (irq t) (z t) → IsReti (z t).decoded →
    ∃ t', Lib.NextAt (decodes z) t t' ∧
      (z t').cpu.fetch.pcVal = (z t).cpu.decode.ireta ∧
      (z t').cpu.decode.ireta = (z t).cpu.decode.ireta ∧ (z t').cpu.decode.ie = true
  /-- An instruction that is sent is in the execute stage from then on until the next one is
      decoded, and is gone if that took a stall. -/
  sent : ∀ t, Sends (irq t) (z t) →
    ∃ t', Lib.NextAt (decodes z) t t' ∧
      (∀ u, t < u → u < t' → (z u).Executes (z t).decoded (z t).cpu.fetch.pcVal) ∧
      (t' = t + 1 → (z t').Executes (z t).decoded (z t).cpu.fetch.pcVal) ∧
      (t' ≠ t + 1 → (z t').Bubble)
  /-- A handler that neither writes `ireta` nor sets `ie` returns to the instruction it
      interrupted, which has not been sent, and is itself not interrupted. -/
  resumes : ∀ t r, t < r → Accepts (irq t) (z t) → Sends (irq r) (z r) → IsReti (z r).decoded →
    (∀ u, t < u → u < r → Sends (irq u) (z u) →
      ¬ IsEi (z u).decoded ∧ ¬ IsReti (z u).decoded ∧ ¬ IsMuli (z u).decoded ∧
        ¬ IsCpyIreta (z u).decoded) →
    (∀ u, t < u → u < r → ¬ Accepts (irq u) (z u)) ∧
    ∃ t', Lib.NextAt (decodes z) r t' ∧ (z t').cpu.fetch.pcVal = (z t).cpu.fetch.pcVal ∧
      (z t').cpu.decode.ie = true

section Run

variable (order) (junk : System) (mem : BitVec 11 → Word) (irq : Nat → Bool)

/-- What follows an accepted interrupt. -/
theorem next_of_accepts (y : System) {t : Nat} (ha : Accepts (irq t) (runFrom order y irq t)) :
    let z := runFrom order y irq
    Lib.NextAt (decodes z) t (t + 3) ∧ (∀ u, t < u → u ≤ t + 3 → (z u).Bubble) ∧
      (z (t + 1)).cpu.decode.ireta = (z t).cpu.fetch.pcVal ∧
      (z (t + 3)).cpu.decode.ireta = (z t).cpu.fetch.pcVal ∧
      (z (t + 3)).cpu.fetch.pcVal = (z t).cpu.decode.idsta ∧
      (z (t + 3)).cpu.decode.ie = false := by
  -- the response is a stall of two cycles
  obtain ⟨hmid, hc, hb, hi1, hi3, hpc, hie⟩ := accept_window order ha (fun k => irq (t + 1 + k))
  have hafter := runFrom_after order y irq t
  refine ⟨⟨by omega, ?_, ?_⟩, ?_, hi1, ?_, ?_, ?_⟩
  · rw [decodes, hafter 2]
    exact hc
  · intro j hlo hhi
    obtain ⟨i, rfl⟩ : ∃ i, j = t + 1 + i := ⟨j - (t + 1), by omega⟩
    rw [decodes, hafter i]
    exact (hmid i (by omega)).1
  · intro u hlo hhi
    obtain ⟨i, rfl⟩ : ∃ i, u = t + 1 + i := ⟨u - (t + 1), by omega⟩
    rw [hafter i]
    by_cases hi : i < 2
    · exact (hmid i hi).2
    · obtain rfl : i = 2 := by omega
      exact hb
  · rw [hafter 2]
    exact hi3
  · rw [hafter 2]
    exact hpc
  · rw [hafter 2]
    exact hie

/-- What follows an instruction that is sent. -/
theorem next_of_sends (y : System) {t : Nat} (hs : Sends (irq t) (runFrom order y irq t)) :
    let z := runFrom order y irq
    ∃ t', Lib.NextAt (decodes z) t t' ∧
      (∀ u, t < u → u < t' → (z u).Executes (z t).decoded (z t).cpu.fetch.pcVal) ∧
      (t' = t + 1 → (z t').Executes (z t).decoded (z t).cpu.fetch.pcVal) ∧
      (t' ≠ t + 1 → (z t').Bubble) ∧
      (¬ IsMuli (z t).decoded → Followed (z t).decoded (z t) (z t')) := by
  obtain ⟨n, -, hmid, hc, h0, hn, hfol⟩ := send_window order hs (fun k => irq (t + 1 + k))
  have hafter := runFrom_after order y irq t
  rw [← hafter n] at hc h0 hn hfol
  refine ⟨t + 1 + n, ⟨by omega, hc, ?_⟩, ?_, fun he => h0 (by omega), fun he => hn (by omega),
    hfol⟩
  · intro j hlo hhi
    obtain ⟨i, rfl⟩ : ∃ i, j = t + 1 + i := ⟨j - (t + 1), by omega⟩
    rw [decodes, hafter i]
    exact (hmid i (by omega)).1
  · intro u hlo hhi
    obtain ⟨i, rfl⟩ : ∃ i, u = t + 1 + i := ⟨u - (t + 1), by omega⟩
    show (runFrom order y irq (t + 1 + i)).Executes _ _
    rw [hafter i]
    exact (hmid i (by omega)).2

/-- **In a handler** `ie` stays low until `ei` or `reti`, and `ireta` stays until it is
    written. -/
theorem handler_run (y : System) {t : Nat} (ha : Accepts (irq t) (runFrom order y irq t)) :
    let z := runFrom order y irq
    ∀ r, t < r → decodes z r →
      (∀ u, t < u → u < r → Sends (irq u) (z u) →
        ¬ IsEi (z u).decoded ∧ ¬ IsReti (z u).decoded ∧ ¬ IsMuli (z u).decoded) →
      (z r).cpu.decode.ie = false ∧
        ((∀ u, t < u → u < r → Sends (irq u) (z u) → ¬ IsCpyIreta (z u).decoded) →
          (z r).cpu.decode.ireta = (z t).cpu.fetch.pcVal) := by
  intro z
  obtain ⟨hnx, -, -, hireta, -, hie⟩ := next_of_accepts order irq y ha
  refine Lib.NextAt.induction (accepts_iff.mp ha).1 ?_ ?_
  · intro r hr _
    obtain rfl := hr.unique hnx
    exact ⟨hie, fun _ => hireta⟩
  · -- the instruction at `u` is sent, as `ie` is low there
    intro u r htu hu ih hur hno
    obtain ⟨ihie, ihireta⟩ := ih (fun v hv hvu => hno v hv (hvu.trans hur.lt))
    have hsend : Sends (irq u) (z u) :=
      ⟨hu, fun hacc => Bool.noConfusion (ihie.symm.trans (accepts_iff.mp hacc).2.1)⟩
    obtain ⟨hei, hreti, hmuli⟩ := hno u htu hur.lt hsend
    obtain ⟨r', hr', -, -, -, hfol⟩ := next_of_sends order irq y hsend
    obtain rfl := hur.unique hr'
    have hf := hfol hmuli
    refine ⟨hf.ie hei hreti ihie, fun hcpy => ?_⟩
    rw [hf.ireta (hcpy u htu hur.lt hsend)]
    exact ihireta (fun v hv hvu => hcpy v hv (hvu.trans hur.lt))

/-- `reti` is neither `muli` nor a copy to `ireta`. -/
private theorem isReti_excludes {w : Word} (h : IsReti w) : ¬ IsMuli w ∧ ¬ IsCpyIreta w := by
  constructor
  · intro hm
    exact absurd (h.1.symm.trans hm.1) (by decide)
  · intro hc
    exact absurd (h.2.symm.trans hc.2) (by decide)

/-- **Interrupts are precise in every run of the CPU with its memory.** -/
theorem interrupts_precise :
    PreciseInterrupts (runFrom order (init junk mem) irq) irq := by
  have hstart := (init_leads order junk mem).run irq
  refine ⟨⟨⟨by omega, hstart.1.counter, fun j _ hj => hstart.2 j hj⟩, ?_⟩, ?_, ?_, ?_, ?_, ?_, ?_,
    ?_⟩
  · -- the initial stall
    obtain ⟨hmid, hover⟩ := stall_window order (y := init junk mem) (c := 2#5) rfl (by decide) irq
    intro t ht
    by_cases h2 : t = 2
    · subst h2
      exact hover.bubble
    · rw [Bubble, (hmid t (by simp; omega)).2]
      rfl
  · intro t ht
    have hinv := inv_run order junk mem irq t
    have hw := hinv.word ht
    rw [decoded, Frost32Cpu.inInstrDecoder,
      if_neg (by rw [Frost32Cpu.inStall_eq_false _ ht]; exact Bool.false_ne_true)]
    exact hw
  · intro t ha
    exact accepts_iff.mp ha
  · intro t ha
    obtain ⟨hnx, hbub, hi1, -, hpc, hie⟩ := next_of_accepts order irq _ ha
    exact ⟨hi1, t + 3, hnx, hbub, hpc, hie⟩
  · intro t t' htt ha ha' hm
    by_contra hno
    have hrun := handler_run order irq _ ha t' htt (accepts_iff.mp ha').1 (fun u hu hut hs =>
      ⟨fun he => hno ⟨u, hu, hut, hs, Or.inl he⟩, fun hr => hno ⟨u, hu, hut, hs, Or.inr hr⟩,
        hm u hu hut hs⟩)
    exact Bool.noConfusion (hrun.1.symm.trans (accepts_iff.mp ha').2.1)
  · intro t hs hr
    obtain ⟨t', hnx, -, -, -, hfol⟩ := next_of_sends order irq _ hs
    have hf := hfol (isReti_excludes hr).1
    exact ⟨t', hnx, (hf.reti hr).1, hf.ireta (isReti_excludes hr).2, (hf.reti hr).2⟩
  · intro t hs
    obtain ⟨t', hnx, hexec, h1, hb, -⟩ := next_of_sends order irq _ hs
    exact ⟨t', hnx, hexec, h1, hb⟩
  · intro t r htr ha hs hr hno
    have hrun := handler_run order irq _ ha
    constructor
    · intro u htu hur hacc
      have hie := (hrun u htu (accepts_iff.mp hacc).1 fun v hv hvu hsv => by
        obtain ⟨hei, hreti, hmuli, -⟩ := hno v hv (hvu.trans hur) hsv
        exact ⟨hei, hreti, hmuli⟩).1
      exact Bool.noConfusion (hie.symm.trans (accepts_iff.mp hacc).2.1)
    · have hireta := (hrun r htr hs.1 fun v hv hvr hsv => by
        obtain ⟨hei, hreti, hmuli, -⟩ := hno v hv hvr hsv
        exact ⟨hei, hreti, hmuli⟩).2 (fun v hv hvr hsv => (hno v hv hvr hsv).2.2.2)
      obtain ⟨t', hnx, -, -, -, hfol⟩ := next_of_sends order irq _ hs
      have hf := hfol (isReti_excludes hr).1
      exact ⟨t', hnx, (hf.reti hr).1.trans hireta, (hf.reti hr).2⟩

end Run

end System

end Frost32.Hdl
