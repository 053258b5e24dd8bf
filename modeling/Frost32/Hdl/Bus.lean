import Frost32.Hdl.EveryRun

namespace Frost32.Hdl

open Isa (Arch)

/-!
# The memory bus in every run

The CPU has one registered bus for instructions and data.  This file accounts for every
write on it.

* `BusInv` — a write is on the bus only at `stall_counter == 2`, and a store is in the execute
  latch only from `stall_counter == 3` on.
* `write_step_iff` — what makes the next cycle's request a write.
* `storeRequest` — the request of a store, from the state it is decoded in.
* `bus_everyRun` — **the fetch pipeline out of a stall, and one write for each executed store
  and no other**.
-/

/-- The stores of any size. -/
def IsStore (w : Word) : Prop :=
  Isa.group w = 5#4 ∧ (5#3).ule ((Isa.opcodeLow w).extractLsb' 0 3) = true

instance (w : Word) : Decidable (IsStore w) := inferInstanceAs (Decidable (_ ∧ _))

/-- The size of a load or store. -/
def LdstType.accessSize : LdstType → DataInoutAccessSize
  | .ld32 | .st32 => .dias32
  | .ldU16 | .ldS16 | .st16 => .dias16
  | .ldU8 | .ldS8 | .st8 => .dias8

/-- The request of the store `w` of the state `a`. -/
def storeRequest (w : Word) (a : Arch) : MemAccess where
  data := a.regs.val (Isa.fieldA w)
  addr := a.ldstAddress w
  dataInoutAccessType := .diatWrite
  dataInoutAccessSize := (instrDecoder w).ldstType.accessSize
  reqMemAccess := true

theorem isStore_ofBits (b : BitVec 3) : (LdstType.ofBits b).isStore = (5#3).ule b := by
  revert b
  decide

/-- The decoder's stores are those of group 5. -/
theorem isStore_iff (w : Word) : (instrDecoder w).ldstType.isStore = true ↔ IsStore w := by
  unfold IsStore
  by_cases h5 : Isa.group w = 5#4
  · rw [instrDecoder_of_group5 h5, isStore_ofBits]
    exact ⟨fun h => ⟨h5, h⟩, fun h => h.2⟩
  · -- the other groups have the load and store type of a load
    have hld : (instrDecoder w).ldstType = .ld32 := by
      rcases group_cases w with hg | hg | hg | hg | hg | hg | hg | hg
      · rw [instrDecoder_of_group0 hg]
      · rw [instrDecoder_of_group1 hg]
      · rw [instrDecoder_of_group2 hg]
      · rw [instrDecoder_of_group3 hg]
      · rw [instrDecoder_of_group4 hg]
      · exact absurd hg h5
      · rw [instrDecoder_of_group6 hg]
      · rw [instrDecoder_of_undefined hg]
    rw [hld]
    exact ⟨fun h => absurd h (by decide), fun h => absurd h.1 h5⟩

namespace Frost32Cpu

variable {s : Frost32Cpu}

/-- The request of a store at `stall_counter == 3`. -/
theorem fetchMemAccess_out (hs : s.decode.multiStageDataExecute.instrLdstType.isStore = true) :
    s.fetchMemAccess.out =
      { data := s.rfileData.ra, addr := s.ldstAddress, dataInoutAccessType := .diatWrite,
        dataInoutAccessSize := s.decode.multiStageDataExecute.instrLdstType.accessSize,
        reqMemAccess := true } := by
  unfold fetchMemAccess
  split <;> rename_i ht <;> rw [ht] at hs ⊢ <;> first | exact absurd hs (by decide) | rfl

end Frost32Cpu

namespace System

variable {order : BlockOrder} {irq : Bool} {y : System}

/-! ### Where writes come from -/

/-- A write is on the bus only in the cycle after the one that asks for it, and a store is
    latched only from the first cycle of its stall on. -/
structure BusInv (y : System) : Prop where
  write : y.cpu.fetch.out.we = true → y.cpu.decode.stallCounter = 2#5
  store : y.cpu.decode.multiStageDataExecute.instrLdstType.isStore = true →
    y.cpu.decode.stallCounter.toNat ≤ 3

theorem BusInv.quiet (hb : y.BusInv) (h : y.cpu.decode.stallCounter ≠ 2#5) :
    y.cpu.fetch.out.we = false := by
  rw [← Bool.not_eq_true]
  exact fun hwe => h (hb.write hwe)

/-- The counter values the fetch stage tells apart. -/
theorem counter_cases (c : BitVec 5) :
    c = 0#5 ∨ c = 1#5 ∨ c = 2#5 ∨ c = 3#5 ∨ 3 < c.toNat := by
  revert c
  decide

/-- The cycle asks for a write. -/
def AsksWrite (y : System) : Prop :=
  y.cpu.decode.stallCounter = 3#5 ∧ y.cpu.decode.stallState = .stMemAccess ∧
    y.cpu.decode.multiStageDataExecute.instrLdstType.isStore = true

variable (order irq) in
/-- **A write is on the bus in the cycles after those that ask for one, and in no other.** -/
theorem write_step_iff (hi : y.Inv) (hb : y.BusInv) :
    (y.step order irq).cpu.fetch.out.we = true ↔ y.AsksWrite := by
  unfold AsksWrite
  rw [step_fetch]
  rcases counter_cases y.cpu.decode.stallCounter with h | h | h | h | h
  · -- the bus goes on reading instructions
    have hread : (y.cpu.fetchStage (y.cpuIn irq)).out.we = false := by
      cases ha : y.cpu.shouldServiceInterruptIfNotInStall (y.cpuIn irq) with
      | true => rw [Frost32Cpu.fetchStage_accept rfl h ha, (hi.atZero h).1]; rfl
      | false =>
        cases hst : (y.cpu.multiStageDataInstrDecode (y.cpuIn irq)).instrCausesStall with
        | true => rw [Frost32Cpu.fetchStage_send_stall rfl h ha hst, (hi.atZero h).1]; rfl
        | false => rw [Frost32Cpu.fetchStage_send rfl h ha hst]; rfl
    rw [hread, h]
    exact ⟨fun h => absurd h (by decide), fun h => absurd h.1 (by decide)⟩
  · rw [Frost32Cpu.fetchStage_atOne rfl h, h]
    exact ⟨fun h => absurd h (by simp [FetchRegs.prepLoadFollowingInstruction]),
      fun h => absurd h.1 (by decide)⟩
  · obtain ⟨addr, ha⟩ := Frost32Cpu.fetchAtTwo_eq hi.state
    rw [Frost32Cpu.fetchStage_atTwo rfl h, ha, h]
    exact ⟨fun h => absurd h (by simp), fun h => absurd h.1 (by decide)⟩
  · have hquiet : y.cpu.fetch.out.we = false := hb.quiet (by rw [h]; decide)
    rw [Frost32Cpu.fetchStage_atThree rfl h, Frost32Cpu.fetchAtThree]
    cases hs : y.cpu.decode.stallState with
    | stMemAccess =>
      dsimp only
      rw [Frost32Cpu.fetchMemAccess_we]
      exact ⟨fun hw => ⟨h, rfl, hw⟩, fun hw => hw.2.2⟩
    | _ =>
      exact ⟨fun h => absurd (hquiet.symm.trans h) (by decide),
        fun h => absurd h.2.1 (by decide)⟩
  · have h23 : y.cpu.decode.stallCounter ≠ 2#5 ∧ y.cpu.decode.stallCounter ≠ 3#5 := by
      constructor <;> intro he <;> rw [he] at h <;> exact absurd h (by decide)
    rw [Frost32Cpu.fetchStage_beyond rfl h, hb.quiet h23.1]
    exact ⟨fun h => absurd h (by decide), fun h => absurd h.1 h23.2⟩

/-- An edge keeps the latch, empties it, or sends the word in decode. -/
theorem latch_step (order : BlockOrder) (irq : Bool) (y : System) :
    let m := (y.step order irq).cpu.decode.multiStageDataExecute
    (m = y.cpu.decode.multiStageDataExecute ∧ y.cpu.decode.stallCounter ≠ 0#5 ∧
        (y.step order irq).cpu.decode.stallCounter = y.cpu.decode.stallCounter - 1#5) ∨
      m.instrLdstType = .ld32 ∨
      (y.AtDecode ∧ y.sends irq = true ∧ m = .ofWord y.decoded y.cpu.fetch.pcVal) := by
  intro m
  by_cases h0 : y.cpu.decode.stallCounter = 0#5
  · right
    -- without a stall an interrupt is served or the word is sent
    cases ha : y.cpu.shouldServiceInterruptIfNotInStall (y.cpuIn irq) with
    | true =>
      have hd : (y.step order irq).cpu.decode = y.cpu.respondToInterrupt := by
        rw [step_decode, Frost32Cpu.decodeStage_accept rfl h0 ha]
      left
      show (y.step order irq).cpu.decode.multiStageDataExecute.instrLdstType = _
      rw [hd]
      rfl
    | false =>
      have hd : (y.step order irq).cpu.decode = y.cpu.sendInstrThrough (y.cpuIn irq) := by
        rw [step_decode, Frost32Cpu.decodeStage_send rfl h0 ha]
      right
      refine ⟨h0, ?_, ?_⟩
      · rw [shouldService_eq] at ha
        unfold sends
        rw [ha]
        rfl
      · show (y.step order irq).cpu.decode.multiStageDataExecute = _
        rw [hd]
        rfl
  · have hd : (y.step order irq).cpu.decode = y.cpu.decodeInStall (y.cpuIn irq) := by
      rw [step_decode, Frost32Cpu.decodeStage_inStall rfl h0]
    -- the last cycle of a stall leaves a bubble
    by_cases h1 : y.cpu.decode.stallCounter = 1#5
    · right
      left
      show (y.step order irq).cpu.decode.multiStageDataExecute.instrLdstType = _
      rw [hd, Frost32Cpu.decodeInStall_atOne h1]
      rfl
    · left
      refine ⟨?_, h0, ?_⟩
      · show (y.step order irq).cpu.decode.multiStageDataExecute = _
        rw [hd, Frost32Cpu.decodeInStall_latch h1]
      · rw [hd, Frost32Cpu.decodeInStall_stallCounter]

theorem causesStall_of_store {w : Word} (hw : IsStore w) :
    (instrDecoder w).causesStall = true := causesStall_of_ldst hw.1

/-- The stall of a store. -/
theorem stall_of_store {w : Word} (hw : IsStore w) (pc : Word) (old : StallState) :
    (MultiStageData.ofWord w pc).nextStallState old = .stMemAccess ∧
      (MultiStageData.ofWord w pc).nextStallCounter = 3#5 :=
  (stall_of_group (w := w) pc old).2.2.2.2.1 hw.1

/-- The decode stage after sending an instruction. -/
theorem send_decode_eq (ht : y.AtDecode) (hs : y.sends irq = true) :
    (y.step order irq).cpu.decode = y.cpu.sendInstrThrough (y.cpuIn irq) := by
  rw [step_decode, Frost32Cpu.decodeStage_send rfl ht]
  rw [shouldService_eq]
  exact not_accepted_of_sends hs

variable (order) in
/-- … and the stall it starts. -/
theorem send_stall (ht : y.AtDecode) (hs : y.sends irq = true)
    (hst : (instrDecoder y.decoded).causesStall = true) :
    (y.step order irq).cpu.decode.stallCounter
        = (MultiStageData.ofWord y.decoded y.cpu.fetch.pcVal).nextStallCounter ∧
      (y.step order irq).cpu.decode.stallState
        = (MultiStageData.ofWord y.decoded y.cpu.fetch.pcVal).nextStallState
            y.cpu.decode.stallState := by
  have hm : y.cpu.multiStageDataInstrDecode (y.cpuIn irq) = .ofWord y.decoded y.cpu.fetch.pcVal :=
    rfl
  have hcs : (MultiStageData.ofWord y.decoded y.cpu.fetch.pcVal).instrCausesStall = true := hst
  rw [send_decode_eq ht hs, Frost32Cpu.sendInstrThrough, hm]
  exact ⟨if_pos hcs, if_pos hcs⟩

/-- **Every edge keeps the account of the bus.** -/
theorem busInv_step (hi : y.Inv) (hb : y.BusInv) : (y.step order irq).BusInv := by
  constructor
  · intro hwe
    obtain ⟨hc, -, -⟩ := (write_step_iff order irq hi hb).mp hwe
    rw [step_decode_beyond order irq (by rw [hc]; decide), hc]
    rfl
  · intro hst
    rcases latch_step order irq y with ⟨hm, h0, hc⟩ | hm | ⟨ht, hs, hm⟩
    · rw [hm] at hst
      have hle := hb.store hst
      rw [hc]
      have hpos : y.cpu.decode.stallCounter.toNat ≠ 0 := fun he =>
        h0 (BitVec.eq_of_toNat_eq he)
      rw [BitVec.toNat_sub]
      simp only [BitVec.toNat_ofNat]
      omega
    · rw [hm] at hst
      exact absurd hst (by decide)
    · rw [hm] at hst
      have hw : IsStore y.decoded := (isStore_iff _).mp hst
      rw [(send_stall order ht hs (causesStall_of_store hw)).1, (stall_of_store hw _ .stInit).2]
      decide

theorem busInv_init (junk : System) (mem : BitVec 11 → Word) : (init junk mem).BusInv :=
  ⟨fun h => absurd h (show ¬ false = true by decide),
    fun h => absurd h (show ¬ false = true by decide)⟩

variable (order irq) in
/-- A cycle asks for a write when a store has been sent in the cycle before. -/
theorem asksWrite_step_iff (hb : y.BusInv) :
    (y.step order irq).AsksWrite ↔ y.AtDecode ∧ y.sends irq = true ∧ IsStore y.decoded := by
  constructor
  · rintro ⟨hc, -, hst⟩
    rcases latch_step order irq y with ⟨hm, -, hc'⟩ | hm | ⟨ht, hs, hm⟩
    · -- a store does not stall for longer
      rw [hm] at hst
      have hle := hb.store hst
      rw [hc'] at hc
      rw [show y.cpu.decode.stallCounter = 4#5 from BitVec.sub_eq_iff_eq_add.mp hc] at hle
      exact absurd hle (by decide)
    · rw [hm] at hst
      exact absurd hst (by decide)
    · rw [hm] at hst
      exact ⟨ht, hs, (isStore_iff _).mp hst⟩
  · rintro ⟨ht, hs, hw⟩
    obtain ⟨hc, hst⟩ := send_stall order ht hs (causesStall_of_store hw)
    obtain ⟨hst', hc'⟩ := stall_of_store hw y.cpu.fetch.pcVal y.cpu.decode.stallState
    refine ⟨hc.trans hc', hst.trans hst', ?_⟩
    rw [send_decode_eq ht hs]
    exact (isStore_iff _).mpr hw

/-- The request of a store two edges after it is decoded. -/
theorem store_request {a : Arch} (h : Decoding a y) (hirq : (irq && a.ie) = false)
    (hw : IsStore a.fetched) (irq' : Bool) :
    ((y.step order irq).step order irq').cpu.fetch.out = storeRequest a.fetched a := by
  have hs := sent_of_decoding order h hirq (causesStall_of_store hw)
  obtain ⟨hstate, hc⟩ := stall_of_store hw a.pc y.cpu.decode.stallState
  rw [hstate, hc] at hs
  have hst : (y.step order irq).cpu.decode.multiStageDataExecute.instrLdstType.isStore = true := by
    rw [hs.latched.ldstType]
    exact (isStore_iff _).mpr hw
  have hra : (y.step order irq).cpu.rfileData.ra = a.regs.val (Isa.fieldA a.fetched) := by
    rw [hs.latched.rfileData, Frost32Cpu.operandsOf, instrDecoder_of_group5 hw.1]
  rw [step_fetch, Frost32Cpu.fetchStage_atThree rfl hs.counter, Frost32Cpu.fetchAtThree, hs.state]
  dsimp only
  rw [Frost32Cpu.fetchMemAccess_out hst, hs.latched.ldstType,
    Frost32Cpu.ldstAddress_eq hs.latched hw.1, hra]
  rfl

/-! ### Runs from the initial values -/

section Run

variable (order : BlockOrder) (junk : System) (mem : BitVec 11 → Word) (irq : Nat → Bool)

theorem busInv_run (t : Nat) : (runFrom order (init junk mem) irq t).BusInv := by
  induction t with
  | zero => exact busInv_init junk mem
  | succ t ih => exact busInv_step (inv_run order junk mem irq t) ih

/-- What the bus carries over the run `z`.  Whenever `stall_counter` is 0, `pc` is the address
    after `pc_val`, the bus reads `pc`, and the word it delivers is the memory word at `pc_val`
    as it is then; and a write is on the bus in exactly one cycle for each executed store, the
    second after the one it is decoded in, with the address and the data of that store. -/
def BusMeaning (z : Nat → System) (irq : Nat → Bool) : Prop :=
  (∀ t, (z t).AtDecode →
    (z t).cpu.fetch.pc = (z t).cpu.fetch.pcVal + 4 ∧
    (z t).cpu.fetch.out = .readOf (z t).cpu.fetch.pc ∧
    ((z t).cpuIn (irq t)).data = (z t).ram.mem (ramIndex (z t).cpu.fetch.pcVal)) ∧
  (∀ u, (z u).cpu.fetch.out.we = true ↔
    ∃ t, u = t + 2 ∧ (z t).AtDecode ∧ (z t).sends (irq t) = true ∧ IsStore (z t).decoded) ∧
  ∀ t, (z t).AtDecode → (z t).sends (irq t) = true → IsStore (z t).decoded →
    (z (t + 2)).cpu.fetch.out = storeRequest (z t).decoded (z t).arch

/-- **The bus in every run.** -/
theorem bus_everyRun : BusMeaning (runFrom order (init junk mem) irq) irq := by
  let z := runFrom order (init junk mem) irq
  have hinv : ∀ t, (z t).Inv := inv_run order junk mem irq
  have hbus : ∀ t, (z t).BusInv := busInv_run order junk mem irq
  refine ⟨fun t ht => ?_, fun u => ?_, fun t ht hs hw => ?_⟩
  · obtain ⟨hout, hpc⟩ := (hinv t).atZero ht
    exact ⟨hpc, hout, (hinv t).word ht⟩
  · match u with
    | 0 => exact ⟨fun h => absurd h (show ¬ false = true by decide), fun ⟨_, h, _⟩ => by omega⟩
    | 1 =>
      -- the stall of the reset does not ask for a write
      refine ⟨fun h => ?_, fun ⟨_, h, _⟩ => by omega⟩
      have hask := (write_step_iff order (irq 0) (hinv 0) (hbus 0)).mp h
      exact absurd hask.1 (show ¬ 2#5 = 3#5 by decide)
    | t + 2 =>
      have hwrite := (write_step_iff order (irq (t + 1)) (hinv (t + 1))
        (hbus (t + 1))).trans (asksWrite_step_iff order (irq t) (hbus t))
      refine hwrite.trans ⟨fun h => ⟨t, rfl, h⟩, ?_⟩
      rintro ⟨v, hv, h⟩
      obtain rfl : t = v := by omega
      exact h
  · have hd : Decoding (z t).arch (z t) := decoding_everyRun order junk mem irq ht
    rw [decoded_eq hd] at hw ⊢
    exact store_request hd (not_accepted_of_sends hs) hw (irq (t + 1))

end Run

end System

end Frost32.Hdl
