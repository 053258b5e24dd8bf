import Frost32.Hdl.Calls
import Frost32.Hdl.Muli

namespace Frost32.Hdl

open Isa (Arch)

/-!
# Every run of the system

`Refinement` follows runs in which only instructions with their documented effect have been
sent.  With the actual effects of `muli`, of the calls and of the 16 and 8-bit accesses at
hand, no run is left out.

* `outcome` — the state in which the next instruction is decoded, whatever is decoded now.
* `decoding_leads_outcome` — **one step of any kind**.
* `decoding_everyRun` — at every `stall_counter == 0` of every run the units are idle and
  the system stands for a state of the machine.
* `next_everyRun` — from one such cycle to the next.
-/

namespace System

variable {order : BlockOrder} {irq : Bool} {y : System} {bo : Isa.ByteOrder} {a : Arch}

/-- What one step of the machine does at `stall_counter == 0`.  Besides the state that the
    instruction set knows, `muli` depends on the stall state and the product left over, and a
    signed call on the comparisons left over. -/
def outcome (bo : Isa.ByteOrder) (irq : Bool) (y : System) : Arch :=
  let w := y.arch.fetched
  if irq && y.arch.ie then Isa.enterInterrupt y.arch
  else if IsMuli w then
    muliOutcome y.cpu.decode.stallState y.cpu.mul32.prod w y.arch
  else if IsCall w then
    callOutcome (earlyCondition w y.cpu.fetch y.arch.regs) w y.arch
  else if IsSubWord w then ldstOutcome w y.arch
  else Isa.exec bo w y.arch

theorem not_accepted_of_sends (hs : y.sends irq = true) : (irq && y.arch.ie) = false :=
  Bool.eq_false_of_not_eq_true' hs

/-- Sending an instruction that stalls keeps what the fetch stage and an idle multiplier
    hold. -/
theorem send_keeps (h : Decoding a y) (hirq : (irq && a.ie) = false)
    (hst : (instrDecoder a.fetched).causesStall = true) :
    (y.step order irq).cpu.fetch = y.cpu.fetch ∧
      (y.step order irq).cpu.mul32 = y.cpu.mul32 := by
  constructor
  · rw [step_fetch, Frost32Cpu.fetchStage_send_stall rfl h.counter]
    · rw [shouldService_eq]
      rw [← h.arch] at hirq
      exact hirq
    · rw [decode_word irq h]; exact hst
  · exact Multiplier32.step_idle h.units.mulLow h.units.mulIdle

theorem stall_of_muli {w : Word} (hw : IsMuli w) (pc : Word) (old : StallState) :
    (MultiStageData.ofWord w pc).nextStallState old = old ∧
      (MultiStageData.ofWord w pc).nextStallCounter = 5#5 := by
  unfold MultiStageData.nextStallState MultiStageData.nextStallCounter MultiStageData.ofWord
  dsimp only
  rw [instrDecoder_of_group1 hw.1]
  exact ⟨rfl, rfl⟩

theorem causesStall_of_muli {w : Word} (hw : IsMuli w) : (instrDecoder w).causesStall = true := by
  rw [instrDecoder_of_group1 hw.1]
  simp [hw.2]

theorem causesStall_of_call {w : Word} (hw : IsCall w) : (instrDecoder w).causesStall = true := by
  rw [instrDecoder_of_group4 hw.1]
  exact hw.2

theorem causesStall_of_ldst {w : Word} (hg : Isa.group w = 5#4) :
    (instrDecoder w).causesStall = true := by
  rw [instrDecoder_of_group5 hg]

section Sending

variable (h : Decoding a y) (hirq : (irq && a.ie) = false)
include h hirq

/-- **`muli`**, with the stall state and the product left over. -/
theorem muli_decoded (hw : IsMuli a.fetched) :
    Leads order (muliOutcome y.cpu.decode.stallState y.cpu.mul32.prod a.fetched a) 5
      (y.step order irq) := by
  have hst := causesStall_of_muli hw
  have hs := sent_of_decoding order h hirq hst
  obtain ⟨hold, hc⟩ := stall_of_muli hw a.pc y.cpu.decode.stallState
  rw [hold, hc] at hs
  have hl := muli_leads order hw hs
  rw [(send_keeps h hirq hst).2] at hl
  exact hl

variable (order) in
/-- **A call**, with the comparisons left over. -/
theorem call_decoded (hw : IsCall a.fetched) :
    Leads order (callOutcome (earlyCondition a.fetched y.cpu.fetch a.regs) a.fetched a)
      (MultiStageData.ofWord a.fetched a.pc).nextStallCounter.toNat (y.step order irq) := by
  have hst := causesStall_of_call hw
  have hs := sent_of_decoding order h hirq hst
  obtain ⟨hstate, hc⟩ := (stall_of_group (w := a.fetched) a.pc
    y.cpu.decode.stallState).2.2.2.1 hw.1
  rw [hstate] at hs
  have hl := call_leads order hw hs hc
  rw [(send_keeps h hirq hst).1] at hl
  exact hl

/-- **A load or store of any size.** -/
theorem ldst_decoded (hg : Isa.group a.fetched = 5#4) :
    Leads order (ldstOutcome a.fetched a) 3 (y.step order irq) := by
  have hs := sent_of_decoding order h hirq (causesStall_of_ldst hg)
  obtain ⟨hstate, hc⟩ := (stall_of_group (w := a.fetched) a.pc
    y.cpu.decode.stallState).2.2.2.2.1 hg
  rw [hstate, hc] at hs
  exact memAccess_leads hg hs

end Sending

variable (order bo irq) in
/-- **One step of any kind takes a bounded number of cycles.** -/
theorem decoding_leads_outcome (h : Decoding y.arch y) :
    ∃ n < 24, Leads order (y.outcome bo irq) n (y.step order irq) := by
  unfold outcome
  dsimp only
  cases hirq : irq && y.arch.ie with
  | true =>
    rw [if_pos rfl]
    exact ⟨2, by omega, accept_leads h hirq⟩
  | false =>
    rw [if_neg Bool.false_ne_true]
    by_cases hmuli : IsMuli y.arch.fetched
    · rw [if_pos hmuli]
      exact ⟨5, by omega, muli_decoded h hirq hmuli⟩
    · by_cases hcall : IsCall y.arch.fetched
      · rw [if_neg hmuli, if_pos hcall]
        exact ⟨_, MultiStageData.nextStallCounter_lt _, call_decoded order h hirq hcall⟩
      · by_cases hsub : IsSubWord y.arch.fetched
        · rw [if_neg hmuli, if_neg hcall, if_pos hsub]
          exact ⟨3, by omega, ldst_decoded h hirq hsub.1⟩
        · rw [if_neg hmuli, if_neg hcall, if_neg hsub]
          obtain ⟨n, hn, hl⟩ := decoding_leads order bo h (fun _ => ⟨hmuli, hcall, hsub⟩)
          unfold Isa.step at hl
          rw [hirq] at hl
          exact ⟨n, hn, hl⟩

/-! ### Runs from the initial values -/

section Run

variable (order : BlockOrder) (junk : System) (mem : BitVec 11 → Word) (irq : Nat → Bool)

/-- **At every `stall_counter == 0` of every run the system stands for a state of the
    machine.** -/
theorem decoding_everyRun {t : Nat} (ht : (runFrom order (init junk mem) irq t).AtDecode) :
    Decoding (runFrom order (init junk mem) irq t).arch (runFrom order (init junk mem) irq t) := by
  have hleads : ∃ b m, Leads order b m (runFrom order (init junk mem) irq t) := by
    clear ht
    induction t with
    | zero => exact ⟨_, _, init_leads order junk mem⟩
    | succ t ih =>
      obtain ⟨b, m, h⟩ := ih
      cases m with
      | zero =>
        have hd : Decoding b _ := h
        rw [← hd.arch] at hd
        obtain ⟨n, -, hn⟩ := decoding_leads_outcome order (irq t) .littleEndian hd
        exact ⟨_, n, hn⟩
      | succ m => exact ⟨b, m, h.2 (irq t)⟩
  obtain ⟨b, m, h⟩ := hleads
  cases m with
  | zero =>
    have hd : Decoding b _ := h
    rw [hd.arch]
    exact hd
  | succ m => exact absurd ht h.1

/-- **From one `stall_counter == 0` to the next**, which comes within 24 cycles. -/
theorem next_everyRun (bo : Isa.ByteOrder) {t : Nat}
    (ht : (runFrom order (init junk mem) irq t).AtDecode) :
    ∃ t' ≤ t + 24, Lib.NextAt (fun u => (runFrom order (init junk mem) irq u).AtDecode) t t' ∧
      (runFrom order (init junk mem) irq t').arch
        = (runFrom order (init junk mem) irq t).outcome bo (irq t) := by
  obtain ⟨n, hn, hl⟩ := decoding_leads_outcome order (irq t) bo
    (decoding_everyRun order junk mem irq ht)
  obtain ⟨hnext, harch⟩ := hl.nextAt order junk mem irq
  exact ⟨t + 1 + n, by omega, hnext, harch⟩

end Run

end System

end Frost32.Hdl
