import Frost32.Hdl.Divisions

namespace Frost32.Hdl

namespace NonRestoringDivider

/-!
# The divider at its width limit

Both counters have 8 bits, and the top bit of each is a flag: that of the state counter restarts
the first clocked block, that of the bit counter ends the loop.  A second block that sees the
bit counter of the edge before counts one edge more, and at one digit an edge 128 bits are then
one edge too many: the state counter gets its top bit.

* `Cycling` — a divider of 128 bits that restarts instead of finishing.
* `cycling_run` — **it never finishes.**
* `command_terminates_iff` — everywhere else a command is done within `W / k + 4` edges.
-/

/-! ### The width that does not terminate -/

/-- A command in a divider of 128 bits, one digit an edge, before its first restart or after it:
    the counters add up to 127, or the state counter is negative. -/
structure Cycling (d : NonRestoringDivider 128) : Prop where
  busy : d.outCanAcceptCmd = false
  started : d.startState = true
  counters :
    (d.stateCounter.msb = false ∧ d.temps.counter = 127#8 - d.stateCounter) ∨
    (d.stateCounter = 128#8 ∧ d.temps.counter = -1#8 ∧ d.endState = false) ∨
    (d.stateCounter.msb = true ∧ d.temps.counter = 127#8)

variable {c i : PortInDivider 128} {d : NonRestoringDivider 128}

/-- After the edge that takes the magnitudes the state counter is negative. -/
theorem cycling_of_prepared (h : Prepared c d) : Cycling d := by
  refine ⟨h.busy, h.started, .inr (.inr ⟨?_, h.counter⟩)⟩
  rw [h.state]
  decide

/-- While the old bit counter is not negative the state counter counts. -/
private theorem step_counts (h : Cycling d) (hi : i.enable = false)
    (hcounter : d.temps.counter.msb = false) :
    d.step 1 .preEdge i =
      { d with stateCounter := d.stateCounter + 1#8, endState := false
               temps := d.iterateBlock 1 } := by
  have hc : d.controlBlock i (d.seen 1 .preEdge) =
      { d with stateCounter := d.stateCounter + 1#8, endState := false } := by
    unfold controlBlock
    rw [if_neg (by simp [hi]), if_neg (by simp [h.started]),
      if_pos (by simp [NonRestoringDivider.busy, h.busy]), if_pos (by simp [seen, hcounter])]
  unfold step
  rw [hc]

private theorem counter_of_working (h : Cycling d) (hstate : d.stateCounter.msb = false) :
    (d.iterateBlock 1).counter = d.temps.counter - 1#8 := by
  unfold iterateBlock
  rw [if_neg (by simp [hstate]), if_pos (by simp [NonRestoringDivider.busy, h.busy])]

private theorem counter_of_restart (hstate : d.stateCounter.msb = true) :
    (d.iterateBlock 1).counter = 127#8 := by
  unfold iterateBlock
  rw [if_pos hstate]

private theorem msb_bit_counter {c : BitVec 8} (h : c.msb = false) :
    (127#8 - c).msb = false := by
  rw [BitVec.msb_eq_decide] at h ⊢
  simp at h ⊢
  bv_omega

private theorem msb_succ_of_ne {c : BitVec 8} (h : c.msb = false) (hne : c ≠ 127#8) :
    (c + 1#8).msb = false := by
  rw [BitVec.msb_eq_decide] at h ⊢
  simp at h ⊢
  bv_omega

private theorem msb_succ_of_negative {c : BitVec 8} (h : c.msb = true) (hne : c ≠ -1#8) :
    (c + 1#8).msb = true := by
  rw [BitVec.msb_eq_decide] at h ⊢
  simp at h ⊢
  bv_omega

/-- A digit; the last one gives the state counter its top bit. -/
private theorem cycling_digit (h : Cycling d) (hi : i.enable = false)
    (hstate : d.stateCounter.msb = false) (hcounter : d.temps.counter = 127#8 - d.stateCounter) :
    Cycling (d.step 1 .preEdge i) := by
  have hmsb : d.temps.counter.msb = false := by
    rw [hcounter]
    exact msb_bit_counter hstate
  have hcounter' := counter_of_working h hstate
  rw [step_counts h hi hmsb]
  refine ⟨h.busy, h.started, ?_⟩
  by_cases hlast : d.stateCounter = 127#8
  · refine .inr (.inl ⟨?_, ?_, rfl⟩)
    · show d.stateCounter + 1#8 = 128#8
      rw [hlast]
      decide
    · show (d.iterateBlock 1).counter = -1#8
      rw [hcounter', hcounter, hlast]
      decide
  · refine .inl ⟨msb_succ_of_ne hstate hlast, ?_⟩
    show (d.iterateBlock 1).counter = 127#8 - (d.stateCounter + 1#8)
    rw [hcounter', hcounter]
    bv_omega

/-- The second block sees the end, and the first restarts. -/
private theorem cycling_end (h : Cycling d) (hi : i.enable = false)
    (hstate : d.stateCounter = 128#8) (hcounter : d.temps.counter = -1#8)
    (hend : d.endState = false) : Cycling (d.step 1 .preEdge i) := by
  have hpast : (d.seen 1 .preEdge).counter.msb = true := by
    rw [seen, hcounter]
    decide
  have hc : d.controlBlock i (d.seen 1 .preEdge) =
      { d with endState := true, quotBuf2 := (finish (d.seen 1 .preEdge) d).1,
               remBuf2 := (finish (d.seen 1 .preEdge) d).2 } := by
    unfold controlBlock
    rw [if_neg (by simp [hi]), if_neg (by simp [h.started]),
      if_pos (by simp [NonRestoringDivider.busy, h.busy]), if_neg (by simp [hpast]),
      if_pos hend]
  have hmsb : d.stateCounter.msb = true := by
    rw [hstate]
    decide
  unfold step
  rw [hc]
  exact ⟨h.busy, h.started, .inr (.inr ⟨hmsb, counter_of_restart hmsb⟩)⟩

/-- Restarted, until the state counter is back at 0. -/
private theorem cycling_restarted (h : Cycling d) (hi : i.enable = false)
    (hstate : d.stateCounter.msb = true) (hcounter : d.temps.counter = 127#8) :
    Cycling (d.step 1 .preEdge i) := by
  have hmsb : d.temps.counter.msb = false := by
    rw [hcounter]
    decide
  have hcounter' := counter_of_restart hstate
  rw [step_counts h hi hmsb]
  refine ⟨h.busy, h.started, ?_⟩
  by_cases hlast : d.stateCounter = -1#8
  · refine .inl ⟨?_, ?_⟩
    · show (d.stateCounter + 1#8).msb = false
      rw [hlast]
      decide
    · show (d.iterateBlock 1).counter = 127#8 - (d.stateCounter + 1#8)
      rw [hcounter', hlast]
      decide
  · exact .inr (.inr ⟨msb_succ_of_negative hstate hlast, hcounter'⟩)

theorem cycling_step (h : Cycling d) (hi : i.enable = false) :
    Cycling (d.step 1 .preEdge i) := by
  rcases h.counters with ⟨hstate, hcounter⟩ | ⟨hstate, hcounter, hend⟩ | ⟨hstate, hcounter⟩
  · exact cycling_digit h hi hstate hcounter
  · exact cycling_end h hi hstate hcounter hend
  · exact cycling_restarted h hi hstate hcounter

/-- **A command of 128 bits never finishes**, one digit an edge and the second block first. -/
theorem cycling_run {later : Nat → PortInDivider 128} (hd : d.Idle) (hc : c.enable = true)
    (hlow : ∀ t, (later t).enable = false) (n : Nat) :
    (Lib.run (step 1 .preEdge) (d.step 1 .preEdge c) later n).outCanAcceptCmd = false := by
  have haccepted : Accepted c (d.step 1 .preEdge c) := step_accepts hd hc
  cases n with
  | zero => exact haccepted.busy
  | succ n =>
    have hcycling : Cycling (Lib.run (step 1 .preEdge) (d.step 1 .preEdge c) later (n + 1)) := by
      induction n with
      | zero => exact cycling_of_prepared (accepted_step haccepted (hlow 0))
      | succ n ih => exact cycling_step ih (hlow _)
    exact hcycling.busy

/-! ### Every width -/

/-- No later than `W / k + 4` edges after the one that took the command both outputs are high,
    and they stay so. -/
def FinishesInTime {W : Nat} (k : Nat) (order : BlockOrder) (d : NonRestoringDivider W)
    (later : Nat → PortInDivider W) : Prop :=
  ∃ t ≤ W / k + 4, ∀ n, t ≤ n →
    (Lib.run (step k order) d later n).outDataReady = true ∧
      (Lib.run (step k order) d later n).outCanAcceptCmd = true

/-- **A command finishes in time, except for 128 bits at one digit an edge with the second block
    first.** -/
theorem command_terminates_iff {W k : Nat} {order : BlockOrder} (hW : 2 ≤ W) (hW' : W ≤ 128)
    (hk : k = 1 ∨ k = 2 ∨ k = 4) (hdvd : k ∣ W) (input : Nat → PortInDivider W) (n : Nat)
    (hcan : (Lib.run (step k order) init input n).outCanAcceptCmd = true)
    (c : PortInDivider W) (hc : c.enable = true) (later : Nat → PortInDivider W)
    (hlow : ∀ t, (later t).enable = false) :
    FinishesInTime k order (step k order c (Lib.run (step k order) init input n)) later ↔
      ¬(W = 128 ∧ k = 1 ∧ order = .preEdge) := by
  have hidle := idle_of_reachable input n hcan
  constructor
  · rintro ⟨t, -, hdone⟩ ⟨rfl, rfl, rfl⟩
    have hbusy := cycling_run hidle hc hlow t
    have haccept := (hdone t (Nat.le_refl t)).2
    rw [hbusy] at haccept
    cases haccept
  · intro hlimit
    have hmul : W / k * k = W := Nat.div_mul_cancel hdvd
    have hpos : 0 < k := by omega
    -- the state counter keeps its top bit clear
    have hcount : order = .preEdge → W / k < 128 := by
      intro horder
      rcases hk with rfl | rfl | rfl
      · have hne : W ≠ 128 := fun hW128 => hlimit ⟨hW128, rfl, horder⟩
        omega
      · omega
      · omega
    refine ⟨W / k + 4, Nat.le_refl _, ?_⟩
    intro m hm
    have hdone := done_run (by omega) hW' hpos (by omega) hmul hcount hidle hc hlow m hm
    exact ⟨hdone.ready, hdone.canAccept⟩

/-- 9 / 2 in 4 bits, two digits an edge, right after reset. -/
theorem command_terminates_iff_four :
    FinishesInTime 2 .preEdge (step 2 .preEdge ⟨true, false, 9#4, 2#4⟩ init)
      (fun _ => ⟨false, false, 0#4, 0#4⟩) :=
  (command_terminates_iff (by decide) (by decide) (.inr (.inl rfl)) (by decide)
    (fun _ => ⟨false, false, 0#4, 0#4⟩) 0 rfl _ rfl _ (fun _ => rfl)).mpr
    (fun h => absurd h.1 (by decide))

/-- 1 / 1 in 128 bits, one digit an edge, right after reset. -/
theorem wide_command_does_not_finish :
    ¬FinishesInTime 1 .preEdge (step 1 .preEdge ⟨true, false, 1#128, 1#128⟩ init)
      (fun _ => ⟨false, false, 0#128, 0#128⟩) := by
  rintro ⟨t, -, hdone⟩
  have hbusy : (Lib.run (step 1 .preEdge) (step 1 .preEdge ⟨true, false, 1#128, 1#128⟩ init)
      (fun _ => ⟨false, false, 0#128, 0#128⟩) t).outCanAcceptCmd = false :=
    cycling_run ⟨rfl, rfl⟩ rfl (fun _ => rfl) t
  have haccept := (hdone t (Nat.le_refl t)).2
  rw [hbusy] at haccept
  cases haccept

end NonRestoringDivider

end Frost32.Hdl
