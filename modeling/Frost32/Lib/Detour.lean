import Mathlib.Order.Basic

namespace Frost32.Lib

/-!
# Detours

A run that leaves the path of a machine and comes back to it: where it is on the path, and how
far the machine is there.

* `position`, `progress` — the index of the run after `n` moves on the path, and the steps of the
  machine until then; a detour is a move that makes no step.
* `lt_position_succ` — the path goes forward; `exists_move`, every index is in one of its moves.
* `related_of_detours` — **on the path the run shows the states of the machine.**
* `exists_progress` — a run that goes on after each of its detours comes to every state;
  `exists_not_away_of_one`, with one detour it does.
-/

variable {α : Type*} (away : Nat → Bool) (back : Nat → Nat)

/-- The index of the run after `n` moves, where a detour from `i` comes back at `back i`. -/
def position : Nat → Nat
  | 0 => 0
  | n + 1 => if away (position n) then back (position n) else position n + 1

/-- The steps of the machine in `n` moves. -/
def progress : Nat → Nat
  | 0 => 0
  | n + 1 => if away (position away back n) then progress n else progress n + 1

variable {away back} {N : Nat}

theorem position_succ_of_away {n : Nat} (h : away (position away back n) = true) :
    position away back (n + 1) = back (position away back n) ∧
      progress away back (n + 1) = progress away back n :=
  ⟨if_pos h, if_pos h⟩

theorem position_succ_of_not_away {n : Nat} (h : away (position away back n) = false) :
    position away back (n + 1) = position away back n + 1 ∧
      progress away back (n + 1) = progress away back n + 1 := by
  have h' : ¬away (position away back n) = true := Bool.eq_false_iff.mp h
  exact ⟨if_neg h', if_neg h'⟩

/-- The path goes forward where detours come back later. -/
theorem lt_position_succ {n : Nat}
    (h : away (position away back n) = true → position away back n < back (position away back n)) :
    position away back n < position away back (n + 1) := by
  cases ha : away (position away back n) with
  | true =>
    rw [(position_succ_of_away ha).1]
    exact h ha
  | false =>
    rw [(position_succ_of_not_away ha).1]
    exact Nat.lt_succ_self _

theorem position_mono
    (h : ∀ n < N, away (position away back n) = true →
      position away back n < back (position away back n)) {n : Nat} (hn : n ≤ N) :
    position away back n ≤ position away back N := by
  induction N with
  | zero => exact Nat.le_of_eq (congrArg _ (Nat.le_zero.mp hn))
  | succ N ih =>
    rcases Nat.lt_or_eq_of_le hn with hlt | rfl
    · exact Nat.le_trans (ih (fun k hk => h k (by omega)) (by omega))
        (Nat.le_of_lt (lt_position_succ (h N (Nat.lt_succ_self N))))
    · exact Nat.le_refl _

/-- Every index before the end of the path belongs to a move. -/
theorem exists_move {i : Nat} (hi : i < position away back N) :
    ∃ n < N, position away back n ≤ i ∧ i < position away back (n + 1) := by
  induction N with
  | zero => exact absurd hi (Nat.not_lt_zero i)
  | succ N ih =>
    by_cases hlt : i < position away back N
    · obtain ⟨n, hn, h⟩ := ih hlt
      exact ⟨n, by omega, h⟩
    · exact ⟨N, Nat.lt_succ_self N, Nat.le_of_not_lt hlt, hi⟩

theorem progress_mono {n : Nat} (hn : n ≤ N) : progress away back n ≤ progress away back N := by
  induction N with
  | zero => exact Nat.le_of_eq (congrArg _ (Nat.le_zero.mp hn))
  | succ N ih =>
    rcases Nat.lt_or_eq_of_le hn with hlt | rfl
    · refine Nat.le_trans (ih (by omega)) ?_
      cases ha : away (position away back N) with
      | true => exact Nat.le_of_eq (position_succ_of_away ha).2.symm
      | false =>
        have hsucc := (position_succ_of_not_away ha).2
        omega
    · exact Nat.le_refl _

/-- A step of the path is a step of the machine, so it is not the last one. -/
theorem progress_lt {n : Nat} (hn : n < N) (h : away (position away back n) = false) :
    progress away back n < progress away back N := by
  have hle : progress away back (n + 1) ≤ progress away back N := progress_mono hn
  rw [(position_succ_of_not_away h).2] at hle
  exact hle

/-- **On the path the run shows the states of the machine**, up to a relation that a step keeps
    and a detour does not disturb. -/
theorem related_of_detours {R : α → α → Prop} (obs main : Nat → α) (hzero : R (obs 0) (main 0))
    (hstep : ∀ n < N, away (position away back n) = false →
      R (obs (position away back n)) (main (progress away back n)) →
      R (obs (position away back n + 1)) (main (progress away back n + 1)))
    (hback : ∀ n < N, away (position away back n) = true →
      R (obs (position away back n)) (main (progress away back n)) →
      R (obs (back (position away back n))) (main (progress away back n))) :
    ∀ n ≤ N, R (obs (position away back n)) (main (progress away back n)) := by
  intro n hn
  induction n with
  | zero => exact hzero
  | succ n ih =>
    have hn' := ih (by omega)
    cases ha : away (position away back n) with
    | true =>
      obtain ⟨hpos, hprog⟩ := position_succ_of_away ha
      rw [hpos, hprog]
      exact hback n (by omega) ha hn'
    | false =>
      obtain ⟨hpos, hprog⟩ := position_succ_of_not_away ha
      rw [hpos, hprog]
      exact hstep n (by omega) ha hn'

/-- A run with one detour goes on after it. -/
theorem exists_not_away_of_one {i₀ : Nat} (hone : ∀ i, away i = true → i = i₀)
    (hback : i₀ ≠ back i₀) (n : Nat) : ∃ m ≥ n, away (position away back m) = false := by
  cases hn : away (position away back n) with
  | false => exact ⟨n, Nat.le_refl n, hn⟩
  | true =>
    refine ⟨n + 1, Nat.le_succ n, Bool.eq_false_iff.mpr fun hnext => hback ?_⟩
    have hagain := hone _ hnext
    rw [(position_succ_of_away hn).1, hone _ hn] at hagain
    exact hagain.symm

/-- **Every state is reached** if the run goes on after its detours. -/
theorem exists_progress (h : ∀ n, ∃ m ≥ n, away (position away back m) = false) (k : Nat) :
    ∃ n, progress away back n = k := by
  induction k with
  | zero => exact ⟨0, rfl⟩
  | succ k ih =>
    obtain ⟨n, hn⟩ := ih
    -- the first move after `n` that is no detour
    obtain ⟨m, hm, hfalse⟩ := h n
    have hfirst : ∀ d n, progress away back n = k → m = n + d →
        ∃ n', progress away back n' = k + 1 := by
      intro d
      induction d with
      | zero =>
        intro n hn hmn
        rw [hmn, Nat.add_zero] at hfalse
        exact ⟨n + 1, by rw [(position_succ_of_not_away hfalse).2, hn]⟩
      | succ d ihd =>
        intro n hn hmn
        cases ha : away (position away back n) with
        | true =>
          refine ihd (n + 1) ?_ (by omega)
          rw [(position_succ_of_away ha).2, hn]
        | false => exact ⟨n + 1, by rw [(position_succ_of_not_away ha).2, hn]⟩
    exact hfirst (m - n) n hn (by omega)

end Frost32.Lib
