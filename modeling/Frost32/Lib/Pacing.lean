import Mathlib.Order.Monotone.Basic
import Frost32.Lib.Run

namespace Frost32.Lib

/-!
# Machines with a clock

A machine that takes a number of cycles for each of its steps, against a run that is read at
some of its cycles only.

* `Timed.run` — the machine with the times at which it reaches its states.
* `Paced` — where the run is read it makes the step of the machine, in the cycles the machine
  says.
* `Paced.in_step` — **the run is in step with the machine.**
* `Paced.in_step_of_blocks` — so it is with a machine each of whose steps is a number of steps.
* `Paced.exists_of_sample` — **it is read at no other times.**
* `Paced.agree` — two runs in step with one machine are read at the same times, in the same
  states.
-/

variable {α : Type*}

/-- A state with the time at which it is reached. -/
structure Timed (α : Type*) where
  time : Nat
  state : α

namespace Timed

variable (cost : Nat → α → Nat) (next : Nat → α → α)

/-- One step, which takes `cost` cycles. -/
def step (s : Timed α) : Timed α where
  time := s.time + cost s.time s.state
  state := next s.time s.state

/-- The machine after `k` steps. -/
def run (s : Timed α) : Nat → Timed α
  | 0 => s
  | k + 1 => (run s k).step cost next

@[simp] theorem run_zero (s : Timed α) : s.run cost next 0 = s := rfl

theorem run_succ (s : Timed α) (k : Nat) :
    s.run cost next (k + 1) = (s.run cost next k).step cost next := rfl

/-- A run with its first step split off. -/
theorem run_succ_left (s : Timed α) (k : Nat) :
    s.run cost next (k + 1) = (s.step cost next).run cost next k := by
  induction k with
  | zero => rfl
  | succ k ih => rw [run_succ, ih, run_succ]

/-- The clock does not go back. -/
theorem time_mono (s : Timed α) : Monotone fun k => (s.run cost next k).time :=
  monotone_nat_of_le_succ fun _ => Nat.le_add_right _ _

end Timed

/-- Where the run `obs` is read and all is `good`, it makes the step of the machine. -/
structure Paced (p : Nat → Prop) (obs : Nat → α) (cost : Nat → α → Nat) (next : Nat → α → α)
    (good : Nat → α → Prop) : Prop where
  nextAt : ∀ t, p t → good t (obs t) → NextAt p t (t + cost t (obs t))
  obs_eq : ∀ t, p t → good t (obs t) → obs (t + cost t (obs t)) = next t (obs t)

namespace Paced

variable {p : Nat → Prop} {obs : Nat → α} {cost : Nat → α → Nat} {next : Nat → α → α}
  {good : Nat → α → Prop} {s : Timed α} {n : Nat}

/-- **The run is in step with the machine**, as long as the states of the machine are good. -/
theorem in_step (h : Paced p obs cost next good) (hp : p s.time) (hs : obs s.time = s.state)
    (hgood : ∀ k < n, good (s.run cost next k).time (s.run cost next k).state) :
    ∀ k ≤ n, p (s.run cost next k).time ∧
      obs (s.run cost next k).time = (s.run cost next k).state := by
  intro k hk
  induction k with
  | zero => exact ⟨hp, hs⟩
  | succ k ih =>
    obtain ⟨hpk, hobs⟩ := ih (by omega)
    have hg : good (s.run cost next k).time (obs (s.run cost next k).time) := by
      rw [hobs]
      exact hgood k (by omega)
    have hnext := h.nextAt _ hpk hg
    have heq := h.obs_eq _ hpk hg
    rw [hobs] at hnext heq
    exact ⟨hnext.sample, heq⟩

/-- **The run is in step with a slower machine** each of whose steps is a number of steps of the
    machine. -/
theorem in_step_of_blocks (h : Paced p obs cost next good) {cost' : Nat → α → Nat}
    {next' : Nat → α → α} {good' : Timed α → Prop}
    (hblock : ∀ s : Timed α, good' s → ∃ m, s.run cost next m = s.step cost' next' ∧
      ∀ k < m, good (s.run cost next k).time (s.run cost next k).state)
    (hp : p s.time) (hs : obs s.time = s.state)
    (hgood : ∀ k < n, good' (s.run cost' next' k)) :
    ∀ k ≤ n, p (s.run cost' next' k).time ∧
      obs (s.run cost' next' k).time = (s.run cost' next' k).state := by
  intro k hk
  induction k with
  | zero => exact ⟨hp, hs⟩
  | succ k ih =>
    obtain ⟨hpk, hobs⟩ := ih (by omega)
    obtain ⟨m, hm, hgm⟩ := hblock _ (hgood k (by omega))
    rw [Timed.run_succ, ← hm]
    exact h.in_step hpk hobs hgm m (Nat.le_refl m)

/-- **The run is read at the times of the machine only.** -/
theorem exists_of_sample (h : Paced p obs cost next good) (hp : p s.time)
    (hs : obs s.time = s.state)
    (hgood : ∀ k < n, good (s.run cost next k).time (s.run cost next k).state) {t : Nat}
    (hlo : s.time ≤ t) (hhi : t ≤ (s.run cost next n).time) (ht : p t) :
    ∃ k ≤ n, t = (s.run cost next k).time := by
  induction n with
  | zero => exact ⟨0, Nat.le_refl 0, Nat.le_antisymm hhi hlo⟩
  | succ n ih =>
    by_cases hn : t ≤ (s.run cost next n).time
    · obtain ⟨k, hk, heq⟩ := ih (fun k hk => hgood k (by omega)) hn
      exact ⟨k, by omega, heq⟩
    · -- nothing is read between two steps of the machine
      obtain ⟨hpn, hobs⟩ := h.in_step hp hs (fun k hk => hgood k (by omega)) n (Nat.le_refl n)
      have hg : good (s.run cost next n).time (obs (s.run cost next n).time) := by
        rw [hobs]
        exact hgood n (by omega)
      have hnext := h.nextAt _ hpn hg
      rw [hobs] at hnext
      refine ⟨n + 1, Nat.le_refl _, Nat.le_antisymm hhi ?_⟩
      by_contra hlt
      exact hnext.quiet t (by omega) (Nat.lt_of_not_le hlt) ht

/-- Where the steps of another machine are the same, a run is in step with that one. -/
theorem congr (h : Paced p obs cost next good) {next' : Nat → α → α} {good' : Nat → α → Prop}
    (hgood : ∀ t a, good' t a → good t a) (hnext : ∀ t a, good' t a → next t a = next' t a) :
    Paced p obs cost next' good' where
  nextAt t hp hg := h.nextAt t hp (hgood _ _ hg)
  obs_eq t hp hg := (h.obs_eq t hp (hgood _ _ hg)).trans (hnext _ _ hg)

/-- What follows a sample that two runs have in common. -/
theorem agree_next {p' : Nat → Prop} {obs' : Nat → α} (h : Paced p obs cost next good)
    (h' : Paced p' obs' cost next good) {u t : Nat} (hp : p u) (hp' : p' u)
    (hobs : obs u = obs' u) (hg : good u (obs u)) (ht : NextAt p u t) :
    p' t ∧ obs t = obs' t := by
  have hnext := h'.nextAt u hp' (hobs ▸ hg)
  rw [← hobs] at hnext
  obtain rfl := ht.unique (h.nextAt u hp hg)
  refine ⟨hnext.sample, ?_⟩
  have heq := h'.obs_eq u hp' (hobs ▸ hg)
  rw [← hobs] at heq
  rw [h.obs_eq u hp hg, heq]

/-- **Two runs in step with one machine agree.** -/
theorem agree {p' : Nat → Prop} {obs' : Nat → α} (h : Paced p obs cost next good)
    (h' : Paced p' obs' cost next good) {t₀ : Nat} (hp : p t₀) (hp' : p' t₀)
    (hobs : obs t₀ = obs' t₀) {t : Nat} (hlo : t₀ ≤ t)
    (hgood : ∀ u, t₀ ≤ u → u < t → p u → good u (obs u)) :
    (p t ↔ p' t) ∧ (p t → obs t = obs' t) := by
  induction t using Nat.strongRecOn with
  | _ t ih =>
    -- the sample before `t`, of either run, is common to both
    have hprev : ∀ u, t₀ ≤ u → u < t → (p u ↔ p' u) ∧ (p u → obs u = obs' u) :=
      fun u hu hut => ih u hut hu fun v hv hvu => hgood v hv (by omega)
    by_cases heq : t = t₀
    · subst heq
      exact ⟨⟨fun _ => hp', fun _ => hp⟩, fun _ => hobs⟩
    · have hforward : p t → p' t ∧ obs t = obs' t := by
        intro ht
        obtain ⟨u, hu, hpu, hnext⟩ := NextAt.exists_prev hp (by omega) ht
        obtain ⟨hiff, hsame⟩ := hprev u hu hnext.lt
        exact agree_next h h' hpu (hiff.mp hpu) (hsame hpu) (hgood u hu hnext.lt hpu) hnext
      refine ⟨⟨fun ht => (hforward ht).1, fun ht => ?_⟩, fun ht => (hforward ht).2⟩
      obtain ⟨u, hu, hpu', hnext⟩ := NextAt.exists_prev hp' (by omega) ht
      obtain ⟨hiff, hsame⟩ := hprev u hu hnext.lt
      have hpu := hiff.mpr hpu'
      have hg := hgood u hu hnext.lt hpu
      exact (agree_next h' h hpu' hpu (hsame hpu).symm (hsame hpu ▸ hg) hnext).1

end Paced

end Frost32.Lib
