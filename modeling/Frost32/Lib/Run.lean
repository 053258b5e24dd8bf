import Mathlib.Order.Basic

namespace Frost32.Lib

/-!
# Runs of a clocked machine

A clocked machine is a function `step : ι → σ → σ`: one edge takes the input present at
the edge and the registers to the next registers.  This file knows nothing else about it.

* `run step s input n` — the state after `n` edges, edge `t` reading `input t`.
* `run_invariant` — a property kept by every edge holds of every state of a run.
* `run_succ_left` — the same run with its first edge split off.
* `NextAt p t t'` — `t'` is the first time after `t` at which `p` holds; it is unique.
* `NextAt.induction` — induction over the times at which `p` holds.
* `latest a event n` — the value of the latest event before time `n`.
* `Countdown` — a counter that loses 1 at every edge.
-/

variable {ι σ α : Type*}

/-- The state after `n` edges from `s`, edge `t` reading `input t`. -/
def run (step : ι → σ → σ) (s : σ) (input : Nat → ι) : Nat → σ
  | 0 => s
  | n + 1 => step (input n) (run step s input n)

@[simp] theorem run_zero (step : ι → σ → σ) (s : σ) (input : Nat → ι) :
    run step s input 0 = s := rfl

theorem run_succ (step : ι → σ → σ) (s : σ) (input : Nat → ι) (n : Nat) :
    run step s input (n + 1) = step (input n) (run step s input n) := rfl

/-- The first edge of a run. -/
theorem run_succ_left (step : ι → σ → σ) (s : σ) (input : Nat → ι) (n : Nat) :
    run step s input (n + 1) = run step (step (input 0) s) (fun t => input (t + 1)) n := by
  induction n with
  | zero => rfl
  | succ n ih => rw [run_succ, ih, run_succ]

/-- A run from the state another run has reached. -/
theorem run_add (step : ι → σ → σ) (s : σ) (input : Nat → ι) (m n : Nat) :
    run step s input (m + n) = run step (run step s input m) (fun t => input (m + t)) n := by
  induction n with
  | zero => rfl
  | succ n ih => rw [← Nat.add_assoc, run_succ, ih, run_succ]

/-- A property that holds at the start and is kept by every edge holds of the whole run. -/
theorem run_invariant {step : ι → σ → σ} {s : σ} {input : Nat → ι} (P : σ → Prop)
    (h0 : P s) (hstep : ∀ i s, P s → P (step i s)) (n : Nat) : P (run step s input n) := by
  induction n with
  | zero => exact h0
  | succ n ih => exact hstep _ _ ih

/-! ### Sampling times -/

/-- `t'` is the first time after `t` at which `p` holds. -/
structure NextAt (p : Nat → Prop) (t t' : Nat) : Prop where
  lt : t < t'
  sample : p t'
  quiet : ∀ j, t < j → j < t' → ¬ p j

theorem NextAt.unique {p : Nat → Prop} {t u v : Nat} (hu : NextAt p t u) (hv : NextAt p t v) :
    u = v := by
  rcases Nat.lt_trichotomy u v with h | h | h
  · exact absurd hu.sample (hv.quiet u hu.lt h)
  · exact h
  · exact absurd hv.sample (hu.quiet v hv.lt h)

/-- Before a time at which `p` holds there is a last one, from an earlier one on. -/
theorem NextAt.exists_prev {p : Nat → Prop} {s t : Nat} (hs : p s) (hst : s < t) (ht : p t) :
    ∃ u, s ≤ u ∧ p u ∧ NextAt p u t := by
  induction hd : t - s using Nat.strongRecOn generalizing s with
  | _ d ih =>
    by_cases hmid : ∃ u, s < u ∧ u < t ∧ p u
    · obtain ⟨u, hsu, hut, hu⟩ := hmid
      obtain ⟨v, huv, hv⟩ := ih (t - u) (by omega) hu hut rfl
      exact ⟨v, by omega, hv⟩
    · refine ⟨s, Nat.le_refl s, hs, hst, ht, ?_⟩
      intro j hj hj' hp
      exact hmid ⟨j, hj, hj', hp⟩

/-- Induction over the times after `s` at which `p` holds. -/
theorem NextAt.induction {p : Nat → Prop} {s : Nat} {P : Nat → Prop} (hs : p s)
    (hfirst : ∀ t, NextAt p s t → P t)
    (hnext : ∀ u t, s < u → p u → P u → NextAt p u t → P t) : ∀ t, s < t → p t → P t := by
  intro t
  induction t using Nat.strongRecOn with
  | _ t ih =>
    intro hst ht
    obtain ⟨u, hsu, hu, hnx⟩ := NextAt.exists_prev hs hst ht
    by_cases hus : u = s
    · subst hus
      exact hfirst t hnx
    · exact hnext u t (by omega) hu (ih u hnx.lt (by omega) hu) hnx

/-! ### Latest events -/

/-- The value of the latest event before time `n`, `a` if there is none. -/
def latest (a : α) (event : Nat → Option α) : Nat → α
  | 0 => a
  | n + 1 => (event n).getD (latest a event n)

theorem latest_succ (a : α) (event : Nat → Option α) (n : Nat) :
    latest a event (n + 1) = (event n).getD (latest a event n) := rfl

/-- No event, no change. -/
theorem latest_of_none {a : α} {event : Nat → Option α} {n : Nat}
    (h : ∀ t < n, event t = none) : latest a event n = a := by
  induction n with
  | zero => rfl
  | succ n ih =>
    rw [latest_succ, h n (Nat.lt_succ_self n), Option.getD_none]
    exact ih fun t ht => h t (Nat.lt_succ_of_lt ht)

/-- An event counts until the next one. -/
theorem latest_of_event {a v : α} {event : Nat → Option α} {t n : Nat} (hlt : t < n)
    (hv : event t = some v) (hquiet : ∀ u, t < u → u < n → event u = none) :
    latest a event n = v := by
  induction n with
  | zero => exact absurd hlt (Nat.not_lt_zero t)
  | succ n ih =>
    rw [latest_succ]
    by_cases htn : t = n
    · rw [← htn, hv, Option.getD_some]
    · rw [hquiet n (by omega) (Nat.lt_succ_self n), Option.getD_none]
      exact ih (by omega) fun u htu hun => hquiet u htu (Nat.lt_succ_of_lt hun)

/-! ### Counters -/

namespace Countdown

variable {w : Nat} (c : BitVec w) {n : Nat}

/-- One edge further. -/
theorem sub_ofNat_sub_one (n : Nat) :
    c - BitVec.ofNat w n - 1#w = c - BitVec.ofNat w (n + 1) := by
  rw [BitVec.sub_sub, BitVec.ofNat_add]

/-- Until the counter wraps around it is a subtraction of numbers. -/
theorem toNat_sub_ofNat (h : n ≤ c.toNat) : (c - BitVec.ofNat w n).toNat = c.toNat - n := by
  have hlt := c.isLt
  have hn : (BitVec.ofNat w n).toNat = n := by
    rw [BitVec.toNat_ofNat, Nat.mod_eq_of_lt (by omega)]
  rw [BitVec.toNat_sub_of_le (BitVec.le_def.mpr (by omega)), hn]

theorem ne_ofNat_of_lt {k : Nat} (h : k < c.toNat) : c ≠ BitVec.ofNat w k := by
  rintro rfl
  rw [BitVec.toNat_ofNat] at h
  exact absurd (Nat.mod_le k (2 ^ w)) (by omega)

theorem sub_ofNat_eq {k : Nat} (h : c.toNat = n + k) :
    c - BitVec.ofNat w n = BitVec.ofNat w k := by
  have hlt := c.isLt
  apply BitVec.eq_of_toNat_eq
  rw [toNat_sub_ofNat c (by omega), BitVec.toNat_ofNat, Nat.mod_eq_of_lt (by omega)]
  omega

theorem sub_ofNat_ne_zero (h : n < c.toNat) : c - BitVec.ofNat w n ≠ 0#w := by
  intro he
  have hn := toNat_sub_ofNat c (Nat.le_of_lt h)
  rw [he, BitVec.toNat_zero] at hn
  omega

theorem sub_ofNat_ne_self (hn : n ≠ 0) (h : n ≤ c.toNat) : c - BitVec.ofNat w n ≠ c := by
  intro he
  have hn := toNat_sub_ofNat c h
  rw [he] at hn
  omega

end Countdown

end Frost32.Lib
