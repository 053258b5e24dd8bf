import Mathlib.Tactic.Ring
import Mathlib.Tactic.Positivity
import Mathlib.Tactic.Linarith

namespace Frost32.Lib.NonRestoring

/-!
# Non-restoring division

Non-restoring division develops a quotient in the digits `+1` and `-1`.  Each digit doubles
the partial remainder `p` and takes the scaled divisor `D` away when `p` was not negative,
adds it when it was.  The digits are collected as bits, `+1` as 1 and `-1` as 0.

* `partialRem`, `digits` — the partial remainder and the bits after `n` digits.
* `partialRem_bounds` — the partial remainder stays in `[-D, D)`.
* `partialRem_eq` — what the bits say about it.
* `div_mod_of_digits` — **after `W` digits of `num` by `den · 2^W`, quotient and remainder
  are read off the bits and the last partial remainder**, with one correction when that is
  negative.
-/

/-- One digit: the next partial remainder. -/
def next (D p : Int) : Int := if 0 ≤ p then 2 * p - D else 2 * p + D

/-- The partial remainder after `n` digits. -/
def partialRem (D p : Int) : Nat → Int
  | 0 => p
  | n + 1 => next D (partialRem D p n)

/-- The first `n` digits as bits, the first one most significant. -/
def digits (D p : Int) : Nat → Nat
  | 0 => 0
  | n + 1 => 2 * digits D p n + (if 0 ≤ partialRem D p n then 1 else 0)

theorem next_bounds {D p : Int} (hlo : -D ≤ p) (hhi : p < D) : -D ≤ next D p ∧ next D p < D := by
  unfold next
  split <;> omega

/-- The partial remainder stays in `[-D, D)`. -/
theorem partialRem_bounds {D p : Int} (hlo : -D ≤ p) (hhi : p < D) (n : Nat) :
    -D ≤ partialRem D p n ∧ partialRem D p n < D := by
  induction n with
  | zero => exact ⟨hlo, hhi⟩
  | succ n ih => exact next_bounds ih.1 ih.2

/-- The partial remainder in terms of the digits. -/
theorem partialRem_eq (D p : Int) (n : Nat) :
    partialRem D p n = 2 ^ n * p - D * (2 * digits D p n - (2 ^ n - 1)) := by
  induction n with
  | zero => simp [partialRem, digits]
  | succ n ih =>
    simp only [partialRem, digits, next]
    by_cases h : 0 ≤ partialRem D p n
    · rw [if_pos h, if_pos h, ih]
      push_cast
      ring
    · rw [if_neg h, if_neg h, ih]
      push_cast
      ring

/-- Quotient and remainder from a decomposition with a scaled remainder. -/
private theorem div_mod_of_scaled {num den W : Nat} {q r : Int} (hr0 : 0 ≤ r)
    (hr : r < den * 2 ^ W) (h : (2 : Int) ^ W * num = den * 2 ^ W * q + r) :
    (num / den : Int) = q ∧ (num % den : Int) * 2 ^ W = r := by
  have hpos : (0 : Int) < 2 ^ W := by positivity
  -- the remainder is a multiple of the scale
  have hrem : r = (num - den * q) * 2 ^ W := by linarith
  have hlo : 0 ≤ num - den * q := by
    rw [hrem] at hr0
    exact nonneg_of_mul_nonneg_left hr0 hpos
  have hhi : num - den * q < den := by
    rw [hrem] at hr
    exact lt_of_mul_lt_mul_right hr hpos.le
  have hden : (0 : Int) < den := lt_of_le_of_lt hlo hhi
  obtain ⟨hd, hm⟩ := (Int.ediv_emod_unique (a := num) (q := q) (r := num - den * q) hden).mpr
    ⟨by ring, hlo, hhi⟩
  exact ⟨hd, by rw [hm, hrem]⟩

/-- **Quotient and remainder after `W` digits.**  The bits `b` stand for the odd number
    `2·b - 2^W + 1`; a negative last partial remainder means one divisor too many was taken
    away. -/
theorem div_mod_of_digits {num den W : Nat} (hnum : num < 2 ^ W) (hden : 0 < den) :
    let D : Int := den * 2 ^ W
    let r := partialRem D num W
    let q : Int := 2 * digits D num W - 2 ^ W + 1
    if r < 0 then (num / den : Int) = q - 1 ∧ (num % den : Int) * 2 ^ W = r + D
    else (num / den : Int) = q ∧ (num % den : Int) * 2 ^ W = r := by
  intro D r q
  have hnum' : (num : Int) < 2 ^ W := by exact_mod_cast hnum
  have hden' : (1 : Int) ≤ den := by exact_mod_cast hden
  have hD : (num : Int) < D := by
    calc (num : Int) < 1 * 2 ^ W := by rw [one_mul]; exact hnum'
      _ ≤ D := mul_le_mul_of_nonneg_right hden' (by positivity)
  obtain ⟨hlo, hhi⟩ := partialRem_bounds (n := W) (show -D ≤ (num : Int) by omega) hD
  have heq : r = 2 ^ W * num - D * q := by
    have h := partialRem_eq D num W
    rw [show r = partialRem D num W from rfl, h]
    ring
  split
  · rename_i hneg
    exact div_mod_of_scaled (by omega) (by omega) (by rw [heq]; ring)
  · rename_i hneg
    exact div_mod_of_scaled (by omega) (by omega) (by rw [heq]; ring)

end Frost32.Lib.NonRestoring
