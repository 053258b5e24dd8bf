import Mathlib.Data.BitVec

namespace Frost32.Difference

/-!
# The sign of a difference

A subtraction of words decides how they are ordered: by the borrow if they are unsigned, by the
sign of the difference if they are signed, corrected where the difference overflows.

* `msb_widened` — **one bit more than the words have is the borrow.**
* `overflow_eq` — the signs tell whether the difference overflows.
* `msb_xor_overflow` — **the corrected sign of the difference is the signed order.**
-/

variable {n : Nat} (x y : BitVec n)

theorem add_not_add_one : x + ~~~y + 1#n = x - y := by
  rw [BitVec.add_assoc, ← BitVec.neg_eq_not_add, ← BitVec.sub_eq_add_neg]

/-! ### Unsigned words -/

/-- The difference with one bit more. -/
theorem toNat_widened : (x.setWidth (n + 1) - y.setWidth (n + 1)).toNat =
    if x.toNat < y.toNat then 2 ^ (n + 1) - (y.toNat - x.toNat) else x.toNat - y.toNat := by
  have hx := x.isLt
  have hy := y.isLt
  have hpow : 2 ^ (n + 1) = 2 ^ n + 2 ^ n := by rw [Nat.pow_succ, Nat.mul_two]
  rw [BitVec.toNat_sub, BitVec.toNat_setWidth_of_le (Nat.le_succ n),
    BitVec.toNat_setWidth_of_le (Nat.le_succ n)]
  by_cases hlt : x.toNat < y.toNat
  · rw [if_pos hlt, Nat.mod_eq_of_lt (by omega)]
    omega
  · have hle : 2 ^ (n + 1) - y.toNat + x.toNat = 2 ^ (n + 1) + (x.toNat - y.toNat) := by omega
    rw [if_neg hlt, hle, Nat.add_mod_left, Nat.mod_eq_of_lt (by omega)]

/-- **The bit more is the borrow.** -/
theorem msb_widened :
    (x.setWidth (n + 1) - y.setWidth (n + 1)).msb = decide (x.toNat < y.toNat) := by
  have hx := x.isLt
  have hy := y.isLt
  have hpow : 2 ^ (n + 1) = 2 ^ n + 2 ^ n := by rw [Nat.pow_succ, Nat.mul_two]
  rw [BitVec.msb_eq_decide, toNat_widened, Nat.add_sub_cancel, decide_eq_decide]
  by_cases hlt : x.toNat < y.toNat
  · rw [if_pos hlt]
    exact iff_of_true (by omega) hlt
  · rw [if_neg hlt]
    exact iff_of_false (by omega) hlt

/-- Below it is the difference. -/
theorem setWidth_widened :
    (x.setWidth (n + 1) - y.setWidth (n + 1)).setWidth n = x - y := by
  have hself : ∀ z : BitVec n, (z.setWidth (n + 1)).setWidth n = z := by
    intro z
    rw [BitVec.setWidth_setWidth_of_le z (Nat.le_succ n), BitVec.setWidth_eq]
  rw [BitVec.sub_eq_add_neg, BitVec.setWidth_add _ _ (Nat.le_succ n),
    BitVec.setWidth_neg_of_le (Nat.le_succ n), hself, hself, ← BitVec.sub_eq_add_neg]

/-! ### Signed words -/

/-- A difference overflows if the signs of the words differ and its sign is not that of the
    first. -/
theorem overflow_eq :
    ((x.msb ^^ y.msb) && (x.msb ^^ (x - y).msb)) = x.ssubOverflow y := by
  rw [BitVec.ssubOverflow_eq]
  cases x.msb <;> cases y.msb <;> cases (x - y).msb <;> rfl

/-- **The sign of the difference, corrected for an overflow, is the signed order.** -/
theorem msb_xor_overflow :
    ((x - y).msb ^^ x.ssubOverflow y) = decide (x.toInt < y.toInt) := by
  cases hover : x.ssubOverflow y with
  | false =>
    have hdiff : (x - y).toInt = x.toInt - y.toInt :=
      BitVec.toInt_sub_of_not_ssubOverflow (by rw [hover]; exact Bool.false_ne_true)
    rw [Bool.xor_false, BitVec.msb_eq_toInt, hdiff, decide_eq_decide]
    omega
  | true =>
    rw [BitVec.ssubOverflow_eq] at hover
    cases hx : x.msb with
    | false =>
      obtain ⟨hy, hdiff⟩ : y.msb = true ∧ (x - y).msb = true := by simpa [hx] using hover
      rw [BitVec.msb_eq_toInt, decide_eq_false_iff_not] at hx
      rw [BitVec.msb_eq_toInt, decide_eq_true_eq] at hy
      have hge : ¬x.toInt < y.toInt := by omega
      rw [hdiff, decide_eq_false hge]
      rfl
    | true =>
      obtain ⟨hy, hdiff⟩ : y.msb = false ∧ (x - y).msb = false := by simpa [hx] using hover
      rw [BitVec.msb_eq_toInt, decide_eq_true_eq] at hx
      rw [BitVec.msb_eq_toInt, decide_eq_false_iff_not] at hy
      have hlt : x.toInt < y.toInt := by omega
      rw [hdiff, decide_eq_true hlt]
      rfl

end Frost32.Difference
