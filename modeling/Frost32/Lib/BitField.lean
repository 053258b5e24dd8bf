import Mathlib.Data.BitVec

namespace Frost32.BitField

/-!
# Fields of a machine word

A word is packed field by field with masks: the bits of one range are cleared and replaced
by the low bits of a value.

* `getLsbD_replaceBits` — which bit of the result comes from where.
* `extractLsb'_replaceBits_self` — the replaced range reads back as the value, cut to its
  width.
* `extractLsb'_replaceBits_of_disjoint` — every other range is left alone.
* `eq_setWidth_setWidth_iff`, `eq_signExtend_setWidth_iff` — **which values a field holds**,
  unsigned and signed.
-/

variable {w : Nat}

/-- The `n` lowest bits. -/
def lowMask (w n : Nat) : BitVec w := (1#w <<< n) - 1#w

/-- `x` with the `n` bits from bit `lo` up replaced by the low bits of `v`. -/
def replaceBits (x v : BitVec w) (lo n : Nat) : BitVec w :=
  (x &&& ~~~(lowMask w n <<< lo)) ||| ((v &&& lowMask w n) <<< lo)

theorem getLsbD_lowMask {n i : Nat} (hn : n < w) :
    (lowMask w n).getLsbD i = decide (i < n) := by
  have hpow : 2 ^ n < 2 ^ w := Nat.pow_lt_pow_right (by omega) hn
  have hpos : 0 < 2 ^ n := Nat.two_pow_pos n
  have hval : (lowMask w n).toNat = 2 ^ n - 1 := by
    unfold lowMask
    rw [BitVec.toNat_sub_of_le]
    · rw [BitVec.toNat_shiftLeft, BitVec.toNat_ofNat, Nat.shiftLeft_eq,
        Nat.mod_eq_of_lt (Nat.one_lt_two_pow (by omega)), Nat.one_mul, Nat.mod_eq_of_lt hpow]
    · rw [BitVec.le_def, BitVec.toNat_shiftLeft, BitVec.toNat_ofNat, Nat.shiftLeft_eq,
        Nat.mod_eq_of_lt (Nat.one_lt_two_pow (by omega)), Nat.one_mul, Nat.mod_eq_of_lt hpow]
      omega
  rw [BitVec.getLsbD, hval, Nat.testBit_two_pow_sub_one]

/-- **Where each bit comes from**: the value inside the range, the old word outside. -/
theorem getLsbD_replaceBits (x v : BitVec w) {lo n i : Nat} (hn : n < w) (hi : i < w) :
    (replaceBits x v lo n).getLsbD i =
      if lo ≤ i ∧ i < lo + n then v.getLsbD (i - lo) else x.getLsbD i := by
  unfold replaceBits
  simp only [BitVec.getLsbD_or, BitVec.getLsbD_and, BitVec.getLsbD_not, BitVec.getLsbD_shiftLeft,
    getLsbD_lowMask hn]
  by_cases hlo : lo ≤ i
  · have hnlt : ¬ i < lo := by omega
    by_cases hhi : i < lo + n
    · have hin : i - lo < n := by omega
      simp [hi, hlo, hhi, hnlt, hin]
    · have hout : ¬ i - lo < n := by omega
      simp [hi, hlo, hhi, hnlt, hout]
  · have hlt : i < lo := by omega
    simp [hi, hlo, hlt]

/-- The replaced range reads back as the value. -/
theorem extractLsb'_replaceBits_self (x v : BitVec w) {lo n : Nat} (hn : n < w)
    (hw : lo + n ≤ w) : (replaceBits x v lo n).extractLsb' lo n = v.setWidth n := by
  apply BitVec.eq_of_getLsbD_eq
  intro i hi
  rw [BitVec.getLsbD_extractLsb', getLsbD_replaceBits x v hn (by omega),
    if_pos ⟨by omega, by omega⟩, Nat.add_sub_cancel_left, BitVec.getLsbD_setWidth]

/-- A range that does not meet the replaced one keeps its bits. -/
theorem extractLsb'_replaceBits_of_disjoint (x v : BitVec w) {lo n l m : Nat} (hn : n < w)
    (hm : l + m ≤ w) (hd : l + m ≤ lo ∨ lo + n ≤ l) :
    (replaceBits x v lo n).extractLsb' l m = x.extractLsb' l m := by
  apply BitVec.eq_of_getLsbD_eq
  intro i hi
  rw [BitVec.getLsbD_extractLsb', BitVec.getLsbD_extractLsb',
    getLsbD_replaceBits x v hn (by omega), if_neg (by omega)]

/-! ### Values that fit a field -/

/-- **The values of an unsigned field**, as signed numbers. -/
theorem eq_setWidth_setWidth_iff {n : Nat} (hn : n < w) (x : BitVec w) :
    x = (x.setWidth n).setWidth w ↔ 0 ≤ x.toInt ∧ x.toInt < 2 ^ n := by
  have hval : ((x.setWidth n).setWidth w).toNat = x.toNat % 2 ^ n := by
    rw [BitVec.toNat_setWidth, BitVec.toNat_setWidth, Nat.mod_eq_of_lt]
    exact (Nat.mod_lt _ (Nat.two_pow_pos n)).trans (Nat.pow_lt_pow_right (by omega) hn)
  have hhalf : 2 * 2 ^ n ≤ 2 ^ w := by
    rw [← Nat.pow_succ']
    exact Nat.pow_le_pow_right (by omega) hn
  have hcast : ((2 ^ n : Nat) : Int) = 2 ^ n := by push_cast; rfl
  constructor
  · intro h
    have hlt : x.toNat < 2 ^ n := by
      rw [congrArg BitVec.toNat h, hval]
      exact Nat.mod_lt _ (Nat.two_pow_pos n)
    rw [BitVec.toInt_eq_toNat_of_lt (by omega)]
    omega
  · rintro ⟨h0, hlt⟩
    have hnat := BitVec.toInt_eq_toNat_of_lt (BitVec.toInt_pos_iff.mp h0)
    apply BitVec.eq_of_toNat_eq
    rw [hval, Nat.mod_eq_of_lt (by omega)]

/-- **The values of a signed field.** -/
theorem eq_signExtend_setWidth_iff {n : Nat} (h0 : 0 < n) (hn : n ≤ w) (x : BitVec w) :
    x = (x.setWidth n).signExtend w ↔ -2 ^ (n - 1) ≤ x.toInt ∧ x.toInt < 2 ^ (n - 1) := by
  obtain ⟨k, rfl⟩ : ∃ k, n = k + 1 := ⟨n - 1, by omega⟩
  rw [Nat.add_sub_cancel]
  have hext : ((x.setWidth (k + 1)).signExtend w).toInt = (x.setWidth (k + 1)).toInt :=
    BitVec.toInt_signExtend_of_le hn
  have hval : (x.setWidth (k + 1)).toInt = x.toInt.bmod (2 ^ (k + 1)) := by
    rw [BitVec.toInt_setWidth, BitVec.toInt_eq_toNat_bmod,
      Int.bmod_bmod_of_dvd (Nat.pow_dvd_pow 2 hn)]
  have hdouble : ((2 ^ (k + 1) : Nat) : Int) = 2 ^ k * 2 := by
    push_cast
    exact Int.pow_succ 2 k
  constructor
  · intro h
    rw [congrArg BitVec.toInt h, hext]
    exact ⟨BitVec.le_toInt _, BitVec.toInt_lt⟩
  · rintro ⟨hlo, hhi⟩
    apply BitVec.eq_of_toInt_eq
    rw [hext, hval, Int.bmod_eq_of_le_mul_two]
    · rw [hdouble]
      omega
    · rw [hdouble]
      omega

/-- A signed field, extended to a part of the word, is that part of a value that fits it. -/
theorem signExtend_setWidth_of_fits {n m : Nat} {x : BitVec w} (hnm : n ≤ m) (hm : m ≤ w)
    (h : x = (x.setWidth n).signExtend w) : (x.setWidth n).signExtend m = x.setWidth m := by
  apply BitVec.eq_of_toInt_eq
  rw [BitVec.toInt_signExtend_of_le hnm, BitVec.toInt_setWidth x (v := m),
    ← Int.bmod_bmod_of_dvd (Nat.pow_dvd_pow 2 hm), ← BitVec.toInt_eq_toNat_bmod]
  have hext : x.toInt = (x.setWidth n).toInt := by
    rw [congrArg BitVec.toInt h, BitVec.toInt_signExtend_of_le (hnm.trans hm)]
  rw [hext, ← BitVec.toInt_signExtend_of_le hnm, BitVec.toInt_bmod_cancel]

end Frost32.BitField
