import Frost32.Hdl.Arithlog
import Frost32.Lib.NonRestoring
import Frost32.Lib.Run

namespace Frost32.Hdl

open Lib.NonRestoring

/-!
# The arithmetic units compute what they are named after

* `Multiplier32.step_accept`, `step_partials`, `step_prod` — the three edges of a
  multiplication; `prod_eq` puts the three 16-bit products together.
* `DividerTemps.Dividing` — the loop invariant of the divider: after `j` calls of `iterate`
  the variables hold `j` digits of the non-restoring division of the magnitudes.
* `NonRestoringDivider.Prepared`, `Working`, `Finished`, `Done` — the states an accepted
  command goes through, each reached from the one before by one edge.
* `NonRestoringDivider.done_run` — **from an idle state an accepted command is done after
  `W / k + 4` edges, and stays done, with the quotient and the remainder in the output
  ports**, for any width up to 128 and either order of the clocked blocks.
-/

/-! ### `Multiplier32` -/

namespace Multiplier32

/-- Schoolbook multiplication of two numbers of two 16-bit digits, modulo 2^32. -/
private theorem schoolbook (a b c d : Nat) :
    (((b * c % 2 ^ 32 + a * d % 2 ^ 32) % 2 ^ 32 * 2 ^ 16 + a * c % 2 ^ 32 % 2 ^ 48) % 2 ^ 48)
        % 2 ^ 32
      = (65536 * b + a) * (65536 * d + c) % 2 ^ 32 := by
  have hexp : (65536 * b + a) * (65536 * d + c)
      = 2 ^ 32 * (b * d) + 2 ^ 16 * (b * c + a * d) + a * c := by ring
  rw [hexp]
  omega

/-- Three 16-bit products and two additions make a 32-bit product. -/
theorem prod_eq (x y : BitVec 32) :
    ((((x.extractLsb' 16 16).setWidth 32 * (y.extractLsb' 0 16).setWidth 32
        + (x.extractLsb' 0 16).setWidth 32 * (y.extractLsb' 16 16).setWidth 32) ++ 0#16
          : BitVec 48)
      + ((x.extractLsb' 0 16).setWidth 32 * (y.extractLsb' 0 16).setWidth 32).setWidth 48).setWidth
        32 = x * y := by
  apply BitVec.eq_of_toNat_eq
  have hx := x.isLt
  have hy := y.isLt
  simp only [BitVec.toNat_setWidth, BitVec.toNat_add, BitVec.toNat_append, BitVec.toNat_mul,
    BitVec.extractLsb'_toNat, BitVec.toNat_ofNat, Nat.shiftRight_eq_div_pow, Nat.shiftLeft_eq,
    Nat.zero_mod, Nat.or_zero, Nat.pow_zero, Nat.div_one]
  -- the digits of `x` and `y`
  have hd : ∀ n : Nat, n < 2 ^ 32 →
      n / 2 ^ 16 % 2 ^ 16 % 2 ^ 32 = n / 65536 ∧ n % 2 ^ 16 % 2 ^ 32 = n % 65536 := by
    intro n hn
    constructor <;> omega
  rw [(hd _ hx).1, (hd _ hx).2, (hd _ hy).1, (hd _ hy).2, schoolbook, Nat.div_add_mod,
    Nat.div_add_mod]

variable {m : Multiplier32} {i : PortInMultiplier32}

theorem step_accept (he : i.enable = true) (ha : m.canAcceptCmd = true) :
    (m.step i).x = i.x ∧ (m.step i).y = i.y ∧ (m.step i).canAcceptCmd = false ∧
      (m.step i).state = 1#1 ∧ (m.step i).dataReady = false := by
  unfold step
  rw [if_pos (by simp [he, ha])]
  exact ⟨rfl, rfl, rfl, rfl, rfl⟩

/-- The last product stays in the output port. -/
theorem step_accept_prod (he : i.enable = true) (ha : m.canAcceptCmd = true) :
    (m.step i).prod = m.prod := by
  unfold step
  rw [if_pos (by simp [he, ha])]

/-- The edge that forms the products. -/
theorem step_partials (hb : m.canAcceptCmd = false) (hs : m.state = 1#1) :
    m.step i =
      { m with
        state := 0#1
        partialResultX0Y0 :=
          (m.x.extractLsb' 0 16).setWidth 32 * (m.y.extractLsb' 0 16).setWidth 32
        partialResultX0Y1 :=
          (m.x.extractLsb' 0 16).setWidth 32 * (m.y.extractLsb' 16 16).setWidth 32
        partialResultX1Y0 :=
          (m.x.extractLsb' 16 16).setWidth 32 * (m.y.extractLsb' 0 16).setWidth 32 } := by
  unfold step
  dsimp only
  rw [if_neg (by simp [hb]), if_pos (by simp [busy, hb]), if_pos hs, hs]
  rfl

/-- The edge that adds them. -/
theorem step_sum (hb : m.canAcceptCmd = false) (hs : m.state = 0#1) :
    (m.step i).prod
        = (((m.partialResultX1Y0 + m.partialResultX0Y1) ++ 0#16 : BitVec 48)
            + m.partialResultX0Y0.setWidth 48).setWidth 32 ∧
      (m.step i).canAcceptCmd = true ∧ (m.step i).dataReady = true := by
  unfold step
  dsimp only
  rw [if_neg (by simp [hb]), if_pos (by simp [busy, hb]), if_neg (by simp [hs])]
  exact ⟨rfl, rfl, rfl⟩

/-- Nothing happens without a command. -/
theorem step_idle (he : i.enable = false) (ha : m.canAcceptCmd = true) : m.step i = m := by
  unfold step
  rw [if_neg (by simp [he]), if_neg (by simp [busy, ha])]

/-- **Two edges after the one that takes the command the product is there.** -/
theorem step_step_prod {j k : PortInMultiplier32} (he : i.enable = true)
    (ha : m.canAcceptCmd = true) :
    (((m.step i).step j).step k).prod = i.x * i.y ∧
      (((m.step i).step j).step k).canAcceptCmd = true := by
  obtain ⟨hx, hy, hb, hs, -⟩ := step_accept he ha
  rw [step_partials hb hs]
  obtain ⟨hp, hc, -⟩ := step_sum (i := k) (m := { m.step i with
    state := 0#1, partialResultX0Y0 := _, partialResultX0Y1 := _, partialResultX1Y0 := _ }) hb rfl
  refine ⟨hp.trans ?_, hc⟩
  dsimp only
  rw [hx, hy]
  exact prod_eq _ _

/-- The outputs are low after the edge that takes a command and after the next, and high
    after the third. -/
theorem step_step_handshake {j k : PortInMultiplier32} (he : i.enable = true)
    (ha : m.canAcceptCmd = true) :
    ((m.step i).canAcceptCmd = false ∧ (m.step i).dataReady = false) ∧
      (((m.step i).step j).canAcceptCmd = false ∧ ((m.step i).step j).dataReady = false) ∧
      (((m.step i).step j).step k).canAcceptCmd = true ∧
      (((m.step i).step j).step k).dataReady = true := by
  obtain ⟨-, -, hb, hs, hr⟩ := step_accept he ha
  rw [step_partials hb hs]
  exact ⟨⟨hb, hr⟩, ⟨hb, hr⟩, (step_sum (i := k) (m := { m.step i with
    state := 0#1, partialResultX0Y0 := _, partialResultX0Y1 := _,
    partialResultX1Y0 := _ }) hb rfl).2⟩

end Multiplier32

/-! ### The variables of the divider -/

variable {W : Nat}

namespace DividerTemps

/-- Doubling a bit vector and adding or subtracting, as long as the result fits. -/
private theorem toInt_of_fits {n : Nat} {x : BitVec n} {r : Int} {b : Int}
    (h : x.toInt = r.bmod (2 ^ n)) (hb : 2 * b ≤ 2 ^ n) (hlo : -b ≤ r) (hhi : r < b) :
    x.toInt = r := by
  rw [h]
  have hb' : 2 * b ≤ ((2 ^ n : Nat) : Int) := by exact_mod_cast hb
  exact Int.bmod_eq_of_le (by omega) (by omega)

private theorem toInt_double_sub {n : Nat} (p d : BitVec n) :
    ((p <<< 1) - d).toInt = (2 * p.toInt - d.toInt).bmod (2 ^ n) := by
  rw [BitVec.toInt_sub, BitVec.toInt_shiftLeft, Int.bmod_sub_bmod, Nat.shiftLeft_eq]
  have hp : (2 * p.toInt).bmod (2 ^ n) = (2 * (p.toNat : Int)).bmod (2 ^ n) := by
    rw [BitVec.toInt_eq_toNat_bmod, Int.mul_bmod_bmod]
  rw [← Int.bmod_sub_bmod (x := 2 * p.toInt), hp, Int.bmod_sub_bmod]
  push_cast
  ring_nf

private theorem toInt_double_add {n : Nat} (p d : BitVec n) :
    ((p <<< 1) + d).toInt = (2 * p.toInt + d.toInt).bmod (2 ^ n) := by
  rw [BitVec.toInt_add, BitVec.toInt_shiftLeft, Int.bmod_add_bmod, Nat.shiftLeft_eq]
  have hp : (2 * p.toInt).bmod (2 ^ n) = (2 * (p.toNat : Int)).bmod (2 ^ n) := by
    rw [BitVec.toInt_eq_toNat_bmod, Int.mul_bmod_bmod]
  rw [← Int.bmod_add_bmod (x := 2 * p.toInt), hp, Int.bmod_add_bmod]
  push_cast
  ring_nf

/-- After `j` digits of the division of `num` by `den`. -/
structure Dividing (num den j : Nat) (v : DividerTemps W) : Prop where
  D : v.D.toInt = den * 2 ^ W
  P : v.P.toInt = partialRem (den * 2 ^ W) num j
  quot : v.quotBuf.toNat = digits (den * 2 ^ W) num j * 2 ^ (W - j)

/-- The test of `iterate` is the sign test of a digit. -/
private theorem iterate_test {n : Nat} (p : BitVec n) :
    (!p.msb || p == 0#n) = decide (0 ≤ p.toInt) := by
  rw [BitVec.msb_eq_toInt]
  by_cases h : p.toInt < 0
  · have hne : (p == 0#n) = false := by
      rw [beq_eq_false_iff_ne]
      rintro rfl
      simp at h
    rw [hne]
    simp [h]
  · simp [h]
    omega

/-- Writing one bit below the bits already there. -/
private theorem toNat_or_bit {q i : Nat} (x : BitVec W) (hx : x.toNat = q * 2 ^ (i + 1))
    (hi : i < W) : (x ||| (1#W <<< i)).toNat = (2 * q + 1) * 2 ^ i := by
  have hW : (1 : Nat) < 2 ^ W := Nat.one_lt_two_pow (by omega)
  have hpow : (2 : Nat) ^ i < 2 ^ W := Nat.pow_lt_pow_right (by omega) hi
  rw [BitVec.toNat_or, BitVec.toNat_shiftLeft, BitVec.toNat_ofNat, Nat.mod_eq_of_lt hW,
    Nat.shiftLeft_eq, one_mul, Nat.mod_eq_of_lt hpow, hx, mul_comm q,
    ← Nat.two_pow_add_eq_or_of_lt (Nat.pow_lt_pow_right (by omega) (Nat.lt_succ_self i)),
    pow_succ]
  ring

/-- The scaled divisor fits the variables twice over. -/
private theorem scaled_bounds {num den : Nat} (hnum : num < 2 ^ W) (hden : 0 < den)
    (hden' : den < 2 ^ W) :
    (num : Int) < den * 2 ^ W ∧ 2 * (den * 2 ^ W : Int) ≤ 2 ^ (2 * W + 1) := by
  constructor
  · have h : num < 1 * 2 ^ W := by omega
    exact_mod_cast lt_of_lt_of_le h (Nat.mul_le_mul_right _ hden)
  · have h : den * 2 ^ W ≤ 2 ^ W * 2 ^ W := Nat.mul_le_mul_right _ hden'.le
    have h2 : 2 * (den * 2 ^ W) ≤ 2 ^ (2 * W + 1) := by
      calc 2 * (den * 2 ^ W) ≤ 2 * (2 ^ W * 2 ^ W) := Nat.mul_le_mul_left _ h
        _ = 2 ^ (2 * W + 1) := by ring
    exact_mod_cast h2

/-- **One call of `iterate` is one digit.** -/
theorem iterate_dividing {num den j : Nat} {v : DividerTemps W} (hnum : num < 2 ^ W)
    (hden : 0 < den) (hden' : den < 2 ^ W) (h : Dividing num den j v) (hj : j < W)
    {i : BitVec 8} (hi : i.toNat = W - 1 - j) : Dividing num den (j + 1) (v.iterate i) := by
  obtain ⟨hscale, hfit⟩ := scaled_bounds hnum hden hden'
  obtain ⟨hlo, hhi⟩ := partialRem_bounds (n := j + 1)
    (show -(den * 2 ^ W : Int) ≤ num by omega) hscale
  have hexp : W - j = i.toNat + 1 := by omega
  have hexp' : W - (j + 1) = i.toNat := by omega
  unfold iterate
  rw [iterate_test, h.P]
  by_cases hp : 0 ≤ partialRem (den * 2 ^ W) num j
  · -- the digit is +1
    rw [if_pos (by simpa using hp)]
    refine ⟨h.D, ?_, ?_⟩
    · have hnext : partialRem (den * 2 ^ W) num (j + 1)
          = 2 * partialRem (den * 2 ^ W) num j - den * 2 ^ W := if_pos hp
      rw [hnext] at hlo hhi ⊢
      refine toInt_of_fits ?_ hfit hlo hhi
      rw [toInt_double_sub, h.P, h.D]
    · have hq := toNat_or_bit v.quotBuf (by rw [h.quot, hexp]) (show i.toNat < W by omega)
      rw [hq, hexp', digits, if_pos hp]
  · -- the digit is -1
    rw [if_neg (by simpa using hp)]
    refine ⟨h.D, ?_, ?_⟩
    · have hnext : partialRem (den * 2 ^ W) num (j + 1)
          = 2 * partialRem (den * 2 ^ W) num j + den * 2 ^ W := if_neg hp
      rw [hnext] at hlo hhi ⊢
      refine toInt_of_fits ?_ hfit hlo hhi
      rw [toInt_double_add, h.P, h.D]
    · rw [h.quot, hexp, hexp', digits, if_neg hp, pow_succ]
      ring

@[simp] theorem iterate_counter (i : BitVec 8) (v : DividerTemps W) :
    (v.iterate i).counter = v.counter := by
  unfold iterate
  split <;> rfl

@[simp] theorem iterates_counter (v : DividerTemps W) (n : Nat) :
    (v.iterates n).counter = v.counter := by
  induction n with
  | zero => rfl
  | succ n ih => rw [iterates, iterate_counter, ih]

/-- The calls of one edge are as many digits. -/
theorem iterates_dividing {num den j : Nat} {v : DividerTemps W} (hW : W ≤ 128)
    (hnum : num < 2 ^ W) (hden : 0 < den) (hden' : den < 2 ^ W) (h : Dividing num den j v)
    (hcnt : v.counter = BitVec.ofNat 8 (W - 1 - j)) (n : Nat) (hn : j + n ≤ W) :
    Dividing num den (j + n) (v.iterates n) := by
  induction n with
  | zero => exact h
  | succ n ih =>
    refine iterate_dividing hnum hden hden' (ih (by omega)) (by omega) ?_
    rw [hcnt, BitVec.toNat_sub, BitVec.toNat_ofNat, BitVec.toNat_ofNat]
    omega

private theorem toNat_sub_not (x : BitVec W) :
    (x - ~~~x).toNat = (2 * x.toNat + 1) % 2 ^ W := by
  have hx := x.isLt
  rw [BitVec.toNat_sub, BitVec.toNat_not]
  congr 1
  omega

private theorem toNat_sub_not_sub_one (x : BitVec W) :
    ((x - ~~~x) - 1#W).toNat = 2 * x.toNat % 2 ^ W := by
  have hx := x.isLt
  have hneg : x - ~~~x - 1#W = x + x := by
    rw [BitVec.not_eq_neg_add]
    simp [BitVec.sub_eq_add_neg, BitVec.add_assoc]
  rw [hneg, BitVec.toNat_add, two_mul]

/-- A bit vector with a non-negative value, shifted down from its scale. -/
private theorem ushiftRight_of_scaled {n k r : Nat} (x : BitVec n) (h : x.toInt = r * 2 ^ k) :
    x >>> k = BitVec.ofNat n r := by
  have hcond := BitVec.toInt_eq_toNat_cond x
  have hpos : (0 : Int) ≤ r * 2 ^ k := by positivity
  have hx := x.isLt
  have hnat : x.toNat = r * 2 ^ k := by
    rw [h] at hcond
    split at hcond
    · exact_mod_cast hcond.symm
    · have hx' : (x.toNat : Int) < 2 ^ n := by exact_mod_cast hx
      omega
  have hr : r < 2 ^ n := lt_of_le_of_lt (Nat.le_mul_of_pos_right _ (by positivity)) (hnat ▸ hx)
  apply BitVec.eq_of_toNat_eq
  rw [BitVec.toNat_ushiftRight, BitVec.toNat_ofNat, Nat.mod_eq_of_lt hr, hnat,
    Nat.shiftRight_eq_div_pow, Nat.mul_div_cancel _ (by positivity)]

/-- The bits of all `W` digits stand for the quotient. -/
theorem quotMagnitude_eq {num den : Nat} {v : DividerTemps W} (hnum : num < 2 ^ W)
    (hden : 0 < den) (h : Dividing num den W v) :
    v.quotMagnitude = BitVec.ofNat W (num / den) := by
  have hq : v.quotBuf.toNat = digits (den * 2 ^ W) num W := by
    rw [h.quot, Nat.sub_self, pow_zero, mul_one]
  have hquot : num / den < 2 ^ W := lt_of_le_of_lt (Nat.div_le_self _ _) hnum
  have hfin := div_mod_of_digits hnum hden
  dsimp only at hfin
  rw [← h.P, ← hq] at hfin
  unfold quotMagnitude
  rw [BitVec.msb_eq_toInt]
  apply BitVec.eq_of_toNat_eq
  rw [BitVec.toNat_ofNat, Nat.mod_eq_of_lt hquot]
  by_cases hneg : v.P.toInt < 0
  · rw [if_pos hneg] at hfin
    rw [if_pos (by simpa using hneg), toNat_sub_not_sub_one]
    have hval : 2 * v.quotBuf.toNat = num / den + 2 ^ W := by
      zify
      linarith [hfin.1]
    rw [hval, Nat.add_mod_right, Nat.mod_eq_of_lt hquot]
  · rw [if_neg hneg] at hfin
    rw [if_neg (by simpa using hneg), toNat_sub_not]
    have hval : 2 * v.quotBuf.toNat + 1 = num / den + 2 ^ W := by
      zify
      linarith [hfin.1]
    rw [hval, Nat.add_mod_right, Nat.mod_eq_of_lt hquot]

/-- The last partial remainder stands for the remainder. -/
theorem remMagnitude_eq {num den : Nat} {v : DividerTemps W} (hnum : num < 2 ^ W)
    (hden : 0 < den) (hden' : den < 2 ^ W) (h : Dividing num den W v) :
    v.remMagnitude = BitVec.ofNat (2 * W + 1) (num % den) := by
  obtain ⟨hscale, hfit⟩ := scaled_bounds hnum hden hden'
  have hfin := div_mod_of_digits hnum hden
  dsimp only at hfin
  rw [← h.P] at hfin
  have hmod : (num % den : Int) < den := Int.emod_lt_of_pos _ (by exact_mod_cast hden)
  have hmod0 : (0 : Int) ≤ num % den := Int.emod_nonneg _ (by exact_mod_cast hden.ne')
  have hpow : (0 : Int) < 2 ^ W := by positivity
  unfold remMagnitude
  rw [BitVec.msb_eq_toInt]
  -- a negative partial remainder is restored by one addition
  by_cases hneg : v.P.toInt < 0
  · rw [if_pos hneg] at hfin
    rw [if_pos (by simpa using hneg)]
    refine ushiftRight_of_scaled _ ?_
    have hsum : (v.P + v.D).toInt = v.P.toInt + den * 2 ^ W := by
      refine toInt_of_fits (by rw [BitVec.toInt_add, h.D]) hfit ?_ ?_
      · nlinarith [hfin.2]
      · nlinarith [hfin.2]
    rw [hsum, ← hfin.2]
    push_cast
    rfl
  · rw [if_neg hneg] at hfin
    rw [if_neg (by simpa using hneg)]
    refine ushiftRight_of_scaled _ ?_
    rw [← hfin.2]
    push_cast
    rfl

end DividerTemps

/-! ### The life of a command -/

namespace NonRestoringDivider

/-- The magnitude the divider works with: signed commands drop a sign. -/
def magnitude (sgn : Bool) (x : BitVec W) : BitVec W := if sgn && x.msb then -x else x

theorem magnitude_ne_zero {sgn : Bool} {x : BitVec W} (h : x ≠ 0#W) : magnitude sgn x ≠ 0#W := by
  unfold magnitude
  split
  · simpa using h
  · exact h

/-- The quotient of a command, truncated toward zero. -/
def quotient (c : PortInDivider W) : BitVec W :=
  if c.unsgnOrSgn then c.num.sdiv c.denom else c.num / c.denom

/-- Its remainder, with the sign of the numerator. -/
def remainder (c : PortInDivider W) : BitVec W :=
  if c.unsgnOrSgn then c.num.srem c.denom else c.num % c.denom

theorem quotient_eq (c : PortInDivider W) :
    quotient c =
      if c.unsgnOrSgn && (c.num.msb ^^ c.denom.msb) then
        -(magnitude c.unsgnOrSgn c.num / magnitude c.unsgnOrSgn c.denom)
      else magnitude c.unsgnOrSgn c.num / magnitude c.unsgnOrSgn c.denom := by
  unfold quotient magnitude
  cases c.unsgnOrSgn with
  | false => simp
  | true =>
    rw [BitVec.sdiv_eq]
    cases c.num.msb <;> cases c.denom.msb <;> simp [BitVec.udiv_def]

theorem remainder_eq (c : PortInDivider W) :
    remainder c =
      if c.unsgnOrSgn && c.num.msb then
        -(magnitude c.unsgnOrSgn c.num % magnitude c.unsgnOrSgn c.denom)
      else magnitude c.unsgnOrSgn c.num % magnitude c.unsgnOrSgn c.denom := by
  unfold remainder magnitude
  cases c.unsgnOrSgn with
  | false => simp
  | true =>
    rw [BitVec.srem_eq]
    cases c.num.msb <;> cases c.denom.msb <;> simp

/-- What an accepted command leaves in the registers until it is done. -/
structure Held (c : PortInDivider W) (d : NonRestoringDivider W) : Prop where
  busy : d.outCanAcceptCmd = false
  sgn : d.unsgnOrSgnBuf = c.unsgnOrSgn
  numNeg : d.numWasNegative = c.num.msb
  denomNeg : d.denomWasNegative = c.denom.msb

/-- Ready for a command. -/
structure Idle (d : NonRestoringDivider W) : Prop where
  canAccept : d.outCanAcceptCmd = true
  started : d.startState = true

/-- After the edge that takes the command. -/
structure Accepted (c : PortInDivider W) (d : NonRestoringDivider W) : Prop extends Held c d where
  started : d.startState = false
  ended : d.endState = false
  state : d.stateCounter = -1#8
  num : d.numBuf = c.num
  denom : d.denomBuf = c.denom

/-- After the edge that takes the magnitudes. -/
structure Prepared (c : PortInDivider W) (d : NonRestoringDivider W) : Prop extends Held c d where
  started : d.startState = true
  ended : d.endState = false
  state : d.stateCounter = -1#8
  num : d.numBuf = magnitude c.unsgnOrSgn c.num
  denom : d.denomBuf = magnitude c.unsgnOrSgn c.denom
  counter : d.temps.counter = BitVec.ofNat 8 (W - 1)

/-- After `e` edges of `k` digits each. -/
structure Working (k e : Nat) (c : PortInDivider W) (d : NonRestoringDivider W) : Prop
    extends Held c d where
  started : d.startState = true
  ended : d.endState = false
  state : d.stateCounter.toNat ≤ e
  counter : d.temps.counter = BitVec.ofNat 8 (W - 1) - BitVec.ofNat 8 (e * k)
  dividing : c.denom ≠ 0#W → DividerTemps.Dividing (magnitude c.unsgnOrSgn c.num).toNat
    (magnitude c.unsgnOrSgn c.denom).toNat (e * k) d.temps

/-- With the result in `__quot_buf_2` and `__rem_buf_2`. -/
structure Finished (k : Nat) (order : BlockOrder) (c : PortInDivider W)
    (d : NonRestoringDivider W) : Prop extends Held c d where
  started : d.startState = true
  ended : d.endState = true
  counter : (d.seen k order).counter.msb = true
  quot : c.denom ≠ 0#W → d.quotBuf2 = quotient c
  rem : c.denom ≠ 0#W → d.remBuf2 = remainder c

/-- With the result in the output ports. -/
structure Done (c : PortInDivider W) (d : NonRestoringDivider W) : Prop extends Idle d where
  ready : d.outDataReady = true
  quot : c.denom ≠ 0#W → d.outQuot = quotient c
  rem : c.denom ≠ 0#W → d.outRem = remainder c

variable {k : Nat} {order : BlockOrder} {c i : PortInDivider W} {d : NonRestoringDivider W}

/-! ### One edge from each state to the next -/

theorem step_accepts (hd : d.Idle) (hc : c.enable = true) : Accepted c (d.step k order c) := by
  have he : d.controlBlock c (d.seen k order) =
      { d with outCanAcceptCmd := false, outDataReady := false, stateCounter := -1#8,
               numBuf := c.num, denomBuf := c.denom, unsgnOrSgnBuf := c.unsgnOrSgn,
               numWasNegative := c.num.msb, denomWasNegative := c.denom.msb,
               startState := false, endState := false } := by
    unfold controlBlock
    rw [if_pos (by simp [hc, hd.canAccept])]
  unfold step
  rw [he]
  exact ⟨⟨rfl, rfl, rfl, rfl⟩, rfl, rfl, rfl, rfl, rfl⟩

/-- Without a command an idle divider keeps its outputs. -/
theorem step_idle (hd : d.Idle) (hi : i.enable = false) :
    d.step k order i = { d with temps := d.iterateBlock k } := by
  have he : d.controlBlock i (d.seen k order) = d := by
    unfold controlBlock
    rw [if_neg (by simp [hi]), if_neg (by simp [hd.started]),
      if_neg (by simp [NonRestoringDivider.busy, hd.canAccept])]
  unfold step
  rw [he]

/-- The counter the first block reloads while the state counter is negative. -/
private theorem iterateBlock_of_state (h : d.stateCounter = -1#8) :
    d.iterateBlock k =
      { counter := BitVec.ofNat 8 (W - 1)
        quotBuf := 0
        P := d.numBuf.setWidth (2 * W + 1)
        D := d.denomBuf.setWidth (2 * W + 1) <<< W } := by
  unfold iterateBlock
  rw [if_pos (by rw [h]; decide)]

/-- The digits of one edge. -/
private theorem iterateBlock_of_busy (h : d.stateCounter.toNat < 128)
    (hb : d.outCanAcceptCmd = false) :
    d.iterateBlock k =
      { d.temps.iterates k with counter := d.temps.counter - BitVec.ofNat 8 k } := by
  unfold iterateBlock
  rw [if_neg (by rw [BitVec.msb_eq_decide]; simp; omega),
    if_pos (by simp [NonRestoringDivider.busy, hb])]

/-- A counter that starts below 128 and has not passed 0 is not negative. -/
private theorem counter_msb {n j : Nat} (hn : n < 128) (hj : j ≤ n) :
    (BitVec.ofNat 8 n - BitVec.ofNat 8 j).msb = false := by
  rw [BitVec.msb_eq_decide, BitVec.toNat_sub, BitVec.toNat_ofNat, BitVec.toNat_ofNat]
  simp
  omega

/-- A counter that has passed 0, by not too much, is negative. -/
private theorem counter_msb_past {n j : Nat} (_hn : n < 128) (hj : n < j) (hj' : j ≤ n + 5) :
    (BitVec.ofNat 8 n - BitVec.ofNat 8 j).msb = true := by
  rw [BitVec.msb_eq_decide, BitVec.toNat_sub, BitVec.toNat_ofNat, BitVec.toNat_ofNat]
  simp
  omega

theorem accepted_step (h : Accepted c d) (hi : i.enable = false) :
    Prepared c (d.step k order i) := by
  have he : d.controlBlock i (d.seen k order) =
      { d with
        startState := true
        numBuf := if d.unsgnOrSgnBuf && d.numWasNegative then -d.numBuf else d.numBuf
        denomBuf :=
          if d.unsgnOrSgnBuf && d.denomWasNegative then -d.denomBuf else d.denomBuf } := by
    unfold controlBlock
    rw [if_neg (by simp [hi]), if_pos h.started]
  unfold step
  rw [he, iterateBlock_of_state h.state]
  refine ⟨⟨h.busy, h.sgn, h.numNeg, h.denomNeg⟩, rfl, h.ended, h.state, ?_, ?_, rfl⟩
  · show (if _ then _ else _) = _
    rw [h.sgn, h.numNeg, h.num]
    rfl
  · show (if _ then _ else _) = _
    rw [h.sgn, h.denomNeg, h.denom]
    rfl

/-- While the counter the second block sees is not negative, it counts edges. -/
private theorem controlBlock_counts {v : DividerTemps W} (h : Held c d)
    (hs : d.startState = true) (hi : i.enable = false) (hv : v.counter.msb = false) :
    d.controlBlock i v = { d with stateCounter := d.stateCounter + 1#8, endState := false } := by
  unfold controlBlock
  rw [if_neg (by simp [hi]), if_neg (by simp [hs]),
    if_pos (by simp [NonRestoringDivider.busy, h.busy]), if_pos (by simp [hv])]

/-- The operands as the first block loads them: no digit yet. -/
private theorem dividing_start (num denom : BitVec W) :
    DividerTemps.Dividing num.toNat denom.toNat 0
      { counter := BitVec.ofNat 8 (W - 1)
        quotBuf := 0
        P := num.setWidth (2 * W + 1)
        D := denom.setWidth (2 * W + 1) <<< W } := by
  have hnum := num.isLt
  have hden := denom.isLt
  have hpow : (2 : Nat) ^ W ≤ 2 ^ (2 * W) := Nat.pow_le_pow_right (by omega) (by omega)
  have hdouble : (2 : Nat) ^ (2 * W + 1) = 2 * 2 ^ (2 * W) := by rw [pow_succ, mul_comm]
  -- a bit vector below half the range has its value as a signed number
  have hfits : ∀ x : BitVec (2 * W + 1), x.toNat < 2 ^ (2 * W) → x.toInt = x.toNat := by
    intro x hx
    rw [BitVec.toInt_eq_toNat_cond, if_pos (by omega)]
  have hscaled : denom.toNat * 2 ^ W < 2 ^ (2 * W) := by
    calc denom.toNat * 2 ^ W < 2 ^ W * 2 ^ W := Nat.mul_lt_mul_of_pos_right hden (by positivity)
      _ = 2 ^ (2 * W) := by rw [two_mul, pow_add]
  refine ⟨?_, ?_, ?_⟩
  · have hval : (denom.setWidth (2 * W + 1) <<< W).toNat = denom.toNat * 2 ^ W := by
      rw [BitVec.toNat_shiftLeft, BitVec.toNat_setWidth, Nat.shiftLeft_eq,
        Nat.mod_eq_of_lt (by omega : denom.toNat < 2 ^ (2 * W + 1)), Nat.mod_eq_of_lt (by omega)]
    show (denom.setWidth (2 * W + 1) <<< W).toInt = _
    rw [hfits _ (by omega), hval]
    push_cast
    rfl
  · show (num.setWidth (2 * W + 1)).toInt = _
    have hval : (num.setWidth (2 * W + 1)).toNat = num.toNat := by
      rw [BitVec.toNat_setWidth, Nat.mod_eq_of_lt (by omega)]
    rw [hfits _ (by omega), hval]
    rfl
  · show (0#W).toNat = _
    simp [digits]

theorem prepared_step (hW : W ≤ 128) (h : Prepared c d) (hi : i.enable = false) :
    Working k 0 c (d.step k order i) := by
  have hlt : W - 1 < 128 := by omega
  have hseen : (d.seen k order).counter.msb = false := by
    have hmsb := counter_msb hlt (Nat.zero_le (W - 1))
    rw [show BitVec.ofNat 8 0 = 0#8 from rfl, BitVec.sub_zero] at hmsb
    cases order with
    | preEdge => rw [seen, h.counter]; exact hmsb
    | postEdge => rw [seen, iterateBlock_of_state h.state]; exact hmsb
  unfold step
  rw [controlBlock_counts h.toHeld h.started hi hseen, iterateBlock_of_state h.state]
  refine ⟨⟨h.busy, h.sgn, h.numNeg, h.denomNeg⟩, h.started, rfl, ?_, ?_, ?_⟩
  · show (d.stateCounter + 1#8).toNat ≤ 0
    rw [h.state]
    decide
  · show BitVec.ofNat 8 (W - 1) = _
    simp
  · intro _
    rw [Nat.zero_mul, h.num, h.denom]
    exact dividing_start _ _

/-- The digits an edge adds, in the variables of the first block. -/
private theorem working_iterates {e : Nat} (hW : W ≤ 128) (h : Working k e c d)
    (he : e < 128) (hk : (e + 1) * k ≤ W) :
    d.iterateBlock k = { d.temps.iterates k with counter := d.temps.counter - BitVec.ofNat 8 k } ∧
      d.temps.counter - BitVec.ofNat 8 k
        = BitVec.ofNat 8 (W - 1) - BitVec.ofNat 8 ((e + 1) * k) ∧
      (c.denom ≠ 0#W → DividerTemps.Dividing (magnitude c.unsgnOrSgn c.num).toNat
        (magnitude c.unsgnOrSgn c.denom).toNat ((e + 1) * k) (d.temps.iterates k)) := by
  have hsum : (e + 1) * k = e * k + k := by ring
  refine ⟨iterateBlock_of_busy (by have := h.state; omega) h.busy, ?_, ?_⟩
  · rw [h.counter, hsum, BitVec.ofNat_add, BitVec.sub_eq_add_neg, BitVec.sub_eq_add_neg,
      BitVec.sub_eq_add_neg, BitVec.neg_add, BitVec.sub_eq_add_neg, BitVec.add_assoc]
  · intro hne
    have hpos : 0 < (magnitude c.unsgnOrSgn c.denom).toNat := by
      have hm : magnitude c.unsgnOrSgn c.denom ≠ 0#W := magnitude_ne_zero hne
      exact Nat.pos_of_ne_zero (fun h0 => hm (BitVec.eq_of_toNat_eq (by simpa using h0)))
    rw [hsum]
    rcases Nat.eq_zero_or_pos k with rfl | hkpos
    · exact h.dividing hne
    · refine DividerTemps.iterates_dividing hW (magnitude c.unsgnOrSgn c.num).isLt hpos
        (magnitude c.unsgnOrSgn c.denom).isLt (h.dividing hne) ?_ k (by omega)
      rw [h.counter]
      apply BitVec.eq_of_toNat_eq
      rw [BitVec.toNat_sub, BitVec.toNat_ofNat, BitVec.toNat_ofNat, BitVec.toNat_ofNat]
      omega

/-- An edge of work that leaves the counter the second block sees at 0 or more. -/
theorem working_step {e : Nat} (hW : W ≤ 128) (h : Working k e c d) (he : e + 1 < 128)
    (hk : (e + 1) * k ≤ W) (hlast : order = .postEdge → (e + 1) * k < W)
    (hfirst : e * k < W) (hi : i.enable = false) : Working k (e + 1) c (d.step k order i) := by
  obtain ⟨hiter, hcnt, hdiv⟩ := working_iterates hW h (by omega) hk
  have hseen : (d.seen k order).counter.msb = false := by
    cases order with
    | preEdge => rw [seen, h.counter]; exact counter_msb (by omega) (by omega)
    | postEdge =>
      have hlast' := hlast rfl
      rw [seen, hiter]
      show (d.temps.counter - BitVec.ofNat 8 k).msb = false
      rw [hcnt]
      exact counter_msb (by omega) (by omega)
  unfold step
  rw [controlBlock_counts h.toHeld h.started hi hseen, hiter]
  refine ⟨⟨h.busy, h.sgn, h.numNeg, h.denomNeg⟩, h.started, rfl, ?_, hcnt, ?_⟩
  · show (d.stateCounter + 1#8).toNat ≤ e + 1
    have hst := h.state
    rw [BitVec.toNat_add]
    show (d.stateCounter.toNat + 1) % 256 ≤ e + 1
    omega
  · intro hne
    obtain ⟨hD, hP, hQ⟩ := hdiv hne
    exact ⟨hD, hP, hQ⟩

/-- The result the second block forms from all the digits. -/
private theorem finish_eq {v : DividerTemps W} (h : Held c d) (hne : c.denom ≠ 0#W)
    (hv : DividerTemps.Dividing (magnitude c.unsgnOrSgn c.num).toNat
      (magnitude c.unsgnOrSgn c.denom).toNat W v) :
    finish v d = (quotient c, remainder c) := by
  have hm : magnitude c.unsgnOrSgn c.denom ≠ 0#W := magnitude_ne_zero hne
  have hpos : 0 < (magnitude c.unsgnOrSgn c.denom).toNat :=
    Nat.pos_of_ne_zero (fun h0 => hm (BitVec.eq_of_toNat_eq (by simpa using h0)))
  have hnum := (magnitude c.unsgnOrSgn c.num).isLt
  have hden := (magnitude c.unsgnOrSgn c.denom).isLt
  -- the digits are those of the magnitudes, and the signs are put back afterwards
  have hq : v.quotMagnitude = magnitude c.unsgnOrSgn c.num / magnitude c.unsgnOrSgn c.denom := by
    rw [DividerTemps.quotMagnitude_eq hnum hpos hv]
    apply BitVec.eq_of_toNat_eq
    rw [BitVec.toNat_ofNat, BitVec.toNat_udiv,
      Nat.mod_eq_of_lt (lt_of_le_of_lt (Nat.div_le_self _ _) hnum)]
  have hr : v.remMagnitude.setWidth W
      = magnitude c.unsgnOrSgn c.num % magnitude c.unsgnOrSgn c.denom := by
    rw [DividerTemps.remMagnitude_eq hnum hpos hden hv]
    apply BitVec.eq_of_toNat_eq
    have hlt := Nat.mod_lt (magnitude c.unsgnOrSgn c.num).toNat hpos
    have hpow : (2 : Nat) ^ W ≤ 2 ^ (2 * W + 1) := Nat.pow_le_pow_right (by omega) (by omega)
    rw [BitVec.toNat_setWidth, BitVec.toNat_ofNat, BitVec.toNat_umod,
      Nat.mod_eq_of_lt (show _ < 2 ^ (2 * W + 1) by omega),
      Nat.mod_eq_of_lt (show _ < 2 ^ W by omega)]
  unfold finish
  rw [quotient_eq, remainder_eq, h.sgn, h.numNeg, h.denomNeg, hq]
  congr 1
  split
  · rw [BitVec.setWidth_neg_of_le (by omega), hr]
  · exact hr

/-- The edge that forms the result, from what the second block sees: all the digits and a
    negative counter.  The counter stays negative for one more edge. -/
private theorem finish_step (h : Held c d) (hs : d.startState = true) (he : d.endState = false)
    (hst : d.stateCounter.toNat < 128) (hi : i.enable = false)
    (hv : (d.seen k order).counter.msb = true)
    (hnext : order = .preEdge → (d.iterateBlock k).counter.msb = true)
    (hnext' : order = .postEdge →
      ((d.iterateBlock k).counter - BitVec.ofNat 8 k).msb = true)
    (hdiv : c.denom ≠ 0#W → DividerTemps.Dividing (magnitude c.unsgnOrSgn c.num).toNat
      (magnitude c.unsgnOrSgn c.denom).toNat W (d.seen k order)) :
    Finished k order c (d.step k order i) := by
  have hc : d.controlBlock i (d.seen k order) =
      { d with endState := true, quotBuf2 := (finish (d.seen k order) d).1,
               remBuf2 := (finish (d.seen k order) d).2 } := by
    unfold controlBlock
    rw [if_neg (by simp [hi]), if_neg (by simp [hs]),
      if_pos (by simp [NonRestoringDivider.busy, h.busy]), if_neg (by simp [hv]), if_pos he]
  unfold step
  rw [hc]
  refine ⟨⟨h.busy, h.sgn, h.numNeg, h.denomNeg⟩, hs, rfl, ?_, ?_, ?_⟩
  · cases order with
    | preEdge => exact hnext rfl
    | postEdge =>
      show (iterateBlock k _).counter.msb = true
      rw [iterateBlock_of_busy (by exact hst) (by exact h.busy)]
      exact hnext' rfl
  · intro hne; exact congrArg Prod.fst (finish_eq h hne (hdiv hne))
  · intro hne; exact congrArg Prod.snd (finish_eq h hne (hdiv hne))

/-- With the second block seeing the new digits, the edge of the last digits forms the
    result. -/
theorem working_step_last {e : Nat} (hpos : 0 < W) (hW : W ≤ 128) (h : Working k e c d)
    (he : e < 128) (hk : (e + 1) * k = W) (hk4 : k ≤ 4) (hi : i.enable = false) :
    Finished k .postEdge c (d.step k .postEdge i) := by
  obtain ⟨hiter, hcnt, hdiv⟩ := working_iterates hW h he hk.le
  rw [hk] at hcnt hdiv
  have hst := h.state
  have hnew : (d.iterateBlock k).counter = BitVec.ofNat 8 (W - 1) - BitVec.ofNat 8 W := by
    rw [hiter]
    exact hcnt
  refine finish_step h.toHeld h.started h.ended (by omega) hi ?_ (fun ho => nomatch ho) ?_ ?_
  · show (d.iterateBlock k).counter.msb = true
    rw [hnew]
    exact counter_msb_past (by omega) (by omega) (by omega)
  · intro _
    have hadd : (d.iterateBlock k).counter - BitVec.ofNat 8 k
        = BitVec.ofNat 8 (W - 1) - BitVec.ofNat 8 (W + k) := by
      rw [hnew]
      apply BitVec.eq_of_toNat_eq
      simp only [BitVec.toNat_sub, BitVec.toNat_ofNat]
      omega
    rw [hadd]
    exact counter_msb_past (by omega) (by omega) (by omega)
  · intro hne
    show DividerTemps.Dividing _ _ W (d.iterateBlock k)
    rw [hiter]
    obtain ⟨hD, hP, hQ⟩ := hdiv hne
    exact ⟨hD, hP, hQ⟩

/-- With the second block seeing the old digits, the edge after that does. -/
theorem working_step_full {e : Nat} (hpos : 0 < W) (hW : W ≤ 128) (h : Working k e c d)
    (he : e < 128) (hk : e * k = W) (hk4 : k ≤ 4) (hi : i.enable = false) :
    Finished k .preEdge c (d.step k .preEdge i) := by
  have hst := h.state
  have hcnt : d.temps.counter = BitVec.ofNat 8 (W - 1) - BitVec.ofNat 8 W := hk ▸ h.counter
  refine finish_step h.toHeld h.started h.ended (by omega) hi ?_ ?_ (fun ho => nomatch ho) ?_
  · show d.temps.counter.msb = true
    rw [hcnt]
    exact counter_msb_past (by omega) (by omega) (by omega)
  · intro _
    rw [iterateBlock_of_busy (by omega) h.busy]
    show (d.temps.counter - BitVec.ofNat 8 k).msb = true
    have hadd : d.temps.counter - BitVec.ofNat 8 k
        = BitVec.ofNat 8 (W - 1) - BitVec.ofNat 8 (W + k) := by
      rw [hcnt]
      apply BitVec.eq_of_toNat_eq
      simp only [BitVec.toNat_sub, BitVec.toNat_ofNat]
      omega
    rw [hadd]
    exact counter_msb_past (by omega) (by omega) (by omega)
  · intro hne
    exact hk ▸ h.dividing hne

theorem finished_step (h : Finished k order c d) (hi : i.enable = false) :
    Done c (d.step k order i) := by
  have hc : d.controlBlock i (d.seen k order) =
      { d with outCanAcceptCmd := true, stateCounter := -1#8, outDataReady := true,
               outQuot := d.quotBuf2, outRem := d.remBuf2 } := by
    unfold controlBlock
    rw [if_neg (by simp [hi]), if_neg (by simp [h.started]),
      if_pos (by simp [NonRestoringDivider.busy, h.busy]), if_neg (by simp [h.counter]),
      if_neg (by simp [h.ended])]
  unfold step
  rw [hc]
  exact ⟨⟨rfl, h.started⟩, rfl, h.quot, h.rem⟩

theorem done_step (h : Done c d) (hi : i.enable = false) : Done c (d.step k order i) := by
  rw [step_idle h.toIdle hi]
  exact ⟨⟨h.canAccept, h.started⟩, h.ready, h.quot, h.rem⟩

theorem idle_step (h : d.Idle) (hi : i.enable = false) : (d.step k order i).Idle := by
  rw [step_idle h hi]
  exact ⟨h.canAccept, h.started⟩

/-! ### The whole run of a command -/

variable {input : Nat → PortInDivider W}

/-- After two more edges the digits start, and `e` edges later `e * k` of them are done, as
    long as the second block does not see the last one. -/
theorem working_run (hW : W ≤ 128) (hlow : ∀ t, (input t).enable = false)
    (h : Accepted c d) (e : Nat) (he : e < 128)
    (hk : e * k < W ∨ (order = .preEdge ∧ e * k = W)) (hkpos : 0 < k) :
    Working k e c (Lib.run (step k order) d input (e + 2)) := by
  induction e with
  | zero =>
    exact prepared_step hW (accepted_step h (hlow 0)) (hlow 1)
  | succ e ih =>
    have hlt : e * k < (e + 1) * k := Nat.mul_lt_mul_of_pos_right (Nat.lt_succ_self e) hkpos
    have hle : (e + 1) * k ≤ W := by rcases hk with hk | hk <;> omega
    refine working_step hW (ih (by omega) (Or.inl (by omega))) he hle ?_ (by omega) (hlow _)
    rintro rfl
    rcases hk with hk | hk
    · exact hk
    · exact absurd hk.1 BlockOrder.noConfusion

/-- **An accepted command is done after `W / k + 4` edges, and stays done.**  With the second
    block a digit behind, 128 edges of digits are too many for the state counter. -/
theorem done_run {m : Nat} (hpos : 0 < W) (hW : W ≤ 128) (hkpos : 0 < k) (hk4 : k ≤ 4)
    (hm : m * k = W) (hm128 : order = .preEdge → m < 128) (hd : d.Idle) (hc : c.enable = true)
    (hlow : ∀ t, (input t).enable = false) (n : Nat) (hn : m + 4 ≤ n) :
    Done c (Lib.run (step k order) (d.step k order c) input n) := by
  have hacc : Accepted c (d.step k order c) := step_accepts hd hc
  have hm0 : 0 < m := by
    rcases Nat.eq_zero_or_pos m with rfl | h
    · omega
    · exact h
  have hm' : m ≤ 128 := by
    calc m ≤ m * k := Nat.le_mul_of_pos_right m hkpos
      _ ≤ 128 := by rw [hm]; exact hW
  have hdone : Done c (Lib.run (step k order) (d.step k order c) input (m + 4)) := by
    cases order with
    | preEdge =>
      have hw := working_run hW hlow hacc m (hm128 rfl) (Or.inr ⟨rfl, hm⟩) hkpos
      exact finished_step (working_step_full hpos hW hw (hm128 rfl) hm hk4 (hlow _)) (hlow _)
    | postEdge =>
      obtain ⟨e, rfl⟩ : ∃ e, m = e + 1 := ⟨m - 1, by omega⟩
      have hlt : e * k < (e + 1) * k := Nat.mul_lt_mul_of_pos_right (Nat.lt_succ_self e) hkpos
      have hw : Working k e c (Lib.run (step k .postEdge) (d.step k .postEdge c) input (e + 2)) :=
        working_run hW hlow hacc e (by omega) (Or.inl (by omega)) hkpos
      exact done_step (finished_step
        (working_step_last hpos hW hw (by omega) hm hk4 (hlow _)) (hlow _)) (hlow _)
  obtain ⟨j, rfl⟩ : ∃ j, n = m + 4 + j := ⟨n - (m + 4), by omega⟩
  clear hn
  induction j with
  | zero => exact hdone
  | succ j ih => exact done_step ih (hlow _)

end NonRestoringDivider

end Frost32.Hdl
