import Chance.Proofs.Doubles

/-!
# Rounding

The double nearest to a rational number, among two the one of even mantissa, as long as the number
is not beyond the largest double.  A number is rounded to a multiple of its last place, a power of
two that depends on its magnitude.

* `roundEven`             the nearest integer, monotone and odd;
* `lastPlace`             the exponent of the last place;
* `rounded`               the nearest double;
* `rounded_of_canonical`  doubles are rounded to themselves;
* `rounded_mono`          rounding keeps the order;
* `abs_rounded_sub_le`    it moves a number by half a unit of the last place at most.
-/

namespace Chance

/-! ## The nearest integer -/

/-- the nearest integer, the even one if there are two -/
def roundEven (x : Rat) : Int :=
  if x - ⌊x⌋ < 1 / 2 then ⌊x⌋
  else if 1 / 2 < x - ⌊x⌋ then ⌊x⌋ + 1
  else ⌊x⌋ + ⌊x⌋ % 2

theorem roundEven_intCast (k : Int) : roundEven k = k := by
  simp [roundEven]

theorem roundEven_bounds (x : Rat) : ⌊x⌋ ≤ roundEven x ∧ roundEven x ≤ ⌊x⌋ + 1 := by
  unfold roundEven
  split_ifs <;> omega

theorem abs_roundEven_sub_le (x : Rat) : |(roundEven x : Rat) - x| ≤ 1 / 2 := by
  have low := Int.floor_le x
  have high := Int.lt_floor_add_one x
  rw [abs_le]
  unfold roundEven
  split_ifs with less more
  · constructor <;> linarith
  · push_cast
    constructor <;> linarith
  · have parity : (0 : Rat) ≤ (⌊x⌋ % 2 : Int) ∧ ((⌊x⌋ % 2 : Int) : Rat) ≤ 1 := by
      constructor
      · exact_mod_cast (by omega : 0 ≤ ⌊x⌋ % 2)
      · exact_mod_cast (by omega : ⌊x⌋ % 2 ≤ 1)
    push_cast at parity ⊢
    constructor <;> linarith [parity.1, parity.2]

theorem roundEven_mono {x y : Rat} (h : x ≤ y) : roundEven x ≤ roundEven y := by
  rcases (Int.floor_mono h).lt_or_eq with apart | same
  · -- an integer lies between them
    have below := (roundEven_bounds x).2
    have above := (roundEven_bounds y).1
    omega
  · unfold roundEven
    rw [← same]
    split_ifs <;> first | omega | (exfalso; linarith)

theorem roundEven_neg (x : Rat) : roundEven (-x) = -roundEven x := by
  by_cases integral : (⌊x⌋ : Rat) = x
  · rw [← integral, ← Int.cast_neg, roundEven_intCast, roundEven_intCast]
  · have low := lt_of_le_of_ne (Int.floor_le x) integral
    have high := Int.lt_floor_add_one x
    have floor : ⌊-x⌋ = -⌊x⌋ - 1 := by
      refine Int.floor_eq_iff.mpr ?_
      push_cast
      constructor <;> linarith
    unfold roundEven
    rw [floor]
    push_cast
    split_ifs <;> first | omega | (exfalso; linarith)

theorem roundEven_zero : roundEven 0 = 0 := by
  have zero := roundEven_intCast 0
  rwa [Int.cast_zero] at zero

/-! ## The last place -/

/-- the exponent of the last place of a number among doubles -/
def lastPlace (x : Rat) : Int := max (Int.log 2 |x| - 52) (-1074)

theorem lastPlace_neg (x : Rat) : lastPlace (-x) = lastPlace x := by
  unfold lastPlace
  rw [abs_neg]

theorem lt_pow_lastPlace (x : Rat) : |x| < 2 ^ 53 * (2 : Rat) ^ lastPlace x := by
  have below : |x| < (2 : Rat) ^ (Int.log 2 |x| + 1) := by
    have := Int.lt_zpow_succ_log_self (b := 2) (by norm_num) |x|
    exact_mod_cast this
  have place : Int.log 2 |x| + 1 ≤ 53 + lastPlace x := by
    unfold lastPlace
    omega
  calc |x| < (2 : Rat) ^ (Int.log 2 |x| + 1) := below
    _ ≤ 2 ^ (53 + lastPlace x) := zpow_le_zpow_right₀ (by norm_num) place
    _ = 2 ^ 53 * (2 : Rat) ^ lastPlace x := by
        rw [zpow_add₀ (by norm_num)]
        norm_num

/-- a number has a full mantissa unless its last place is the least one -/
theorem pow_lastPlace_le {x : Rat} (hx : x ≠ 0) (h : -1074 < lastPlace x) :
    2 ^ 52 * (2 : Rat) ^ lastPlace x ≤ |x| := by
  have place : lastPlace x = Int.log 2 |x| - 52 := by
    unfold lastPlace at h ⊢
    omega
  calc 2 ^ 52 * (2 : Rat) ^ lastPlace x = (2 : Rat) ^ Int.log 2 |x| := by
        rw [place, zpow_sub₀ (by norm_num)]
        norm_num
        ring
    _ ≤ |x| := by
        have := Int.zpow_log_le_self (b := 2) (by norm_num) (abs_pos.mpr hx)
        exact_mod_cast this

theorem neg_1074_le_lastPlace (x : Rat) : -1074 ≤ lastPlace x := le_max_right _ _

theorem exponent_le {i j : Int} (h : 2 ^ 52 * (2 : Rat) ^ i < 2 ^ 53 * (2 : Rat) ^ j) : i ≤ j := by
  have step : (2 : Rat) ^ i < 2 ^ (j + 1) := by
    rw [zpow_add_one₀ (by norm_num)]
    linarith
  have := (zpow_lt_zpow_iff_right₀ (by norm_num : (1 : Rat) < 2)).mp step
  omega

/-- the last place is told by the bounds that it has -/
theorem lastPlace_eq {x : Rat} {e : Int} (hx : x ≠ 0) (low : -1074 ≤ e)
    (below : |x| < 2 ^ 53 * (2 : Rat) ^ e) (above : 2 ^ 52 * (2 : Rat) ^ e ≤ |x| ∨ e = -1074) :
    lastPlace x = e := by
  refine le_antisymm ?_ ?_
  · rcases (neg_1074_le_lastPlace x).lt_or_eq with normal | least
    · exact exponent_le ((pow_lastPlace_le hx normal).trans_lt below)
    · omega
  · rcases above with full | rfl
    · exact exponent_le (full.trans_lt (lt_pow_lastPlace x))
    · exact neg_1074_le_lastPlace x

theorem lastPlace_mono {x y : Rat} (hx : 0 < x) (h : x ≤ y) : lastPlace x ≤ lastPlace y := by
  have logs := Int.log_mono_right (b := 2) hx h
  unfold lastPlace
  rw [abs_of_pos hx, abs_of_pos (hx.trans_le h)]
  omega

/-! ## The nearest double -/

/-- the double nearest to a number that is not beyond the largest one -/
def rounded (x : Rat) : Rat := roundEven (x / 2 ^ lastPlace x) * 2 ^ lastPlace x

theorem rounded_zero : rounded 0 = 0 := by
  unfold rounded
  rw [zero_div, roundEven_zero, Int.cast_zero, zero_mul]

theorem rounded_neg (x : Rat) : rounded (-x) = -rounded x := by
  unfold rounded
  rw [lastPlace_neg, neg_div, roundEven_neg, Int.cast_neg, neg_mul]

theorem abs_rounded_sub_le (x : Rat) : |rounded x - x| ≤ 2 ^ lastPlace x / 2 := by
  have pos : (0 : Rat) < 2 ^ lastPlace x := by positivity
  have near := abs_roundEven_sub_le (x / 2 ^ lastPlace x)
  have scaled : rounded x - x =
      (roundEven (x / 2 ^ lastPlace x) - x / 2 ^ lastPlace x) * 2 ^ lastPlace x := by
    unfold rounded
    rw [sub_mul, div_mul_cancel₀ x pos.ne']
  rw [scaled, abs_mul, abs_of_pos pos]
  calc _ ≤ 1 / 2 * (2 : Rat) ^ lastPlace x := mul_le_mul_of_nonneg_right near pos.le
    _ = 2 ^ lastPlace x / 2 := by ring

/-- a multiple of a power of two that is no less than the last place is rounded to itself -/
theorem rounded_of_short {m : Nat} {e : Int} (hm : m < 2 ^ 53) (he : -1074 ≤ e) :
    rounded (m * 2 ^ e) = m * 2 ^ e := by
  rcases m.eq_zero_or_pos with rfl | pos
  · rw [Nat.cast_zero, zero_mul, rounded_zero]
  · have number := Canonical.pos e pos
    have place : lastPlace (m * 2 ^ e) ≤ e := by
      rcases (neg_1074_le_lastPlace (m * 2 ^ e)).lt_or_eq with normal | least
      · have above := pow_lastPlace_le number.ne' normal
        rw [abs_of_pos number] at above
        have small : (m : Rat) * 2 ^ e < 2 ^ 53 * 2 ^ e :=
          mul_lt_mul_of_pos_right (by exact_mod_cast hm) (by positivity)
        exact exponent_le (above.trans_lt small)
      · omega
    have integral : (m : Rat) * 2 ^ e / 2 ^ lastPlace (m * 2 ^ e) =
        ((m * 2 ^ (e - lastPlace (m * 2 ^ e)).toNat : Nat) : Int) := by
      rw [div_eq_iff (by positivity)]
      push_cast
      rw [mul_assoc, ← zpow_natCast, ← zpow_add₀ (by norm_num)]
      congr 2
      omega
    unfold rounded
    rw [integral, roundEven_intCast, ← integral, div_mul_cancel₀ _ (by positivity)]

/-- doubles are rounded to themselves -/
theorem rounded_of_canonical {m : Nat} {e : Int} (h : Canonical m e) :
    rounded (m * 2 ^ e) = m * 2 ^ e := rounded_of_short h.small h.low

theorem rounded_nonneg {x : Rat} (h : 0 ≤ x) : 0 ≤ rounded x := by
  have quotient : 0 ≤ roundEven (x / 2 ^ lastPlace x) := by
    have := roundEven_mono (div_nonneg h (by positivity : (0 : Rat) ≤ 2 ^ lastPlace x))
    rwa [roundEven_zero] at this
  unfold rounded
  have : (0 : Rat) ≤ roundEven (x / 2 ^ lastPlace x) := by exact_mod_cast quotient
  positivity

/-- the mantissa of a rounded number has 53 bits, or is the least one that has more -/
theorem mantissa_le {x : Rat} (h : 0 < x) : roundEven (x / 2 ^ lastPlace x) ≤ (2 ^ 53 : Int) := by
  have bound : x / 2 ^ lastPlace x ≤ ((2 ^ 53 : Int) : Rat) := by
    rw [div_le_iff₀ (by positivity)]
    have below := lt_pow_lastPlace x
    rw [abs_of_pos h] at below
    push_cast
    exact below.le
  have := roundEven_mono bound
  rwa [roundEven_intCast] at this

theorem le_mantissa {x : Rat} (h : 0 < x) (normal : -1074 < lastPlace x) :
    (2 ^ 52 : Int) ≤ roundEven (x / 2 ^ lastPlace x) := by
  have bound : ((2 ^ 52 : Int) : Rat) ≤ x / 2 ^ lastPlace x := by
    rw [le_div_iff₀ (by positivity)]
    have above := pow_lastPlace_le h.ne' normal
    rw [abs_of_pos h] at above
    push_cast
    exact above
  have := roundEven_mono bound
  rwa [roundEven_intCast] at this

theorem rounded_mono_of_pos {x y : Rat} (hx : 0 < x) (h : x ≤ y) : rounded x ≤ rounded y := by
  have px : (0 : Rat) < 2 ^ lastPlace x := by positivity
  have py : (0 : Rat) < 2 ^ lastPlace y := by positivity
  rcases (lastPlace_mono hx h).lt_or_eq with apart | same
  · -- a power of two lies between them, and is a double
    have below := mantissa_le hx
    have above := le_mantissa (hx.trans_le h) ((neg_1074_le_lastPlace x).trans_lt apart)
    calc rounded x ≤ 2 ^ 53 * (2 : Rat) ^ lastPlace x :=
          mul_le_mul_of_nonneg_right (by exact_mod_cast below) px.le
      _ = 2 ^ 52 * (2 : Rat) ^ (lastPlace x + 1) := by
          rw [zpow_add_one₀ (by norm_num)]
          ring
      _ ≤ 2 ^ 52 * (2 : Rat) ^ lastPlace y :=
          mul_le_mul_of_nonneg_left (zpow_le_zpow_right₀ (by norm_num) apart) (by norm_num)
      _ ≤ rounded y := mul_le_mul_of_nonneg_right (by exact_mod_cast above) py.le
  · unfold rounded
    rw [← same]
    have quotients := roundEven_mono (div_le_div_of_nonneg_right h px.le)
    exact mul_le_mul_of_nonneg_right (by exact_mod_cast quotients) px.le

/-- rounding keeps the order -/
theorem rounded_mono {x y : Rat} (h : x ≤ y) : rounded x ≤ rounded y := by
  rcases lt_trichotomy 0 x with hx | rfl | hx
  · exact rounded_mono_of_pos hx h
  · rw [rounded_zero]
    exact rounded_nonneg h
  · rcases lt_or_ge y 0 with hy | hy
    · have opposite := rounded_mono_of_pos (neg_pos.mpr hy) (neg_le_neg h)
      rw [rounded_neg, rounded_neg] at opposite
      exact neg_le_neg_iff.mp opposite
    · have low := rounded_nonneg (neg_nonneg.mpr hx.le)
      rw [rounded_neg] at low
      exact (neg_nonneg.mp low).trans (rounded_nonneg hy)

end Chance
