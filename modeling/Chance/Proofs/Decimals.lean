import Chance.Decimal.Layout
import Chance.Proofs.Words

/-!
# Decimals and the doubles nearest to them

A decimal is read as the double nearest to its value, a tie going to the even mantissa.  So
decimals of one value are read as one double, and the digits that are written for a double are
read as that double.

* `Decimal.nearestWord_eq`   the word of a fraction is that of its value;
* `Decimal.toFloat_eq`, `Decimal.toFloat_congr`   what a decimal is read as;
* `Decimal.toFloat_ofBinary`, `Decimal.toFloat_shortest_abs`   the digits of a double.
-/

namespace Chance

open Float.Model (UnpackedFloat)
open Float.Model.UnpackedFloat

namespace Decimal

/-! ## Fractions -/

theorem settle_eq_roundEven (n : Nat) {d : Nat} (hd : 0 < d) :
    ((Tie.toEven.settle (n / d) (n % d) d : Nat) : Int) = roundEven ((n : Rat) / d) := by
  have pos : (0 : Rat) < d := by exact_mod_cast hd
  have floor : ⌊(n : Rat) / d⌋ = ((n / d : Nat) : Int) := Rat.floor_natCast_div_natCast n d
  have division : (n : Rat) = d * (n / d : Nat) + (n % d : Nat) := by
    exact_mod_cast (Nat.div_add_mod n d).symm
  have rest : (n : Rat) / d - ((n / d : Nat) : Int) = (n % d : Nat) / d := by
    rw [Int.cast_natCast, sub_eq_iff_eq_add, div_add' _ _ _ pos.ne', div_left_inj' pos.ne',
      division]
    ring
  have below : ((n % d : Nat) : Rat) / d < 1 / 2 ↔ 2 * (n % d) < d := by
    rw [div_lt_div_iff₀ pos two_pos, mul_comm]
    norm_cast
    rw [one_mul]
  have above : 1 / 2 < ((n % d : Nat) : Rat) / d ↔ d < 2 * (n % d) := by
    rw [div_lt_div_iff₀ two_pos pos, mul_comm (((n % d : Nat) : Rat))]
    norm_cast
    rw [one_mul]
  unfold roundEven Tie.settle
  rw [floor, rest]
  simp only [below, above]
  split_ifs <;> simp

theorem shift_div_shift (num den : Nat) (t : Int) :
    ((num <<< (-t).toNat : Nat) : Rat) / (den <<< t.toNat : Nat) = (num : Rat) / den / 2 ^ t := by
  rw [Nat.shiftLeft_eq, Nat.shiftLeft_eq]
  push_cast
  have power : (2 : Rat) ^ t = 2 ^ t.toNat / 2 ^ (-t).toNat := by
    rw [← zpow_natCast, ← zpow_natCast, ← zpow_sub₀ two_ne_zero]
    congr 1
    omega
  rw [power]
  field_simp

theorem floorLog2_bounds {num den : Nat} (hn : 0 < num) (hd : 0 < den) :
    (2 : Rat) ^ floorLog2 num den ≤ (num : Rat) / den ∧
      (num : Rat) / den < 2 ^ (floorLog2 num den + 1) := by
  have posn : (0 : Rat) < num := by exact_mod_cast hn
  have posd : (0 : Rat) < den := by exact_mod_cast hd
  have lown : (2 : Rat) ^ num.log2 ≤ num := by exact_mod_cast Nat.log2_self_le hn.ne'
  have highn : (num : Rat) < 2 ^ (num.log2 + 1) := by exact_mod_cast Nat.lt_log2_self
  have lowd : (2 : Rat) ^ den.log2 ≤ den := by exact_mod_cast Nat.log2_self_le hd.ne'
  have highd : (den : Rat) < 2 ^ (den.log2 + 1) := by exact_mod_cast Nat.lt_log2_self
  have two : (0 : Rat) < 2 ^ den.log2 := by positivity
  -- the quotient lies between the neighbouring powers
  have low : (2 : Rat) ^ ((num.log2 : Int) - den.log2 - 1) < (num : Rat) / den := by
    rw [lt_div_iff₀ posd]
    calc (2 : Rat) ^ ((num.log2 : Int) - den.log2 - 1) * den
        < 2 ^ ((num.log2 : Int) - den.log2 - 1) * 2 ^ (den.log2 + 1) :=
          mul_lt_mul_of_pos_left highd (by positivity)
      _ = 2 ^ num.log2 := by
          rw [← zpow_natCast 2 (den.log2 + 1), ← zpow_add₀ two_ne_zero, ← zpow_natCast]
          congr 1
          push_cast
          ring
      _ ≤ num := lown
  have high : (num : Rat) / den < 2 ^ ((num.log2 : Int) - den.log2 + 1) := by
    rw [div_lt_iff₀ posd]
    calc (num : Rat) < 2 ^ (num.log2 + 1) := highn
      _ = 2 ^ ((num.log2 : Int) - den.log2 + 1) * 2 ^ den.log2 := by
          rw [← zpow_natCast 2 den.log2, ← zpow_add₀ two_ne_zero, ← zpow_natCast]
          congr 1
          push_cast
          ring
      _ ≤ 2 ^ ((num.log2 : Int) - den.log2 + 1) * den :=
          mul_le_mul_of_nonneg_left lowd (by positivity)
  have reached : den <<< ((num.log2 : Int) - den.log2).toNat ≤
      num <<< (-((num.log2 : Int) - den.log2)).toNat ↔
      (2 : Rat) ^ ((num.log2 : Int) - den.log2) ≤ (num : Rat) / den := by
    have quotient := shift_div_shift num den ((num.log2 : Int) - den.log2)
    have posd' : (0 : Rat) < (den <<< ((num.log2 : Int) - den.log2).toNat : Nat) := by
      rw [Nat.shiftLeft_eq]
      positivity
    rw [← one_le_div₀ (by positivity : (0 : Rat) < 2 ^ ((num.log2 : Int) - den.log2)), ← quotient,
      one_le_div₀ posd']
    norm_cast
  unfold floorLog2
  dsimp only
  split_ifs with h
  · exact ⟨reached.mp h, high⟩
  · refine ⟨low.le, ?_⟩
    rw [sub_add_cancel]
    exact lt_of_not_ge fun le => h (reached.mpr le)

/-- the word of the double nearest to a positive number, that of infinity past the range -/
def wordOf (q : Rat) : Nat :=
  min ((roundEven (q / 2 ^ lastPlace q)).toNat + (lastPlace q + 1074).toNat * 2 ^ 52)
    0x7ff0000000000000

theorem nearestWord_eq {num den : Nat} (hn : 0 < num) (hd : 0 < den) :
    nearestWord num den = wordOf ((num : Rat) / den) := by
  have number : (0 : Rat) < (num : Rat) / den := by
    have posn : (0 : Rat) < num := by exact_mod_cast hn
    have posd : (0 : Rat) < den := by exact_mod_cast hd
    positivity
  obtain ⟨low, high⟩ := floorLog2_bounds hn hd
  -- the unit is the last place
  have place : lastPlace ((num : Rat) / den) = max (floorLog2 num den - 52) (-1074) := by
    refine lastPlace_eq number.ne' (le_max_right _ _) ?_ ?_
    · rw [abs_of_pos number]
      calc (num : Rat) / den < 2 ^ (floorLog2 num den + 1) := high
        _ ≤ 2 ^ (53 + max (floorLog2 num den - 52) (-1074)) :=
            zpow_le_zpow_right₀ one_le_two (by omega)
        _ = 2 ^ 53 * 2 ^ max (floorLog2 num den - 52) (-1074) := by
            rw [zpow_add₀ two_ne_zero]
            norm_num
    · rw [abs_of_pos number]
      by_cases least : max (floorLog2 num den - 52) (-1074) = -1074
      · exact .inr least
      · left
        calc (2 : Rat) ^ 52 * 2 ^ max (floorLog2 num den - 52) (-1074)
            = 2 ^ (52 + max (floorLog2 num den - 52) (-1074)) := by
              rw [zpow_add₀ two_ne_zero]
              norm_num
          _ ≤ 2 ^ floorLog2 num den := zpow_le_zpow_right₀ one_le_two (by omega)
          _ ≤ (num : Rat) / den := low
  unfold nearestWord wordOf
  dsimp only
  rw [← place]
  generalize lastPlace ((num : Rat) / den) = t
  have unit : 0 < den <<< t.toNat := by
    rw [Nat.shiftLeft_eq]
    positivity
  have counted : (t + 1074).toNat <<< 52 = (t + 1074).toNat * 2 ^ 52 := Nat.shiftLeft_eq _ _
  rw [← shift_div_shift num den t, ← settle_eq_roundEven _ unit, Int.toNat_natCast, counted]

/-! ## The double of a decimal -/

/-- the number that a decimal stands for -/
def value (d : Decimal) : Rat := d.significand * 10 ^ d.exponent

theorem value_pos {d : Decimal} (h : d.significand ≠ 0) : 0 < d.value := by
  have : (0 : Rat) < d.significand := by exact_mod_cast Nat.pos_of_ne_zero h
  unfold value
  positivity

/-- a number below half the least double is rounded to zero -/
theorem wordOf_of_small {q : Rat} (hq : 0 < q) (h : q < 2 ^ (-1075 : Int)) : wordOf q = 0 := by
  have place : lastPlace q = -1074 := by
    refine lastPlace_eq hq.ne' le_rfl ?_ (.inr rfl)
    rw [abs_of_pos hq]
    calc q < 2 ^ (-1075 : Int) := h
      _ ≤ 2 ^ (53 + (-1074) : Int) := zpow_le_zpow_right₀ one_le_two (by omega)
      _ = 2 ^ 53 * 2 ^ (-1074 : Int) := by
          rw [zpow_add₀ two_ne_zero]
          norm_num
  have quotient : q / 2 ^ (-1074 : Int) < 1 / 2 := by
    rw [div_lt_iff₀ (by positivity)]
    calc q < 2 ^ (-1075 : Int) := h
      _ = 1 / 2 * 2 ^ (-1074 : Int) := by
          rw [show (-1075 : Int) = -1 + -1074 from rfl, zpow_add₀ two_ne_zero]
          norm_num
  have floor : ⌊q / 2 ^ (-1074 : Int)⌋ = 0 := by
    refine Int.floor_eq_iff.mpr ⟨?_, ?_⟩
    · rw [Int.cast_zero]
      positivity
    · rw [Int.cast_zero]
      linarith
  unfold wordOf roundEven
  rw [place, floor, Int.cast_zero, sub_zero, if_pos quotient]
  rfl

/-- a number from twice the greatest power of two on is infinite -/
theorem wordOf_of_large {q : Rat} (h : 2 ^ (1024 : Int) ≤ q) : wordOf q = 0x7ff0000000000000 := by
  have hq : 0 < q := lt_of_lt_of_le (by positivity) h
  have place : 972 ≤ lastPlace q := by
    have logs := Int.log_mono_right (b := 2) (by positivity) h
    have log : Int.log 2 ((2 : Rat) ^ (1024 : Int)) = 1024 := Int.log_zpow (by norm_num) 1024
    unfold lastPlace
    rw [abs_of_pos hq]
    omega
  have mantissa := le_mantissa hq (by omega)
  unfold wordOf
  omega

theorem toFloat_zero (e : Int) : toFloat ⟨0, e⟩ = 0.0 := by
  unfold toFloat
  rw [if_pos (.inl rfl)]

/-- a decimal is read as the double nearest to its value -/
theorem toFloat_eq {d : Decimal} (h : d.significand ≠ 0) :
    d.toFloat = Float.ofBits (UInt64.ofNat (wordOf d.value)) := by
  have pos : (0 : Rat) < d.significand := by exact_mod_cast Nat.pos_of_ne_zero h
  unfold toFloat
  split_ifs with low high
  · have exponent := low.resolve_left h
    have mantissa : (d.significand : Rat) < 2 ^ (d.significand.log2 + 1) := by
      exact_mod_cast Nat.lt_log2_self
    have power : (10 : Rat) ^ d.exponent ≤ 2 ^ d.exponent := by
      have down : d.exponent = -((-d.exponent).toNat : Int) := by omega
      rw [down, zpow_neg, zpow_neg, zpow_natCast, zpow_natCast]
      exact inv_anti₀ (by positivity) (pow_le_pow_left₀ (by norm_num) (by norm_num) _)
    have small : d.value < 2 ^ (-1075 : Int) := by
      unfold value
      calc (d.significand : Rat) * 10 ^ d.exponent
          ≤ d.significand * 2 ^ d.exponent := mul_le_mul_of_nonneg_left power pos.le
        _ < 2 ^ (d.significand.log2 + 1) * 2 ^ d.exponent :=
            mul_lt_mul_of_pos_right mantissa (by positivity)
        _ = 2 ^ (d.significand.log2 + 1 + d.exponent) := by
            rw [zpow_add₀ two_ne_zero]
            norm_cast
        _ ≤ 2 ^ (-1075 : Int) := zpow_le_zpow_right₀ one_le_two (by omega)
    rw [wordOf_of_small (value_pos h) small]
    decide
  · have large : 2 ^ (1024 : Int) ≤ d.value := by
      have unit : (1 : Rat) ≤ d.significand := by exact_mod_cast Nat.pos_of_ne_zero h
      unfold value
      calc (2 : Rat) ^ (1024 : Int)
          ≤ 2 ^ (3 * 401 : Int) := zpow_le_zpow_right₀ one_le_two (by omega)
        _ = (2 ^ (3 : Int)) ^ (401 : Int) := zpow_mul _ _ _
        _ ≤ 10 ^ (401 : Int) := zpow_le_zpow_left₀ (by norm_num) (by norm_num) (by norm_num)
        _ ≤ 10 ^ d.exponent := zpow_le_zpow_right₀ (by norm_num) (by omega)
        _ ≤ d.significand * 10 ^ d.exponent := le_mul_of_one_le_left (by positivity) unit
    rw [wordOf_of_large large]
    rfl
  · have quotient : ((d.significand * Nat.pow 10 d.exponent.toNat : Nat) : Rat) /
        (Nat.pow 10 (-d.exponent).toNat : Nat) = d.value := by
      have power : (10 : Rat) ^ d.exponent = 10 ^ d.exponent.toNat / 10 ^ (-d.exponent).toNat := by
        rw [← zpow_natCast, ← zpow_natCast, ← zpow_sub₀ (by norm_num)]
        congr 1
        omega
      unfold value
      rw [power, Nat.pow_eq, Nat.pow_eq]
      push_cast
      rw [mul_div_assoc]
    have numerator : 0 < d.significand * Nat.pow 10 d.exponent.toNat :=
      Nat.mul_pos (Nat.pos_of_ne_zero h) (Nat.pow_pos (by norm_num))
    have denominator : 0 < Nat.pow 10 (-d.exponent).toNat := Nat.pow_pos (by norm_num)
    rw [nearestWord_eq numerator denominator, quotient]

/-- decimals of one value are read as one double -/
theorem toFloat_congr {d e : Decimal} (h : d.value = e.value) : d.toFloat = e.toFloat := by
  have zero (c : Decimal) : c.significand = 0 ↔ c.value = 0 := by
    unfold value
    rw [mul_eq_zero, or_iff_left (by positivity), Nat.cast_eq_zero]
  by_cases hd : d.significand = 0
  · have he : e.significand = 0 := (zero e).mpr (h ▸ (zero d).mp hd)
    obtain ⟨_, _⟩ := d
    obtain ⟨_, _⟩ := e
    cases hd
    cases he
    rw [toFloat_zero, toFloat_zero]
  · have he : e.significand ≠ 0 := fun k => hd ((zero d).mpr (h ▸ (zero e).mp k))
    rw [toFloat_eq hd, toFloat_eq he, h]

/-! ## All digits -/

theorem value_ofBinary (m : Nat) (e : Int) : (ofBinary m e).value = m * 2 ^ e := by
  unfold ofBinary value
  split_ifs with h
  · obtain ⟨n, rfl⟩ := Int.eq_ofNat_of_zero_le h
    rw [Nat.shiftLeft_eq]
    simp
  · have power : (2 : Rat) ^ e = 5 ^ (-e).toNat * 10 ^ e := by
      have five : (5 : Rat) ^ (-e).toNat = 5 ^ (-e) := by
        rw [← zpow_natCast]
        congr 1
        omega
      rw [five, show (10 : Rat) = 2 * 5 by norm_num, mul_zpow, mul_left_comm,
        ← zpow_add₀ (by norm_num)]
      simp
    rw [power, Nat.pow_eq]
    push_cast
    ring

/-- the word of a double -/
theorem wordOf_of_canonical {m : Nat} {e : Int} (h : Canonical m e) (pos : 0 < m) :
    wordOf (m * 2 ^ e) = m + (e + 1074).toNat * 2 ^ 52 := by
  have number := Canonical.pos e pos
  have place : lastPlace ((m : Rat) * 2 ^ e) = e := by
    refine lastPlace_eq number.ne' h.low ?_ ?_
    · rw [abs_of_pos number]
      exact mul_lt_mul_of_pos_right (by exact_mod_cast h.small) (by positivity)
    · rw [abs_of_pos number]
      exact h.normal.imp_left fun full =>
        mul_le_mul_of_nonneg_right (by exact_mod_cast full) (by positivity)
  have mantissa : (m : Rat) * 2 ^ e / 2 ^ e = (m : Int) := by
    rw [mul_div_cancel_right₀ _ (by positivity), Int.cast_natCast]
  obtain ⟨small, low, high, -⟩ := h
  unfold wordOf
  rw [place, mantissa, roundEven_intCast]
  omega

/-- all the digits of a double read back -/
theorem toFloat_ofBinary {m : Nat} {e : Int} (h : Canonical m e) (pos : 0 < m) :
    (ofBinary m e).toFloat = .ofModel (.pack (.finite .positive m e pos)) := by
  have number := Canonical.pos e pos
  have significand : (ofBinary m e).significand ≠ 0 := by
    intro zero
    have : (ofBinary m e).value = 0 := by
      unfold value
      rw [zero, Nat.cast_zero, zero_mul]
    rw [value_ofBinary] at this
    exact number.ne' this
  rw [toFloat_eq significand, value_ofBinary, wordOf_of_canonical h pos]
  exact congrArg (fun u => Float.ofModel (.pack u)) (unpack_word h pos)

/-- the fewest digits of a double read back -/
theorem toFloat_shortest_abs (tie : Tie) {x : Float} {s : Sign} {m : Nat} {e : Int} {pos : 0 < m}
    (h : x.toModel.unpack = .finite s m e pos) :
    (shortest tie x.abs (ofBinary m e)).toFloat = x.abs := by
  refine toFloat_shortest ?_
  rw [abs_of_unpack h]
  exact toFloat_ofBinary (canonical_of_unpack h) pos

end Decimal
end Chance
