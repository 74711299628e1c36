import Chance.Proofs.Rounding

/-!
# Arithmetic of doubles

Sums, differences and products of doubles are the exact ones, rounded, as long as these are not
beyond the largest double.

* `Represents`            what the round bit and the sticky bit record of a number that is shifted
                          to the right, so that the mantissa can be rounded at the end;
* `round_spec`            rounding to 53 bits gives the nearest double;
* `unpack_pack`           what is packed is unpacked again;
* `add_spec`, `sub_spec`, `mul_spec`   the operations.
-/

namespace Chance

open Float.Model (UnpackedFloat totalExponent)
open Float.Model.Format (binary64)
open Float.Model.UnpackedFloat

/-! ## Shifts -/

/-- A number whose integral part is the mantissa; the two bits tell how its fraction stands to a
half. -/
def Represents (em : ExtendedMantissa) (x : Rat) : Prop :=
  match em.roundBit, em.stickyBit with
  | false, false => x = em.mantissa
  | false, true => em.mantissa < x ∧ x < em.mantissa + 1 / 2
  | true, false => x = em.mantissa + 1 / 2
  | true, true => em.mantissa + 1 / 2 < x ∧ x < em.mantissa + 1

namespace Represents

variable {em : ExtendedMantissa} {x : Rat}

theorem exact (m : Nat) : Represents (ExtendedMantissa.ofMantissaAndAccuracy m .exact) m := rfl

/-- one place to the right -/
theorem shiftRightOne (h : Represents em x) : Represents em.shiftRightOne (x / 2) := by
  obtain ⟨m, round, sticky⟩ := em
  have split : (m : Rat) = 2 * (m / 2 : Nat) + (m % 2 : Nat) := by
    exact_mod_cast (Nat.div_add_mod m 2).symm
  unfold ExtendedMantissa.shiftRightOne
  rcases Nat.mod_two_eq_zero_or_one m with even | odd
  · have bit : (m % 2 != 0) = false := by rw [even]; rfl
    rw [even, Nat.cast_zero, add_zero] at split
    cases round <;> cases sticky <;> simp only [Represents, bit, Bool.or] at h ⊢ <;>
      first | linarith | constructor <;> linarith
  · have bit : (m % 2 != 0) = true := by rw [odd]; rfl
    rw [odd, Nat.cast_one] at split
    cases round <;> cases sticky <;> simp only [Represents, bit, Bool.or] at h ⊢ <;>
      first | linarith | constructor <;> linarith

theorem shiftRight (h : Represents em x) (n : Nat) : Represents (em >>> n) (x / 2 ^ n) := by
  show Represents (n.repeat ExtendedMantissa.shiftRightOne em) _
  induction n with
  | zero => simpa [Nat.repeat] using h
  | succ n ih =>
    have next := ih.shiftRightOne
    rwa [div_div, ← pow_succ] at next

/-- the mantissa is rounded as the number is -/
theorem roundedMantissa (h : Represents em x) : (em.roundedMantissa : Int) = roundEven x := by
  obtain ⟨m, round, sticky⟩ := em
  have floor : ⌊x⌋ = m := by
    refine Int.floor_eq_iff.mpr ?_
    cases round <;> cases sticky <;> simp only [Represents] at h <;> push_cast <;>
      constructor <;> linarith
  unfold roundEven
  rw [floor]
  cases round <;> cases sticky <;>
    simp only [Represents, ExtendedMantissa.roundedMantissa, ExtendedMantissa.accuracy,
      Accuracy.roundToNearestEven] at h ⊢ <;>
    push_cast <;> split_ifs <;> first | omega | (exfalso; linarith)

end Represents

/-! ## The last place -/

theorem targetExponent_binary64 (t : Int) : binary64.targetExponent t = max (t - 53) (-1074) := rfl

/-- numbers are shifted to their last place -/
theorem targetExponent_eq {m : Nat} {e : Int} (pos : 0 < m) :
    binary64.targetExponent (totalExponent m e) = lastPlace (m * 2 ^ e) := by
  have number := Canonical.pos e pos
  have power : (0 : Rat) < 2 ^ e := by positivity
  have low : (2 ^ m.log2 : Rat) ≤ m := by exact_mod_cast Nat.log2_self_le pos.ne'
  have high : (m : Rat) < 2 ^ (m.log2 + 1) := by exact_mod_cast Nat.lt_log2_self
  have scale (i : Nat) (j : Int) : (2 : Rat) ^ i * 2 ^ j = 2 ^ ((i : Int) + j) := by
    rw [zpow_add₀ (by norm_num), zpow_natCast]
  rw [targetExponent_binary64]
  unfold totalExponent
  refine (lastPlace_eq number.ne' (le_max_right _ _) ?_ ?_).symm
  · rw [abs_of_pos number]
    calc (m : Rat) * 2 ^ e < 2 ^ (m.log2 + 1) * 2 ^ e := mul_lt_mul_of_pos_right high power
      _ = 2 ^ (((m.log2 + 1 : Nat) : Int) + e) := scale _ _
      _ ≤ 2 ^ (((53 : Nat) : Int) + _) := zpow_le_zpow_right₀ (by norm_num) (by push_cast; omega)
      _ = _ := (scale 53 _).symm
  · rw [abs_of_pos number]
    by_cases least : max ((m.log2 : Int) + 1 + e - 53) (-1074) = -1074
    · exact .inr least
    · left
      calc (2 : Rat) ^ 52 * 2 ^ max ((m.log2 : Int) + 1 + e - 53) (-1074)
          = 2 ^ (((52 : Nat) : Int) + max ((m.log2 : Int) + 1 + e - 53) (-1074)) := scale 52 _
        _ = 2 ^ ((m.log2 : Int) + e) := by congr 1; push_cast; omega
        _ = 2 ^ m.log2 * 2 ^ e := (scale _ _).symm
        _ ≤ m * 2 ^ e := mul_le_mul_of_nonneg_right low power.le

/-! ## Rounding to 53 bits -/

theorem Canonical.aligned {m : Nat} {e : Int} (h : Canonical m e) : Aligned m e :=
  ⟨h.small, h.low, h.normal⟩

def signed : Sign → Rat → Rat
  | .positive, x => x
  | .negative, x => -x

theorem numberOf_finite (s : Sign) (m : Nat) (e : Int) (pos : 0 < m) :
    numberOf (.finite s m e pos) = signed s (m * 2 ^ e) := by
  cases s <;> rfl

theorem rounded_signed (s : Sign) (x : Rat) : rounded (signed s x) = signed s (rounded x) := by
  cases s with
  | positive => rfl
  | negative => exact rounded_neg x

theorem signed_zero (s : Sign) : signed s 0 = 0 := by
  cases s with
  | positive => rfl
  | negative => exact neg_zero

/-- a mantissa that is short enough stays where it is -/
theorem shift_short {m : Nat} {e : Int} (hm : m < 2 ^ 53) (he : -1074 ≤ e) :
    shiftToTargetExponent binary64 m e .exact = (⟨m, false, false⟩, e) := by
  have length : m.log2 ≤ 52 := by
    rcases m.eq_zero_or_pos with rfl | pos
    · decide
    · have := (Nat.log2_lt pos.ne').mpr hm
      omega
  have place : binary64.targetExponent (totalExponent m e) ≤ e := by
    rw [targetExponent_binary64]
    unfold totalExponent
    omega
  have still : (binary64.targetExponent (totalExponent m e) - e).toNat = 0 := by omega
  unfold shiftToTargetExponent shiftToExponent
  dsimp only
  rw [still]
  exact Prod.ext rfl (add_zero e)

/-- one that is too long by a bit is a power of two, and moves by one place -/
theorem shift_long {e : Int} (he : -1074 ≤ e) :
    shiftToTargetExponent binary64 (2 ^ 53) e .exact = (⟨2 ^ 52, false, false⟩, e + 1) := by
  have place : binary64.targetExponent (totalExponent (2 ^ 53) e) = e + 1 := by
    rw [targetExponent_binary64]
    unfold totalExponent
    rw [Nat.log2_two_pow]
    push_cast
    omega
  have one : (e + 1 - e).toNat = 1 := by omega
  unfold shiftToTargetExponent shiftToExponent
  dsimp only
  rw [place, one]
  rfl

/-- what is left to do after the first shift -/
theorem roundWithAccuracy_eq (s : Sign) {m : Nat} {e t : Int} {em : ExtendedMantissa}
    (first : shiftToTargetExponent binary64 m e .exact = (em, t)) (low : -1074 ≤ t)
    (long : em.roundedMantissa ≤ 2 ^ 53) :
    roundWithAccuracy binary64 s m e .exact =
      if h : em.roundedMantissa = 0 then .zero s
      else if em.roundedMantissa < 2 ^ 53 then
        .finite s em.roundedMantissa t (Nat.pos_of_ne_zero h)
      else .finite s (2 ^ 52) (t + 1) (by decide) := by
  unfold roundWithAccuracy
  rw [first]
  dsimp only
  rcases long.lt_or_eq with short | full
  · rw [shift_short short low]
    split_ifs <;> rfl
  · rw [full, shift_long low]
    rfl

/-- rounding gives an aligned number, the nearest one -/
theorem roundWithAccuracy_spec (s : Sign) {m : Nat} {e : Int} (pos : 0 < m)
    (he : e ≤ lastPlace (m * 2 ^ e)) :
    Unbounded (roundWithAccuracy binary64 s m e .exact) ∧
      numberOf (roundWithAccuracy binary64 s m e .exact) = signed s (rounded (m * 2 ^ e)) := by
  have number := Canonical.pos e pos
  have below := mantissa_le number
  have above := le_mantissa number
  have low := neg_1074_le_lastPlace (m * 2 ^ e)
  -- the first shift leads to the last place
  have first : shiftToTargetExponent binary64 m e .exact =
      (ExtendedMantissa.ofMantissaAndAccuracy m .exact >>> (lastPlace (m * 2 ^ e) - e).toNat,
        lastPlace (m * 2 ^ e)) := by
    unfold shiftToTargetExponent shiftToExponent
    rw [targetExponent_eq pos]
    exact Prod.ext rfl (by show e + _ = _; omega)
  have shifted := (Represents.exact m).shiftRight (lastPlace (m * 2 ^ e) - e).toNat
  have quotient : (m : Rat) / 2 ^ (lastPlace (m * 2 ^ e) - e).toNat =
      m * 2 ^ e / 2 ^ lastPlace (m * 2 ^ e) := by
    rw [div_eq_div_iff (by positivity) (by positivity), mul_assoc, ← zpow_natCast,
      ← zpow_add₀ (by norm_num)]
    congr 2
    omega
  rw [quotient] at shifted
  have mantissa := shifted.roundedMantissa
  unfold rounded
  rw [← mantissa] at below above ⊢
  generalize lastPlace (m * 2 ^ e) = t at *
  generalize ExtendedMantissa.ofMantissaAndAccuracy m .exact >>> (t - e).toNat = em at *
  rw [roundWithAccuracy_eq s first low (by exact_mod_cast below)]
  split_ifs with zero short
  · refine ⟨trivial, ?_⟩
    rw [zero]
    simp [numberOf, signed_zero]
  · refine ⟨⟨short, low, ?_⟩, ?_⟩
    · rcases low.lt_or_eq with normal | least
      · exact .inl (by exact_mod_cast above normal)
      · exact .inr least.symm
    · rw [numberOf_finite, Int.cast_natCast]
  · have full : em.roundedMantissa = 2 ^ 53 := by
      have : em.roundedMantissa ≤ 2 ^ 53 := by exact_mod_cast below
      omega
    refine ⟨⟨by decide, by omega, .inl le_rfl⟩, ?_⟩
    rw [numberOf_finite, full, zpow_add_one₀ (by norm_num)]
    congr 1
    push_cast
    ring

/-- a mantissa with zeros appended -/
theorem decreaseExponent_number (m : Nat) (e t : Int) :
    ((decreaseExponent m e t).1 : Rat) * 2 ^ (decreaseExponent m e t).2 = m * 2 ^ e := by
  unfold decreaseExponent
  dsimp only
  rw [Nat.shiftLeft_eq, Nat.cast_mul, Nat.cast_pow, Nat.cast_ofNat, mul_assoc, ← zpow_natCast,
    ← zpow_add₀ (by norm_num)]
  congr 2
  omega

theorem round_spec (s : Sign) {m : Nat} {e : Int} (pos : 0 < m) :
    Unbounded (UnpackedFloat.round binary64 s m e) ∧
      numberOf (UnpackedFloat.round binary64 s m e) = signed s (rounded (m * 2 ^ e)) := by
  unfold UnpackedFloat.round
  dsimp only
  rw [targetExponent_eq pos]
  have number := decreaseExponent_number m e (lastPlace (m * 2 ^ e))
  have pos' : 0 < (decreaseExponent m e (lastPlace (m * 2 ^ e))).1 := by
    unfold decreaseExponent
    dsimp only
    rw [Nat.shiftLeft_eq]
    positivity
  have place : (decreaseExponent m e (lastPlace (m * 2 ^ e))).2 ≤ lastPlace (m * 2 ^ e) := by
    unfold decreaseExponent
    dsimp only
    omega
  have spec := roundWithAccuracy_spec s pos' (by rwa [number])
  rwa [number] at spec

/-- a signed mantissa -/
theorem normalize_spec (m e : Int) (zero : Sign) :
    Unbounded (UnpackedFloat.normalize binary64 m e zero) ∧
      numberOf (UnpackedFloat.normalize binary64 m e zero) = rounded (m * 2 ^ e) := by
  unfold UnpackedFloat.normalize
  rcases lt_trichotomy m 0 with negative | rfl | positive
  · rw [Int.compare_eq_lt.mpr negative]
    have size : (((-m).toNat : Nat) : Rat) = -m := by
      have : (((-m).toNat : Nat) : Int) = -m := by omega
      exact_mod_cast congrArg (Int.cast : Int → Rat) this
    have opposite : -((m : Rat) * 2 ^ e) = ((-m).toNat : Nat) * 2 ^ e := by
      rw [size, neg_mul]
    have spec := round_spec .negative (m := (-m).toNat) (e := e) (by omega)
    rwa [← opposite, rounded_neg, signed, neg_neg] at spec
  · rw [Int.cast_zero, zero_mul, rounded_zero]
    exact ⟨trivial, rfl⟩
  · rw [Int.compare_eq_gt.mpr positive]
    have size : ((m.toNat : Nat) : Rat) = m := by
      have : ((m.toNat : Nat) : Int) = m := by omega
      exact_mod_cast congrArg (Int.cast : Int → Rat) this
    have spec := round_spec .positive (m := m.toNat) (e := e) (by omega)
    rwa [size] at spec

/-! ## Packing -/

/-- a packed number with its fields read back -/
theorem unpack_packComponents (s : Sign) (e : BitVec 11) (m : BitVec 52) (top : e ≠ -1#11) :
    UnpackedFloat.unpack binary64 (packComponents binary64 s e m) =
      if e = 0#11 then
        if h : m = 0#52 then .zero s
        else .finite s m.toNat (e.toNat - 1075 + 1) (by
          simpa [BitVec.toNat_pos, BitVec.pos_iff_ne_zero])
      else .finite s (1#1 ++ m).toNat (e.toNat - 1075) (by rw [toNat_append_one]; omega) := by
  unfold UnpackedFloat.unpack
  simp only [unpackMantissa_packComponents, unpackExponent_packComponents,
    unpackSign_packComponents, Sign.ofBitVec_toBitVec, if_neg top]
  rfl

theorem finite_congr {s : Sign} {m n : Nat} {e f : Int} {hm : 0 < m} {hn : 0 < n} (same : m = n)
    (same' : e = f) : UnpackedFloat.finite s m e hm = .finite s n f hn := by
  subst same same'
  rfl

/-- what is packed is unpacked again -/
theorem unpack_pack {u : UnpackedFloat} (h : Representable u) :
    (Float.Model.pack u).unpack = u := by
  cases u with
  | notANumber => exact h.elim
  | infinity s => exact h.elim
  | zero s => cases s <;> rfl
  | finite s m e pos =>
    obtain ⟨small, low, high, normal⟩ := h
    have bias : binary64.exponentBias = 1023 := rfl
    have bits : binary64.mantissaBits = 53 := rfl
    show UnpackedFloat.unpack binary64 (UnpackedFloat.pack binary64 (.finite s m e pos)) = _
    unfold UnpackedFloat.pack
    dsimp only
    rw [if_neg (by rw [bias]; show ¬ 2 ^ 11 ≤ _; omega)]
    by_cases full : 2 ^ 52 ≤ m
    · have length : m.log2 + 1 = binary64.mantissaBits := by
        have := (Nat.le_log2 pos.ne').mpr full
        have := (Nat.log2_lt pos.ne').mpr small
        omega
      rw [if_pos length, bias]
      -- the exponent field is neither that of infinities nor that of small numbers
      have field : (BitVec.ofNat 11 (e + (1023 : Nat) + (52 : Nat)).toNat).toNat =
          (e + 1075).toNat := by
        rw [BitVec.toNat_ofNat, Nat.mod_eq_of_lt] <;> push_cast <;> omega
      have top : BitVec.ofNat 11 (e + (1023 : Nat) + (52 : Nat)).toNat ≠ -1#11 := fun h => by
        have : _ = 2047 := congrArg BitVec.toNat h
        omega
      have bottom : BitVec.ofNat 11 (e + (1023 : Nat) + (52 : Nat)).toNat ≠ 0#11 := fun h => by
        have : _ = 0 := congrArg BitVec.toNat h
        omega
      have mantissa : (1#1 ++ BitVec.ofNat 52 m).toNat = m := by
        rw [toNat_append_one, BitVec.toNat_ofNat]
        omega
      have exponent : (((e + 1075).toNat : Nat) : Int) - 1075 = e := by omega
      refine (unpack_packComponents s _ (BitVec.ofNat 52 m) top).trans ?_
      rw [if_neg bottom]
      exact finite_congr mantissa
        ((congrArg (fun n : Nat => (n : Int) - 1075) field).trans exponent)
    · have least := normal.resolve_left full
      have length : ¬ m.log2 + 1 = binary64.mantissaBits := by
        have := (Nat.log2_lt pos.ne').mpr (Nat.lt_of_not_le full)
        omega
      rw [if_neg length]
      have mantissa : (BitVec.ofNat 52 m).toNat = m := by
        rw [BitVec.toNat_ofNat]
        omega
      have nonzero : BitVec.ofNat 52 m ≠ 0#52 := fun h => by
        have : _ = 0 := congrArg BitVec.toNat h
        omega
      refine (unpack_packComponents s 0#11 (BitVec.ofNat 52 m) (by decide)).trans ?_
      rw [if_pos rfl, dif_neg nonzero]
      exact finite_congr mantissa least.symm

/-! ## Sums, differences and products -/

theorem rounded_numberOf {u : UnpackedFloat} (h : Representable u) :
    rounded (numberOf u) = numberOf u := by
  cases u with
  | finite s m e pos => rw [numberOf_finite, rounded_signed, rounded_of_canonical h]
  | _ => exact rounded_zero

/-- a signed mantissa with zeros appended -/
theorem apply_decreaseExponent (s : Sign) (m : Nat) {e t : Int} (h : t ≤ e) :
    ((s.apply (decreaseExponent m e t).1 : Int) : Rat) * 2 ^ t = signed s (m * 2 ^ e) := by
  have number := decreaseExponent_number m e t
  have place : (decreaseExponent m e t).2 = t := by
    unfold decreaseExponent
    dsimp only
    omega
  rw [place] at number
  cases s with
  | positive =>
    show (((decreaseExponent m e t).1 : Int) : Rat) * _ = _
    rw [Int.cast_natCast, number]
    rfl
  | negative =>
    show ((-((decreaseExponent m e t).1 : Int) : Int) : Rat) * _ = _
    rw [Int.cast_neg, Int.cast_natCast, neg_mul, number]
    rfl

theorem add_unpacked {u v : UnpackedFloat} (hu : Representable u) (hv : Representable v) :
    Unbounded (UnpackedFloat.add binary64 u v) ∧
      numberOf (UnpackedFloat.add binary64 u v) = rounded (numberOf u + numberOf v) := by
  cases u with
  | zero s =>
    have sum : numberOf (.zero s) + numberOf v = numberOf v := zero_add _
    rw [sum, rounded_numberOf hv]
    cases v with
    | zero t => cases s <;> cases t <;> exact ⟨trivial, rfl⟩
    | finite t n f hn => exact ⟨hv.aligned, rfl⟩
    | _ => exact hv.elim
  | finite s m e hm =>
    cases v with
    | zero t =>
      have sum : numberOf (.finite s m e hm) + numberOf (.zero t) = numberOf (.finite s m e hm) :=
        add_zero _
      rw [sum, rounded_numberOf hu]
      exact ⟨hu.aligned, rfl⟩
    | finite t n f hn =>
      have left := apply_decreaseExponent s m (min_le_left e f)
      have right := apply_decreaseExponent t n (min_le_right e f)
      rw [numberOf_finite, numberOf_finite, ← left, ← right, ← add_mul, ← Int.cast_add]
      exact normalize_spec _ _ _
    | _ => exact hv.elim
  | _ => exact hu.elim

theorem numberOf_neg (u : UnpackedFloat) : numberOf u.neg = -numberOf u := by
  cases u with
  | finite s m e pos => cases s with
    | positive => rfl
    | negative => exact (neg_neg _).symm
  | _ => exact neg_zero.symm

theorem representable_neg {u : UnpackedFloat} (h : Representable u) : Representable u.neg := by
  cases u <;> exact h

/-- a difference is the sum with the opposite -/
theorem sub_eq_add_neg_unpacked (u v : UnpackedFloat) :
    UnpackedFloat.sub binary64 u v = UnpackedFloat.add binary64 u v.neg := by
  cases u with
  | finite s m e hm => cases v with
    | finite t n f hn =>
      have opposite (j k : Int) : j - t.apply k = j + (-t).apply k := by
        cases t with
        | positive => exact sub_eq_add_neg _ _
        | negative => exact sub_neg_eq_add _ _
      show UnpackedFloat.normalize binary64 (_ - _) _ _ =
        UnpackedFloat.normalize binary64 (_ + _) _ _
      rw [opposite]
    | _ => rfl
  | _ => cases v <;> rfl

theorem signed_mul (s t : Sign) (x y : Rat) : signed (s * t) (x * y) = signed s x * signed t y := by
  cases s <;> cases t
  · exact (neg_mul_neg x y).symm
  · exact (neg_mul x y).symm
  · exact (mul_neg x y).symm
  · rfl

/-- a product has a full mantissa, unless both factors have the least exponent -/
theorem exponent_mul_le {m n : Nat} {e f : Int} (hm : Canonical m e) (hn : Canonical n f)
    (pos : 0 < m * n) : e + f ≤ lastPlace ((m * n : Nat) * 2 ^ (e + f)) := by
  have number := Canonical.pos (e + f) pos
  by_cases full : 2 ^ 52 ≤ m * n
  · have mantissa : (2 : Rat) ^ 52 ≤ (m * n : Nat) := by exact_mod_cast full
    have power : (0 : Rat) < 2 ^ (e + f) := by positivity
    have bound := lt_pow_lastPlace ((m * n : Nat) * 2 ^ (e + f))
    rw [abs_of_pos number] at bound
    exact exponent_le ((mul_le_mul_of_nonneg_right mantissa power.le).trans_lt bound)
  · have left : ¬ 2 ^ 52 ≤ m := fun h =>
      full (h.trans (Nat.le_mul_of_pos_right m (Nat.pos_of_mul_pos_left pos)))
    have right : ¬ 2 ^ 52 ≤ n := fun h =>
      full (h.trans (Nat.le_mul_of_pos_left n (Nat.pos_of_mul_pos_right pos)))
    have least := hm.normal.resolve_left left
    have least' := hn.normal.resolve_left right
    have := neg_1074_le_lastPlace ((m * n : Nat) * 2 ^ (e + f))
    omega

theorem mul_unpacked {u v : UnpackedFloat} (hu : Representable u) (hv : Representable v) :
    Unbounded (UnpackedFloat.mul binary64 u v) ∧
      numberOf (UnpackedFloat.mul binary64 u v) = rounded (numberOf u * numberOf v) := by
  cases u with
  | zero s =>
    have product : numberOf (.zero s) * numberOf v = 0 := zero_mul _
    rw [product, rounded_zero]
    cases v with
    | zero t => exact ⟨trivial, rfl⟩
    | finite t n f hn => exact ⟨trivial, rfl⟩
    | _ => exact hv.elim
  | finite s m e hm =>
    cases v with
    | zero t =>
      have product : numberOf (.finite s m e hm) * numberOf (.zero t) = 0 := mul_zero _
      rw [product, rounded_zero]
      exact ⟨trivial, rfl⟩
    | finite t n f hn =>
      have product : (m : Rat) * 2 ^ e * (n * 2 ^ f) = (m * n : Nat) * 2 ^ (e + f) := by
        rw [zpow_add₀ (by norm_num)]
        push_cast
        ring
      have positive := Nat.mul_pos hm hn
      rw [numberOf_finite, numberOf_finite, ← signed_mul, product, rounded_signed]
      exact roundWithAccuracy_spec (s * t) positive (exponent_mul_le hu hv positive)
    | _ => exact hv.elim
  | _ => exact hu.elim

/-! ## Doubles -/

/-- the first power of two beyond all doubles -/
def limit : Rat := 2 ^ 1024

theorem limit_eq (n : Nat) : limit = 2 ^ n * 2 ^ (1024 - n : Int) := by
  unfold limit
  rw [← zpow_natCast, ← zpow_natCast, ← zpow_add₀ (by norm_num)]
  congr 1
  push_cast
  omega

theorem limit_pos : 0 < limit := by
  unfold limit
  positivity

/-- what is nearer to the doubles than half a last place is not beyond them when rounded -/
theorem abs_rounded_lt {q : Rat} (h : |q| < limit - 2 ^ (970 : Int)) : |rounded q| < limit := by
  have power : (0 : Rat) < 2 ^ (970 : Int) := by positivity
  have top : lastPlace q ≤ 971 := by
    rcases eq_or_ne q 0 with rfl | nonzero
    · decide +kernel
    · rcases (neg_1074_le_lastPlace q).lt_or_eq with normal | least
      · have below : |q| < limit := h.trans (sub_lt_self limit power)
        exact Chance.exponent_le ((pow_lastPlace_le nonzero normal).trans_lt (limit_eq 53 ▸ below))
      · omega
  have near := abs_rounded_sub_le q
  have place : (2 : Rat) ^ lastPlace q ≤ 2 ^ (971 : Int) := zpow_le_zpow_right₀ (by norm_num) top
  have twice : (2 : Rat) ^ (971 : Int) = 2 ^ (970 : Int) * 2 := zpow_add_one₀ (by norm_num) 970
  have split : |rounded q| ≤ |rounded q - q| + |q| := by
    simpa using abs_add_le (rounded q - q) q
  rw [twice] at place
  generalize (2 : Rat) ^ (970 : Int) = half at *
  linarith

theorem abs_rounded_lt_of_lastPlace {q : Rat} (top : lastPlace q ≤ 970) : |rounded q| < limit := by
  refine abs_rounded_lt ?_
  have place : (2 : Rat) ^ lastPlace q ≤ 2 ^ (970 : Int) := zpow_le_zpow_right₀ (by norm_num) top
  have power : (0 : Rat) < 2 ^ (970 : Int) := by positivity
  have size : limit = 2 ^ 54 * 2 ^ (970 : Int) := limit_eq 54
  have below := lt_pow_lastPlace q
  rw [size]
  generalize (2 : Rat) ^ (970 : Int) = half at *
  linarith

/-- an aligned number has a larger exponent than doubles only beyond them -/
theorem Aligned.exponent_le {m : Nat} {e : Int} (h : Aligned m e)
    (small : (m : Rat) * 2 ^ e < limit) : e ≤ 971 := by
  rcases h.normal with full | least
  · have mantissa : (2 : Rat) ^ 52 ≤ m := by exact_mod_cast full
    have power : (0 : Rat) < 2 ^ e := by positivity
    have scaled := (mul_le_mul_of_nonneg_right mantissa power.le).trans_lt small
    have top : limit = 2 ^ 53 * 2 ^ (971 : Int) := limit_eq 53
    exact Chance.exponent_le (top ▸ scaled)
  · omega

theorem abs_numberOf_finite (s : Sign) (m : Nat) (e : Int) (pos : 0 < m) :
    |numberOf (.finite s m e pos)| = m * 2 ^ e := by
  have number := Canonical.pos e pos
  rw [numberOf_finite]
  cases s with
  | positive => exact abs_of_pos number
  | negative => exact (abs_neg _).trans (abs_of_pos number)

theorem Unbounded.representable {u : UnpackedFloat} (h : Unbounded u)
    (small : |numberOf u| < limit) : Representable u := by
  cases u with
  | zero s => trivial
  | finite s m e pos =>
    rw [abs_numberOf_finite] at small
    exact ⟨h.small, h.low, h.exponent_le small, h.normal⟩
  | _ => exact h.elim

section

variable {x y : Float}

/-- what an operation makes of two finite doubles, told by what it makes of the unpacked ones -/
theorem spec_of_unpacked {z : Float} {u : UnpackedFloat} {q : Rat}
    (packed : z = .ofModel (.pack u)) (h : Unbounded u ∧ numberOf u = rounded q)
    (small : |rounded q| < limit) : z.isFinite = true ∧ exactValue z = rounded q := by
  subst packed
  have representable := h.1.representable (h.2 ▸ small)
  have finite : u.isFinite = true := by
    cases u with
    | zero s => rfl
    | finite s m e pos => rfl
    | _ => exact representable.elim
  rw [exactValue_eq, unpack_pack representable]
  refine ⟨?_, h.2⟩
  show (Float.Model.pack u).unpack.isFinite = true
  rw [unpack_pack representable, finite]

theorem add_spec (hx : x.isFinite = true) (hy : y.isFinite = true)
    (top : lastPlace (exactValue x + exactValue y) ≤ 970) :
    (x + y).isFinite = true ∧ exactValue (x + y) = rounded (exactValue x + exactValue y) := by
  rw [exactValue_eq x, exactValue_eq y] at top ⊢
  exact spec_of_unpacked rfl (add_unpacked (representable_unpack hx) (representable_unpack hy))
    (abs_rounded_lt_of_lastPlace top)

/-- differences that are not beyond all doubles -/
theorem sub_rounded (hx : x.isFinite = true) (hy : y.isFinite = true)
    (small : |rounded (exactValue x - exactValue y)| < limit) :
    (x - y).isFinite = true ∧ exactValue (x - y) = rounded (exactValue x - exactValue y) := by
  rw [exactValue_eq x, exactValue_eq y, sub_eq_add_neg, ← numberOf_neg] at small ⊢
  have sum := add_unpacked (representable_unpack hx) (representable_neg (representable_unpack hy))
  rw [← sub_eq_add_neg_unpacked] at sum
  exact spec_of_unpacked rfl sum small

theorem sub_spec (hx : x.isFinite = true) (hy : y.isFinite = true)
    (top : lastPlace (exactValue x - exactValue y) ≤ 970) :
    (x - y).isFinite = true ∧ exactValue (x - y) = rounded (exactValue x - exactValue y) :=
  sub_rounded hx hy (abs_rounded_lt_of_lastPlace top)

theorem mul_spec (hx : x.isFinite = true) (hy : y.isFinite = true)
    (top : lastPlace (exactValue x * exactValue y) ≤ 970) :
    (x * y).isFinite = true ∧ exactValue (x * y) = rounded (exactValue x * exactValue y) := by
  rw [exactValue_eq x, exactValue_eq y] at top ⊢
  exact spec_of_unpacked rfl (mul_unpacked (representable_unpack hx) (representable_unpack hy))
    (abs_rounded_lt_of_lastPlace top)

end

end Chance
