import Chance.Proofs.Arithmetic

/-!
# The words of doubles

A double and its 64 bits: the three fields make the word, so that a finite double that is packed
after it was unpacked is the same double, and the word of a positive double counts the doubles
below it.

* `pack_unpack_word`              a word that is a number is packed as it was unpacked;
* `pack_unpack`, `ofModel_pack`   so is a double that is a number;
* `unpack_word`                   the double of a word;
* `abs_of_positive`, `neg_abs_of_negative`   the sign of a double.
-/

namespace Chance

open Float.Model (UnpackedFloat)
open Float.Model.Format (binary64)
open Float.Model.UnpackedFloat

/-! ## Fields -/

theorem toNat_unpackMantissa (b : BitVec 64) :
    (@unpackMantissa binary64 b).toNat = b.toNat % 2 ^ 52 := by
  simp [unpackMantissa, BitVec.extractLsb]

theorem toNat_unpackExponent (b : BitVec 64) :
    (@unpackExponent binary64 b).toNat = b.toNat / 2 ^ 52 % 2 ^ 11 := by
  simp [unpackExponent, BitVec.extractLsb, Nat.shiftRight_eq_div_pow]

theorem toNat_unpackSign (b : BitVec 64) :
    (@unpackSign binary64 b).toNat = b.toNat / 2 ^ 63 := by
  have := b.isLt
  simp [unpackSign, BitVec.extractLsb, Nat.shiftRight_eq_div_pow]
  omega

theorem toNat_append_eq {n k : Nat} (a : BitVec n) (b : BitVec k) :
    (a ++ b).toNat = a.toNat * 2 ^ k + b.toNat := by
  rw [BitVec.toNat_append, ← Nat.shiftLeft_add_eq_or_of_lt b.isLt, Nat.shiftLeft_eq]

theorem toBitVec_ofBitVec (b : BitVec 1) : (Sign.ofBitVec b).toBitVec = b := by
  revert b; decide

/-- the three fields make the word -/
theorem packComponents_unpack (b : BitVec binary64.numBits) :
    packComponents binary64 (Sign.ofBitVec (unpackSign b)) (unpackExponent b) (unpackMantissa b) =
      b := by
  have small : b.toNat < 2 ^ 64 := b.isLt
  refine BitVec.eq_of_toNat_eq ?_
  unfold packComponents
  have h1 := toNat_unpackMantissa b
  have h2 := toNat_unpackExponent b
  have h3 := toNat_unpackSign b
  rw [toNat_append_eq, toNat_append_eq, toBitVec_ofBitVec, h1, h2, h3]
  simp only
  omega

theorem pack_components (s : Sign) {e : BitVec 11} (m : BitVec 52) (top : e ≠ -1#11) :
    UnpackedFloat.pack binary64 (UnpackedFloat.unpack binary64 (packComponents binary64 s e m)) =
      packComponents binary64 s e m := by
  have hm := m.isLt
  have he := e.isLt
  have top' : e.toNat ≠ 2047 := fun h => top (BitVec.eq_of_toNat_eq h)
  have bias : binary64.exponentBias = 1023 := rfl
  rw [unpack_packComponents s e m top]
  by_cases bottom : e = 0#11
  · subst bottom
    rw [if_pos rfl]
    by_cases zero : m = 0#52
    · subst zero
      rfl
    · rw [dif_neg zero]
      have pos : m.toNat ≠ 0 := fun h => zero (BitVec.eq_of_toNat_eq h)
      have length := (Nat.log2_lt pos).mpr hm
      unfold UnpackedFloat.pack
      dsimp only
      rw [bias, if_neg (by decide), if_neg (by show ¬ _ = 53; omega), BitVec.ofNat_toNat,
        BitVec.setWidth_eq]
  · have nonzero : e.toNat ≠ 0 := fun h => bottom (BitVec.eq_of_toNat_eq h)
    rw [if_neg bottom]
    have mantissa := toNat_append_one m
    have length : (1#1 ++ m).toNat.log2 = 52 := by
      rw [mantissa]
      exact (Nat.log2_eq_iff (by omega)).mpr ⟨by omega, by omega⟩
    have exponent : ((e.toNat : Int) - 1075 + (1023 : Nat) + (52 : Nat)).toNat = e.toNat := by omega
    unfold UnpackedFloat.pack
    dsimp only
    rw [bias, exponent, length, if_neg (by show ¬ 2048 ≤ _; omega),
      if_pos (show 52 + 1 = binary64.mantissaBits from rfl), BitVec.ofNat_toNat, BitVec.setWidth_eq]
    congr 1
    refine BitVec.eq_of_toNat_eq ?_
    rw [BitVec.toNat_ofNat, mantissa]
    omega

theorem unpack_eq_notANumber_iff {b : BitVec 64} :
    UnpackedFloat.unpack binary64 b = .notANumber ↔
      @unpackExponent binary64 b = -1#11 ∧ @unpackMantissa binary64 b ≠ 0#52 := by
  unfold UnpackedFloat.unpack
  dsimp only
  split
  · next top =>
    split
    · next zero => exact ⟨nofun, fun h => absurd zero h.2⟩
    · next nonzero => exact ⟨fun _ => ⟨top, nonzero⟩, fun _ => rfl⟩
  · next notTop =>
    refine ⟨fun h => ?_, fun h => absurd h.1 notTop⟩
    split at h
    · split at h <;> cases h
    · cases h

/-- a word that is unpacked to a number is packed again -/
theorem pack_unpack_word {b : BitVec 64} (h : UnpackedFloat.unpack binary64 b ≠ .notANumber) :
    UnpackedFloat.pack binary64 (UnpackedFloat.unpack binary64 b) = b := by
  have fields := packComponents_unpack b
  by_cases top : @unpackExponent binary64 b = -1#11
  · have zero : @unpackMantissa binary64 b = 0#52 :=
      Decidable.byContradiction fun nonzero => h (unpack_eq_notANumber_iff.mpr ⟨top, nonzero⟩)
    rw [top, zero] at fields
    have infinity : UnpackedFloat.unpack binary64 b =
        .infinity (Sign.ofBitVec (@unpackSign binary64 b)) := by
      unfold UnpackedFloat.unpack
      dsimp only
      rw [if_pos top, if_pos zero]
    rw [infinity]
    exact fields
  · have packed := pack_components (Sign.ofBitVec (@unpackSign binary64 b))
      (@unpackMantissa binary64 b) top
    rwa [fields] at packed

theorem pack_unpack {f : Float.Model} (h : f.unpack ≠ .notANumber) :
    Float.Model.pack f.unpack = f := by
  have bits := pack_unpack_word h
  obtain ⟨w, valid⟩ := f
  unfold Float.Model.pack Float.Model.unpack
  congr 1
  exact congrArg UInt64.ofBitVec bits

/-! ## Words -/

/-- the word of a positive double -/
theorem unpack_fields {m : Nat} {e : Int} (h : Canonical m e) (pos : 0 < m)
    {b : BitVec binary64.numBits} (word : b.toNat = m + (e + 1074).toNat * 2 ^ 52) :
    UnpackedFloat.unpack binary64 b = .finite .positive m e pos := by
  obtain ⟨small, low, high, normal⟩ := h
  have mantissa := toNat_unpackMantissa b
  have exponent := toNat_unpackExponent b
  have sign := toNat_unpackSign b
  have bias : binary64.exponentBias = 1023 := rfl
  rw [word] at mantissa exponent sign
  have positive : Sign.ofBitVec (@unpackSign binary64 b) = .positive := by
    refine if_pos (BitVec.eq_of_toNat_eq ?_)
    rw [sign, BitVec.toNat_ofNat, Nat.zero_mod]
    omega
  have notTop : @unpackExponent binary64 b ≠ -1#11 := fun h => by
    have : _ = 2047 := congrArg BitVec.toNat h
    omega
  unfold UnpackedFloat.unpack
  dsimp only
  rw [if_neg notTop, positive, bias]
  by_cases full : 2 ^ 52 ≤ m
  · have notBottom : @unpackExponent binary64 b ≠ 0#11 := fun h => by
      have : _ = 0 := congrArg BitVec.toNat h
      omega
    rw [if_neg notBottom]
    refine finite_congr ?_ ?_
    · rw [toNat_append_one]
      omega
    · omega
  · have least := normal.resolve_left full
    have bottom : @unpackExponent binary64 b = 0#11 := by
      refine BitVec.eq_of_toNat_eq ?_
      rw [exponent, BitVec.toNat_ofNat, Nat.zero_mod]
      omega
    have nonzero : @unpackMantissa binary64 b ≠ 0#52 := fun h => by
      have : _ = 0 := congrArg BitVec.toNat h
      omega
    rw [if_pos bottom, dif_neg nonzero]
    refine finite_congr ?_ ?_ <;> omega

theorem unpack_word {m : Nat} {e : Int} (h : Canonical m e) (pos : 0 < m) :
    UnpackedFloat.unpack binary64 (UInt64.ofNat (m + (e + 1074).toNat * 2 ^ 52)).toBitVec =
      .finite .positive m e pos := by
  refine unpack_fields h pos ?_
  obtain ⟨small, low, high, normal⟩ := h
  rw [UInt64.toNat_toBitVec, UInt64.toNat_ofNat']
  omega

/-! ## Signs -/

theorem ofModel_pack {x : Float} (h : x.isFinite = true) :
    x = .ofModel (.pack x.toModel.unpack) := by
  have number : x.toModel.unpack ≠ .notANumber := fun none => by
    change x.toModel.unpack.isFinite = true at h
    rw [none] at h
    cases h
  rw [pack_unpack number]

theorem abs_of_unpack {x : Float} {s : Sign} {m : Nat} {e : Int} {pos : 0 < m}
    (h : x.toModel.unpack = .finite s m e pos) :
    x.abs = .ofModel (.pack (.finite .positive m e pos)) := by
  show Float.ofModel (.pack x.toModel.unpack.abs) = _
  rw [h]
  rfl

theorem abs_of_positive {x : Float} {m : Nat} {e : Int} {pos : 0 < m}
    (h : x.toModel.unpack = .finite .positive m e pos) : x.abs = x := by
  have finite : x.isFinite = true := by
    show x.toModel.unpack.isFinite = true
    rw [h]
    rfl
  rw [abs_of_unpack h, ← h]
  exact (ofModel_pack finite).symm

theorem neg_abs_of_negative {x : Float} {m : Nat} {e : Int} {pos : 0 < m}
    (h : x.toModel.unpack = .finite .negative m e pos) : -x.abs = x := by
  have finite : x.isFinite = true := by
    show x.toModel.unpack.isFinite = true
    rw [h]
    rfl
  have canonical : Representable (.finite .positive m e pos) := canonical_of_unpack h
  rw [abs_of_unpack h]
  show Float.ofModel (.pack (Float.Model.pack (.finite .positive m e pos)).unpack.neg) = x
  rw [unpack_pack canonical]
  show Float.ofModel (.pack (.finite .negative m e pos)) = x
  rw [← h]
  exact (ofModel_pack finite).symm

end Chance
