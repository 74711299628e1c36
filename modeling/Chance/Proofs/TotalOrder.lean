import Chance.Proofs.Comparisons

/-!
# The total order of doubles

Sorted supports are in the order of the words, the negative ones turned round.  Among numbers this
is the numeric order with the zero of negative sign before the other zero, and all words that are no
number are at the two ends.

* `place`                 the rank of a number by its sign and magnitude;
* `rank_eq_place`         it is the rank of the word;
* `place_lt`              the numeric order keeps it;
* `rank_lt_iff`           the order of two numbers;
* `rank_of_isNaN`         what is no number.
-/

namespace Chance

open Float.Model (UnpackedFloat)
open Float.Model.Format (binary64)
open Float.Model.UnpackedFloat

/-! ## Places -/

/-- a magnitude counted upwards from zero, or downwards -/
def placed : Sign → Nat → Int
  | .positive, n => n
  | .negative, n => -1 - n

/-- how many doubles are nearer to zero -/
def count (m : Nat) (e : Int) : Nat := m + (e + 1074).toNat * 2 ^ 52

def place : UnpackedFloat → Int
  | .zero s => placed s 0
  | .finite s m e _ => placed s (count m e)
  | .infinity s => placed s 0x7ff0000000000000
  | .notANumber => 0

theorem count_bounds {m : Nat} {e : Int} (h : Canonical m e) (pos : 0 < m) :
    0 < count m e ∧ count m e < 0x7ff0000000000000 := by
  obtain ⟨small, low, high, -⟩ := h
  unfold count
  omega

/-- exponents first, then mantissas: this is how doubles are counted -/
theorem count_lt {m n : Nat} {e f : Int} (hm : Canonical m e) (hn : Canonical n f)
    (h : (compare e f).then (compare m n) = .lt) : count m e < count n f := by
  obtain ⟨small, low, -, -⟩ := hm
  obtain ⟨-, low', -, normal⟩ := hn
  unfold count
  rcases Ordering.then_eq_lt.mp h with exponents | ⟨exponents, mantissas⟩
  · have less := Int.compare_eq_lt.mp exponents
    omega
  · have same := Int.compare_eq_eq.mp exponents
    have less := Nat.compare_eq_lt.mp mantissas
    omega

theorem place_lt_finite {s t : Sign} {m n : Nat} {e f : Int} {pm : 0 < m} {pn : 0 < n}
    (hm : Canonical m e) (hn : Canonical n f)
    (h : (UnpackedFloat.finite s m e pm).compare (.finite t n f pn) = some .lt) :
    place (.finite s m e pm) < place (.finite t n f pn) := by
  cases s with
  | positive => cases t with
    | negative => cases h
    | positive =>
      have less := count_lt hm hn (Option.some.inj h)
      simp only [place, placed]
      omega
  | negative => cases t with
    | positive =>
      simp only [place, placed]
      omega
    | negative =>
      have turned : ((compare e f).then (compare m n)).swap = .lt := Option.some.inj h
      rw [Ordering.swap_then, Int.compare_swap, Nat.compare_swap] at turned
      have less := count_lt hn hm turned
      simp only [place, placed]
      omega

/-- the numeric order is that of the places -/
theorem place_lt {u v : UnpackedFloat} (hu : Packed u) (hv : Packed v)
    (h : u.compare v = some .lt) : place u < place v := by
  have canonical {s : Sign} {m : Nat} {e : Int} {pos : 0 < m}
      (h : Packed (.finite s m e pos)) : Canonical m e := by
    cases h with
    | finite h => exact h
  cases u with
  | notANumber => cases h
  | zero s => cases v with
    | zero t => cases h
    | notANumber => cases h
    | infinity t => cases t with
      | positive => cases s <;> decide
      | negative => cases h
    | finite t n f pn => cases t with
      | positive =>
        have bounds := count_bounds (canonical hv) pn
        cases s <;> (simp only [place, placed]; omega)
      | negative => cases h
  | infinity s => cases s with
    | positive => cases v with
      | infinity t => cases t <;> cases h
      | _ => cases h
    | negative => cases v with
      | notANumber => cases h
      | zero t => cases t <;> decide
      | infinity t => cases t with
        | positive => decide
        | negative => cases h
      | finite t n f pn =>
        have bounds := count_bounds (canonical hv) pn
        cases t <;> (simp only [place, placed]; omega)
  | finite s m e pm =>
    have bounds := count_bounds (canonical hu) pm
    cases v with
    | notANumber => cases s <;> cases h
    | zero t => cases s with
      | positive => cases h
      | negative => cases t <;> (simp only [place, placed]; omega)
    | infinity t => cases t with
      | positive => cases s <;> (simp only [place, placed]; omega)
      | negative => cases s <;> cases h
    | finite t n f pn => exact place_lt_finite (canonical hu) (canonical hv) h

/-! ## Ranks -/

/-- a magnitude is the word without its first bit -/
theorem place_unpack {b : BitVec 64} (h : UnpackedFloat.unpack binary64 b ≠ .notANumber) :
    place (UnpackedFloat.unpack binary64 b) =
      placed (.ofBitVec (@unpackSign binary64 b)) (b.toNat % 2 ^ 63) := by
  have mantissa := toNat_unpackMantissa b
  have exponent := toNat_unpackExponent b
  have bias : binary64.exponentBias = 1023 := rfl
  unfold UnpackedFloat.unpack at h ⊢
  dsimp only at h ⊢
  split at h
  · next top =>
    have field : _ = 2047 := congrArg BitVec.toNat top
    split at h
    · next zero =>
      have none : _ = 0 := congrArg BitVec.toNat zero
      rw [if_pos top, if_pos zero]
      refine congrArg (placed _) ?_
      omega
    · exact absurd rfl h
  · next notTop =>
    rw [if_neg notTop, bias]
    split
    · next bottom =>
      have field : _ = 0 := congrArg BitVec.toNat bottom
      split
      · next zero =>
        have none : _ = 0 := congrArg BitVec.toNat zero
        refine congrArg (placed _) ?_
        omega
      · refine congrArg (placed _) ?_
        unfold count
        omega
    · next notBottom =>
      have field : (@unpackExponent binary64 b).toNat ≠ 0 := fun zero =>
        notBottom (BitVec.eq_of_toNat_eq zero)
      refine congrArg (placed _) ?_
      unfold count
      rw [toNat_append_one]
      omega

theorem place_bounds {u : UnpackedFloat} (hu : Packed u) :
    -1 - 0x7ff0000000000000 ≤ place u ∧ place u ≤ 0x7ff0000000000000 := by
  cases hu with
  | infinite s => cases s <;> decide
  | @finite u h => cases u with
    | zero s => cases s <;> decide
    | finite s m e pos =>
      have bounds := count_bounds h pos
      cases s <;> (simp only [place, placed]; omega)
    | _ => exact h.elim

namespace Double

theorem lt_signBit_iff {w : UInt64} : w < signBit ↔ w.toNat < 2 ^ 63 := UInt64.lt_iff_toNat_lt

/-- the rank of a word, by its sign and the rest of it -/
theorem rank_eq (x : Double) : x.rank =
    placed (.ofBitVec (@unpackSign binary64 x.word.toBitVec)) (x.word.toNat % 2 ^ 63) := by
  have small : x.word.toNat < 2 ^ 64 := x.word.toNat_lt
  have sign : (@unpackSign binary64 x.word.toBitVec).toNat = x.word.toNat / 2 ^ 63 :=
    toNat_unpackSign x.word.toBitVec
  unfold rank
  split
  · next low =>
    have less := lt_signBit_iff.mp low
    have positive : Sign.ofBitVec (@unpackSign binary64 x.word.toBitVec) = .positive := by
      refine if_pos (BitVec.eq_of_toNat_eq ?_)
      rw [sign, BitVec.toNat_ofNat, Nat.zero_mod]
      omega
    rw [positive]
    show (x.word.toNat : Int) = ((x.word.toNat % 2 ^ 63 : Nat) : Int)
    omega
  · next high =>
    have more := mt lt_signBit_iff.mpr high
    have negative : Sign.ofBitVec (@unpackSign binary64 x.word.toBitVec) = .negative := by
      refine if_neg fun zero => ?_
      have none : _ = 0 := congrArg BitVec.toNat zero
      omega
    rw [negative]
    show _ = -1 - ((x.word.toNat % 2 ^ 63 : Nat) : Int)
    omega

/-- the rank tells the word -/
theorem rank_inj {x y : Double} (h : x.rank = y.rank) : x = y := by
  have smallX : x.word.toNat < 2 ^ 64 := x.word.toNat_lt
  have smallY : y.word.toNat < 2 ^ 64 := y.word.toNat_lt
  have words : x.word.toNat = y.word.toNat := by
    unfold rank at h
    simp only [lt_signBit_iff] at h
    split_ifs at h <;> omega
  cases x
  cases y
  exact congrArg mk (UInt64.toNat_inj.mp words)

theorem unpack_toFloat {x : Double} (h : x.toFloat.isNaN = false) :
    x.toFloat.toModel.unpack = UnpackedFloat.unpack binary64 x.word.toBitVec ∧
      UnpackedFloat.unpack binary64 x.word.toBitVec ≠ .notANumber := by
  have number : UnpackedFloat.unpack binary64 x.word.toBitVec ≠ .notANumber := fun none =>
    absurd ((isNaN_ofBits x.word).mpr none) (Bool.not_eq_true _ ▸ h)
  refine ⟨?_, number⟩
  show UnpackedFloat.unpack binary64 (UnpackedFloat.pack binary64
    (UnpackedFloat.unpack binary64 x.word.toBitVec)) = _
  rw [pack_unpack_word number]

theorem rank_eq_place {x : Double} (h : x.toFloat.isNaN = false) :
    x.rank = place x.toFloat.toModel.unpack := by
  obtain ⟨same, number⟩ := unpack_toFloat h
  rw [same, place_unpack number, rank_eq]
  rfl

/-- **numbers in order**: as they are compared, and one zero before the other -/
theorem rank_lt_iff {x y : Double} (hx : x.toFloat.isNaN = false) (hy : y.toFloat.isNaN = false) :
    x.rank < y.rank ↔ x.toFloat < y.toFloat ∨ (x = .ofFloat (-0.0) ∧ y = .ofFloat 0.0) := by
  have lower {x y : Double} (hx : x.toFloat.isNaN = false) (hy : y.toFloat.isNaN = false)
      (h : x.toFloat < y.toFloat) : x.rank < y.rank := by
    rw [rank_eq_place hx, rank_eq_place hy]
    refine place_lt (packed_unpack hx) (packed_unpack hy) ?_
    rw [compare_extent (packed_unpack hx) (packed_unpack hy)]
    exact congrArg some ((cmp_eq_lt_iff _ _).mpr ((lt_iff_extent hx hy).mp h))
  constructor
  · intro h
    by_cases less : x.toFloat < y.toFloat
    · exact .inl less
    · have greater : ¬ y.toFloat < x.toFloat := fun more => (lower hy hx more).not_gt h
      rcases eq_or_zeros hx hy less greater with same | ⟨s, t, zeroX, zeroY⟩
      · rw [rank_eq_place hx, rank_eq_place hy, same] at h
        exact absurd h (lt_irrefl _)
      · have wordX := eq_ofFloat_of_zero zeroX
        have wordY := eq_ofFloat_of_zero zeroY
        rw [rank_eq_place hx, rank_eq_place hy, zeroX, zeroY] at h
        cases s <;> cases t
        · exact absurd h (by decide)
        · exact .inr ⟨wordX, wordY⟩
        · exact absurd h (by decide)
        · exact absurd h (by decide)
  · rintro (less | ⟨rfl, rfl⟩)
    · exact lower hx hy less
    · decide

/-- what is no number is at the two ends -/
theorem rank_of_isNaN {x y : Double} (hx : x.toFloat.isNaN = true) (hy : y.toFloat.isNaN = false) :
    (x.word < signBit → y.rank < x.rank) ∧ (¬ x.word < signBit → x.rank < y.rank) := by
  have small : x.word.toNat < 2 ^ 64 := x.word.toNat_lt
  have beyond : 0x7ff0000000000000 < x.word.toNat % 2 ^ 63 := by
    obtain ⟨top, nonzero⟩ := unpack_eq_notANumber_iff.mp ((isNaN_ofBits x.word).mp hx)
    have field : x.word.toNat / 2 ^ 52 % 2 ^ 11 = 2047 :=
      (toNat_unpackExponent x.word.toBitVec).symm.trans (congrArg BitVec.toNat top)
    have rest : x.word.toNat % 2 ^ 52 ≠ 0 := fun zero =>
      nonzero (BitVec.eq_of_toNat_eq ((toNat_unpackMantissa x.word.toBitVec).trans zero))
    omega
  have within := place_bounds (packed_unpack hy)
  rw [← rank_eq_place hy] at within
  constructor
  · intro low
    have less := lt_signBit_iff.mp low
    have rank : x.rank = x.word.toNat := if_pos low
    omega
  · intro high
    have more := mt lt_signBit_iff.mpr high
    have rank : x.rank = 0x7fffffffffffffff - (x.word.toNat : Int) := if_neg high
    omega

end Double
end Chance
