import Chance.Proofs.Words
import Chance.Pmf.Combination

/-!
# Doubles as outcomes

A double is recorded as a word, computed with as a word and told apart by its key.  All this says no
more than the floating-point number of the word: there is one such number that is no number, every
other number has one word, and an operation on words is the operation on their numbers.

* `word_of_number`        a word that is a number is the word of that number;
* `eq_of_isNaN`           there is one number that is no number;
* `toFloat_lift`          operations on words;
* `same_double`           two words are one outcome if they have one number.
-/

namespace Chance

open Float.Model (UnpackedFloat)
open Float.Model.Format (binary64)
open Float.Model.UnpackedFloat

/-! ## Words that are no number -/

theorem isNaN_ofBits (w : UInt64) :
    (Float.ofBits w).isNaN = true ↔ UnpackedFloat.unpack binary64 w.toBitVec = .notANumber := by
  show (UnpackedFloat.unpack binary64
    (UnpackedFloat.pack binary64 (UnpackedFloat.unpack binary64 w.toBitVec))).isNaN = true ↔ _
  by_cases h : UnpackedFloat.unpack binary64 w.toBitVec = .notANumber
  · rw [h]
    exact iff_of_true (by decide) rfl
  · rw [pack_unpack_word h]
    refine iff_of_false ?_ h
    cases hw : UnpackedFloat.unpack binary64 w.toBitVec with
    | notANumber => exact absurd hw h
    | _ => exact Bool.false_ne_true

theorem unpack_of_isNaN {x : Float} (h : x.isNaN = true) : x.toModel.unpack = .notANumber := by
  rw [← Float.ofBits_toBits x] at h
  exact (isNaN_ofBits x.toBits).mp h

/-- there is one number that is no number -/
theorem eq_of_isNaN {x y : Float} (hx : x.isNaN = true) (hy : y.isNaN = true) : x = y := by
  have bits {z : Float} (hz : z.isNaN = true) :
      z.toBits.toBitVec = UnpackedFloat.packedNaN binary64 :=
    (unpack_eq_notANumber_iff_of_valid z.toModel.valid).mp (unpack_of_isNaN hz)
  exact Float.toBits_inj.mp (UInt64.eq_of_toBitVec_eq ((bits hx).trans (bits hy).symm))

theorem ofModel_pack_unpack (x : Float) : .ofModel (.pack x.toModel.unpack) = x := by
  by_cases number : x.toModel.unpack = .notANumber
  · have none : x.isNaN = true := by
      show x.toModel.unpack.isNaN = true
      rw [number]
      rfl
    rw [number]
    exact eq_of_isNaN (by decide) none
  · rw [pack_unpack number]

namespace Double

theorem toFloat_ofFloat (x : Float) : (ofFloat x).toFloat = x := Float.ofBits_toBits x

/-- a word that is a number is the word of that number -/
theorem word_of_number {x : Double} (h : x.toFloat.isNaN = false) : ofFloat x.toFloat = x := by
  have number : UnpackedFloat.unpack binary64 x.word.toBitVec ≠ .notANumber := fun none =>
    absurd ((isNaN_ofBits x.word).mpr none) (Bool.not_eq_true _ ▸ h)
  exact congrArg Double.mk (UInt64.eq_of_toBitVec_eq (pack_unpack_word number))

/-- a word that is no number stays one when it is passed on -/
theorem isNaN_quiet {x : Double} (h : x.toFloat.isNaN = true) : x.quiet.toFloat.isNaN = true := by
  obtain ⟨top, nonzero⟩ := unpack_eq_notANumber_iff.mp ((isNaN_ofBits x.word).mp h)
  have exponent : @unpackExponent binary64 x.quiet.word.toBitVec =
      @unpackExponent binary64 x.word.toBitVec ||| 0#11 := BitVec.extractLsb_or
  have mantissa : @unpackMantissa binary64 x.quiet.word.toBitVec =
      @unpackMantissa binary64 x.word.toBitVec ||| 0x8000000000000#52 := BitVec.extractLsb_or
  refine (isNaN_ofBits _).mpr (unpack_eq_notANumber_iff.mpr ⟨?_, fun zero => ?_⟩)
  · rw [exponent, BitVec.or_zero, top]
  · rw [mantissa, BitVec.or_eq_zero_iff] at zero
    exact nonzero zero.1

/-! ## Operations -/

/-- the operations on floating-point numbers pass on what is no number -/
theorem isNaN_onFloat (op : Arith) {x y : Float} (h : x.isNaN = true ∨ y.isNaN = true) :
    (op.onFloat x y).isNaN = true := by
  have packed {u : UnpackedFloat} (hu : u = .notANumber) :
      (Float.ofModel (.pack u)).isNaN = true := by
    rw [hu]
    decide
  rcases h with hx | hy
  · have x' := unpack_of_isNaN hx
    cases op
    all_goals
      refine packed ?_
      rw [x']
      rfl
  · have y' := unpack_of_isNaN hy
    cases op
    all_goals
      refine packed ?_
      rw [y']
      cases x.toModel.unpack <;> rfl

/-- an operation on words is the operation on their numbers -/
theorem toFloat_lift (op : Arith) (x y : Double) :
    (lift op.onFloat x y).toFloat = op.onFloat x.toFloat y.toFloat := by
  unfold lift
  split
  · next hx => exact eq_of_isNaN (isNaN_quiet hx) (isNaN_onFloat op (.inl hx))
  · split
    · next hy => exact eq_of_isNaN (isNaN_quiet hy) (isNaN_onFloat op (.inr hy))
    · dsimp only
      split
      · next hr => exact eq_of_isNaN (by decide) hr
      · exact toFloat_ofFloat _

/-! ## Identity -/

/-- words of one key have one number -/
theorem key_eq_iff_toFloat (x y : Double) : x.key = y.key ↔ x.toFloat = y.toFloat := by
  rw [key_eq_iff]
  constructor
  · rintro (rfl | ⟨hx, hy⟩)
    · rfl
    · exact eq_of_isNaN hx hy
  · intro same
    cases hx : x.toFloat.isNaN with
    | true => exact .inr ⟨rfl, same ▸ hx⟩
    | false => exact .inl (by rw [← word_of_number hx, same, word_of_number (same ▸ hx)])

theorem same_double (x y : Double) : Outcome.same x y = decide (x.toFloat = y.toFloat) :=
  decide_eq_decide.mpr (key_eq_iff_toFloat x y)

end Double
end Chance
