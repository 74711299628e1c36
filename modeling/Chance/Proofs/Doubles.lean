import Chance.Mass
import Mathlib

/-!
# Doubles as numbers

A finite double is a mantissa of at most 53 bits times a power of two, the mantissa of full length
unless the power is the least one.  In this form the order of doubles, which compares exponents
first, is the order of the numbers.

* `Canonical`             mantissa and exponent of a double;
* `numberOf`, `exactValue_eq`   the number;
* `representable_unpack`  what a finite double is unpacked to;
* `compare_eq_cmp`        comparison is that of the numbers, hence `le_iff_exactValue` and
                          `lt_iff_exactValue`.
-/

namespace Chance

open Float.Model (UnpackedFloat)
open Float.Model.Format (binary64)
open Float.Model.UnpackedFloat

/-- a mantissa and an exponent as doubles have them -/
structure Canonical (m : Nat) (e : Int) : Prop where
  small : m < 2 ^ 53
  low : -1074 ≤ e
  high : e ≤ 971
  normal : 2 ^ 52 ≤ m ∨ e = -1074

/-- the same but for the bound of the exponent, as rounding leaves them -/
structure Aligned (m : Nat) (e : Int) : Prop where
  small : m < 2 ^ 53
  low : -1074 ≤ e
  normal : 2 ^ 52 ≤ m ∨ e = -1074

/-- the number that is unpacked, zero for infinities and for what is no number -/
def numberOf : UnpackedFloat → Rat
  | .finite .positive m e _ => m * (2 : Rat) ^ e
  | .finite .negative m e _ => -(m * (2 : Rat) ^ e)
  | _ => 0

theorem exactValue_eq (x : Float) : exactValue x = numberOf x.toModel.unpack := by
  unfold exactValue numberOf
  rfl

/-- a number that doubles have -/
def Representable : UnpackedFloat → Prop
  | .finite _ m e _ => Canonical m e
  | .zero _ => True
  | _ => False

/-- a number that doubles would have if their exponents had no bound -/
def Unbounded : UnpackedFloat → Prop
  | .finite _ m e _ => Aligned m e
  | .zero _ => True
  | _ => False

/-! ## Unpacking -/

theorem toNat_append_one (v : BitVec 52) : (1#1 ++ v).toNat = 2 ^ 52 + v.toNat := by
  rw [BitVec.toNat_append, ← Nat.shiftLeft_add_eq_or_of_lt v.isLt]
  rfl

/-- what a double is unpacked to is canonical -/
theorem canonical_of_unpack {x : Float.Model} {s : Sign} {m : Nat} {e : Int} {pos : 0 < m}
    (h : x.unpack = .finite s m e pos) : Canonical m e := by
  have hm : (@unpackMantissa binary64 x.toBits.toBitVec).toNat < 2 ^ 52 := BitVec.isLt _
  have he : (@unpackExponent binary64 x.toBits.toBitVec).toNat < 2 ^ 11 := BitVec.isLt _
  unfold Float.Model.unpack UnpackedFloat.unpack at h
  dsimp only at h
  split at h
  · split at h <;> cases h
  · next notTop =>
    have top : (@unpackExponent binary64 x.toBits.toBitVec).toNat ≠
        2047 := fun e => notTop (BitVec.eq_of_toNat_eq e)
    have bias : binary64.exponentBias = 1023 := rfl
    split at h
    · next bottom =>
      have zero := congrArg BitVec.toNat bottom
      change _ = 0 at zero
      split at h
      · cases h
      · cases h
        rw [zero, bias]
        exact ⟨by omega, by omega, by omega, .inr (by omega)⟩
    · next notBottom =>
      have positive : (@unpackExponent binary64 x.toBits.toBitVec).toNat ≠ 0 :=
        fun e => notBottom (BitVec.eq_of_toNat_eq e)
      cases h
      rw [toNat_append_one, bias]
      exact ⟨by omega, by omega, by omega, .inl (by omega)⟩

theorem representable_unpack {x : Float.Model} (h : x.unpack.isFinite = true) :
    Representable x.unpack := by
  cases hx : x.unpack with
  | finite s m e pos => exact canonical_of_unpack hx
  | zero s => trivial
  | infinity s =>
    rw [hx] at h
    cases h
  | notANumber =>
    rw [hx] at h
    cases h

/-! ## Order -/

theorem Canonical.lt_of_exponent_lt {m n : Nat} {e f : Int} (hm : Canonical m e)
    (hn : Canonical n f) (h : e < f) : (m : Rat) * 2 ^ e < n * 2 ^ f := by
  have full : 2 ^ 52 ≤ n := hn.normal.resolve_right fun least => by
    have := hm.low
    omega
  calc (m : Rat) * 2 ^ e < 2 ^ 53 * 2 ^ e := by
        have small : (m : Rat) < 2 ^ 53 := by exact_mod_cast hm.small
        exact mul_lt_mul_of_pos_right small (by positivity)
    _ = 2 ^ 52 * 2 ^ (e + 1) := by
        rw [zpow_add_one₀ (by norm_num)]
        ring
    _ ≤ n * 2 ^ f := by
        have large : (2 ^ 52 : Rat) ≤ n := by exact_mod_cast full
        have up : (2 : Rat) ^ (e + 1) ≤ 2 ^ f := zpow_le_zpow_right₀ (by norm_num) h
        exact mul_le_mul large up (by positivity) (by positivity)

/-- exponents first, then mantissas: this is the order of the numbers -/
theorem Canonical.compare_eq_cmp {m n : Nat} {e f : Int} (hm : Canonical m e)
    (hn : Canonical n f) :
    (compare e f).then (compare m n) = cmp ((m : Rat) * 2 ^ e) (n * 2 ^ f) := by
  rcases lt_trichotomy e f with h | rfl | h
  · rw [(cmp_eq_lt_iff _ _).mpr (hm.lt_of_exponent_lt hn h), Int.compare_eq_lt.mpr h]
    rfl
  · have mantissas := (Nat.strictMono_cast : StrictMono (Nat.cast : Nat → Rat)).cmp_map_eq m n
    rw [cmp_mul_pos_right (by positivity : (0 : Rat) < 2 ^ e), mantissas, cmp_eq_compare,
      compare_eq_iff_eq.mpr rfl]
    rfl
  · rw [(cmp_eq_gt_iff _ _).mpr (hn.lt_of_exponent_lt hm h), Int.compare_eq_gt.mpr h]
    rfl

theorem Canonical.pos {m : Nat} (e : Int) (pos : 0 < m) : 0 < (m : Rat) * 2 ^ e := by
  have : (0 : Rat) < m := by exact_mod_cast pos
  positivity

/-- comparison of finite doubles is that of the numbers -/
theorem compare_eq_cmp {u v : UnpackedFloat} (hu : Representable u) (hv : Representable v) :
    u.compare v = some (cmp (numberOf u) (numberOf v)) := by
  cases u with
  | zero s => cases v with
    | zero t => rfl
    | finite t n f hn =>
      have pos := Canonical.pos f hn
      cases t with
      | positive => exact congrArg some ((cmp_eq_lt_iff _ _).mpr pos).symm
      | negative => exact congrArg some ((cmp_eq_gt_iff _ _).mpr (neg_lt_zero.mpr pos)).symm
    | _ => exact hv.elim
  | finite s m e hm =>
    have pos := Canonical.pos e hm
    cases v with
    | zero t => cases s with
      | positive => exact congrArg some ((cmp_eq_gt_iff _ _).mpr pos).symm
      | negative => exact congrArg some ((cmp_eq_lt_iff _ _).mpr (neg_lt_zero.mpr pos)).symm
    | finite t n f hn =>
      have pos' := Canonical.pos f hn
      cases s with
      | positive => cases t with
        | positive => exact congrArg some (hu.compare_eq_cmp hv)
        | negative =>
          exact congrArg some ((cmp_eq_gt_iff _ _).mpr ((neg_lt_zero.mpr pos').trans pos)).symm
      | negative => cases t with
        | positive =>
          exact congrArg some ((cmp_eq_lt_iff _ _).mpr ((neg_lt_zero.mpr pos).trans pos')).symm
        | negative =>
          have swapped := congrArg Ordering.swap (hu.compare_eq_cmp hv)
          rw [cmp_swap] at swapped
          have opposite : StrictAnti (Neg.neg : Rat → Rat) := fun _ _ => neg_lt_neg
          exact congrArg some (swapped.trans (opposite.cmp_map_eq _ _).symm)
    | _ => exact hv.elim
  | _ => exact hu.elim

theorem isLE_cmp {a b : Rat} : (cmp a b).isLE = true ↔ a ≤ b := by
  rcases lt_trichotomy a b with h | rfl | h
  · rw [(cmp_eq_lt_iff _ _).mpr h]
    exact iff_of_true rfl h.le
  · rw [cmp_self_eq_eq]
    exact iff_of_true rfl le_rfl
  · rw [(cmp_eq_gt_iff _ _).mpr h]
    exact iff_of_false (by decide) (not_le_of_gt h)

section

variable {x y : Float}

theorem le_iff_exactValue (hx : x.isFinite = true) (hy : y.isFinite = true) :
    x ≤ y ↔ exactValue x ≤ exactValue y := by
  have compared := compare_eq_cmp (representable_unpack hx) (representable_unpack hy)
  have unfolded : x ≤ y ↔ (x.toModel.unpack.compare y.toModel.unpack).any (·.isLE) = true := by
    show decide _ = true ↔ _
    rw [decide_eq_true_iff]
    rfl
  rw [unfolded, compared, exactValue_eq, exactValue_eq]
  exact isLE_cmp

theorem lt_iff_exactValue (hx : x.isFinite = true) (hy : y.isFinite = true) :
    x < y ↔ exactValue x < exactValue y := by
  have compared := compare_eq_cmp (representable_unpack hx) (representable_unpack hy)
  have unfolded : x < y ↔ (x.toModel.unpack.compare y.toModel.unpack == some .lt) = true := by
    show decide _ = true ↔ _
    rw [decide_eq_true_iff]
    rfl
  rw [unfolded, compared, exactValue_eq, exactValue_eq, beq_iff_eq, Option.some.injEq]
  exact cmp_eq_lt_iff _ _

theorem le_of_lt_double (h : x < y) : x ≤ y := by
  change (decide (x.toModel < y.toModel) = true) at h
  have less : (x.toModel.unpack.compare y.toModel.unpack == some .lt) = true := of_decide_eq_true h
  have compared := beq_iff_eq.mp less
  show decide (x.toModel ≤ y.toModel) = true
  refine decide_eq_true ?_
  show (x.toModel.unpack.compare y.toModel.unpack).any (·.isLE) = true
  rw [compared]
  rfl

/-- what lies between finite doubles is finite -/
theorem isFinite_of_between {z : Float} (hx : x.isFinite = true) (hz : z.isFinite = true)
    (h : x ≤ y) (h' : y ≤ z) : y.isFinite = true := by
  change (x.toModel.unpack.isFinite = true) at hx
  change (z.toModel.unpack.isFinite = true) at hz
  change (decide (x.toModel ≤ y.toModel) = true) at h
  change (decide (y.toModel ≤ z.toModel) = true) at h'
  have lower : x.toModel.unpack.le y.toModel.unpack = true := of_decide_eq_true h
  have upper : y.toModel.unpack.le z.toModel.unpack = true := of_decide_eq_true h'
  show y.toModel.unpack.isFinite = true
  generalize x.toModel.unpack = u at *
  generalize y.toModel.unpack = v at *
  generalize z.toModel.unpack = w at *
  cases v with
  | zero s => rfl
  | finite s m e pos => rfl
  | notANumber => cases w <;> cases upper
  | infinity s => cases s with
    | positive => cases w <;> first | cases upper | cases hz
    | negative => cases u <;> first | cases lower | cases hx

end

/-! ## The unit interval -/

theorem exactValue_zero : exactValue 0.0 = 0 := by decide +kernel

theorem exactValue_one : exactValue 1.0 = 1 := by decide +kernel

theorem isFinite_zero : (0.0 : Float).isFinite = true := by decide

theorem isFinite_one : (1.0 : Float).isFinite = true := by decide

/-- a double of the unit interval is a number of the unit interval -/
theorem exactValue_mem_unit {p : Float} (h : 0.0 ≤ p) (h' : p ≤ 1.0) :
    0 ≤ exactValue p ∧ exactValue p ≤ 1 := by
  have finite := isFinite_of_between isFinite_zero isFinite_one h h'
  rw [← exactValue_zero, ← exactValue_one]
  exact ⟨(le_iff_exactValue isFinite_zero finite).mp h,
    (le_iff_exactValue finite isFinite_one).mp h'⟩

theorem exactValue_lt_one {u : Float} (h : 0.0 ≤ u) (h' : u < 1.0) : exactValue u < 1 := by
  have finite := isFinite_of_between isFinite_zero isFinite_one h (le_of_lt_double h')
  rw [← exactValue_one]
  exact (lt_iff_exactValue finite isFinite_one).mp h'

end Chance
