import Chance.Proofs.NullMasses

/-!
# Sums that start at zero

Masses are sums from zero on, so none of them is the zero with a minus sign: a sum is that zero only
if both its terms are, since a sum that cancels is the other zero and no sum is rounded to zero.
Hence putting a mass onto zero once more changes nothing, and a term of a sum may be put onto zero
before it is multiplied.

* `NoMinusZero`           every double but the zero with a minus sign;
* `rounded_ne_zero`       no sum of doubles is rounded to zero;
* `NoMinusZero.add`       sums keep it;
* `NoMinusZero.zero_add`, `NoMinusZero.add_mul_zero_add`   what may be put onto zero;
* `Pmf.noMinusZero_get_ofList`   masses that are added up;
* `AddAlike`, `Pmf.ofList_congr_sums`   lists of entries that add up alike.
-/

namespace Chance

open Float.Model (UnpackedFloat)
open Float.Model.Format (binary64)
open Float.Model.UnpackedFloat

/-- not the zero with a minus sign -/
def NoMinusZero (x : Float) : Prop := x.toModel.unpack ≠ .zero .negative

theorem noMinusZero_zero : NoMinusZero 0.0 := by
  intro same
  cases same

/-! ## No sum is rounded to zero -/

theorem rounded_pos {m : Int} {e : Int} (hm : 0 < m) (he : -1074 ≤ e) :
    0 < rounded (m * 2 ^ e) := by
  have least : (1 : Nat) * (2 : Rat) ^ e ≤ m * 2 ^ e := by
    have one : ((1 : Nat) : Rat) ≤ m := by exact_mod_cast hm
    gcongr
  have mono := rounded_mono least
  rw [rounded_of_short (by norm_num) he] at mono
  exact lt_of_lt_of_le (by positivity) mono

theorem rounded_ne_zero {m : Int} {e : Int} (hm : m ≠ 0) (he : -1074 ≤ e) :
    rounded (m * 2 ^ e) ≠ 0 := by
  rcases hm.lt_or_gt with negative | positive
  · have opposite : (m : Rat) * 2 ^ e = -(((-m : Int) : Rat) * 2 ^ e) := by
      push_cast
      ring
    rw [opposite, rounded_neg]
    exact neg_ne_zero.mpr (rounded_pos (neg_pos.mpr negative) he).ne'
  · exact (rounded_pos positive he).ne'

theorem cut_ne_zero {q : Rat} (h : q ≠ 0) : cut q ≠ 0 := by
  have large := limit_pos
  unfold cut
  rcases h.lt_or_gt with negative | positive
  · rw [min_eq_right (negative.trans large).le]
    exact (max_lt (neg_neg_of_pos large) negative).ne
  · exact (lt_max_of_lt_right (lt_min large positive)).ne'

/-- a mantissa that cancels gives the zero without a sign -/
theorem pack_normalize {m e : Int} (he : -1074 ≤ e) :
    (Float.Model.pack (normalize binary64 m e .positive)).unpack ≠ .zero .negative := by
  by_cases hm : m = 0
  · subst hm
    have zero : normalize binary64 0 e .positive = .zero .positive := rfl
    rw [zero]
    intro same
    cases same
  · obtain ⟨unbounded, number⟩ := normalize_spec m e .positive
    have size := (unpack_pack_extent unbounded).2
    rw [number] at size
    intro same
    rw [same] at size
    exact cut_ne_zero (rounded_ne_zero hm he) size.symm

/-! ## Sums -/

section

variable {x y : Float}

theorem add_eq_pack (x y : Float) :
    x + y = .ofModel (.pack (UnpackedFloat.add binary64 x.toModel.unpack y.toModel.unpack)) := rfl

theorem NoMinusZero.zero_add (h : NoMinusZero x) : 0.0 + x = x := by
  have zero : (0.0 : Float).toModel.unpack = .zero .positive := rfl
  have whole := ofModel_pack_unpack x
  unfold NoMinusZero at h
  rw [add_eq_pack, zero]
  generalize x.toModel.unpack = u at *
  cases u with
  | zero s => cases s with
    | positive => exact whole
    | negative => exact absurd rfl h
  | _ => exact whole

theorem NoMinusZero.add_null (h : NoMinusZero x) (hy : IsNull y) : x + y = x := by
  obtain ⟨t, null⟩ := isNull_iff.mp hy
  have whole := ofModel_pack_unpack x
  unfold NoMinusZero at h
  rw [add_eq_pack, null]
  generalize x.toModel.unpack = u at *
  cases u with
  | zero s => cases s with
    | positive => cases t <;> exact whole
    | negative => exact absurd rfl h
  | _ => exact whole

/-- neither a number beyond the doubles nor what is no number is a zero -/
theorem noMinusZero_pack {u : UnpackedFloat} (h : u.isFinite = false) :
    NoMinusZero (.ofModel (.pack u)) := by
  unfold NoMinusZero
  cases u with
  | infinity s =>
    have packed := unpack_pack_infinity s
    intro same
    cases packed.symm.trans same
  | notANumber =>
    have packed : (Float.Model.pack .notANumber).unpack = .notANumber :=
      unpack_of_isNaN (x := .ofModel (.pack .notANumber)) (by decide)
    intro same
    cases packed.symm.trans same
  | _ => cases h

/-- a sum is the zero with a minus sign only if both its terms are -/
theorem NoMinusZero.add (h : NoMinusZero x) (y : Float) : NoMinusZero (x + y) := by
  by_cases null : IsNull y
  · rwa [h.add_null null]
  · have signless : NoMinusZero y := fun minus => null (isNull_iff.mpr ⟨_, minus⟩)
    cases hx : x.toModel.unpack with
    | notANumber =>
      rw [add_eq_pack, hx]
      exact noMinusZero_pack rfl
    | infinity s =>
      rw [add_eq_pack, hx]
      refine noMinusZero_pack ?_
      cases y.toModel.unpack with
      | infinity t => cases s <;> cases t <;> rfl
      | _ => rfl
    | zero s => cases s with
      | negative => exact absurd hx h
      | positive =>
        have sum : x + y = 0.0 + y := by
          rw [add_eq_pack, hx]
          rfl
        rw [sum, signless.zero_add]
        exact signless
    | finite s m e pos => cases hy : y.toModel.unpack with
      | zero t => exact absurd (isNull_iff.mpr ⟨t, hy⟩) null
      | finite t n f pos' =>
        rw [add_eq_pack, hx, hy]
        exact pack_normalize (le_min (canonical_of_unpack hx).low (canonical_of_unpack hy).low)
      | _ =>
        rw [add_eq_pack, hx, hy]
        exact noMinusZero_pack rfl

/-- infinities are not multiplied by zero -/
theorem isNaN_mul_null {p q : Float} (hp : ¬ p.isFinite = true) (hq : IsNull q) :
    (p * q).isNaN = true := by
  obtain ⟨t, zero⟩ := isNull_iff.mp hq
  have product :
      p * q = .ofModel (.pack (UnpackedFloat.mul binary64 p.toModel.unpack (.zero t))) := by
    rw [← zero]
    rfl
  have absorbed : UnpackedFloat.mul binary64 p.toModel.unpack (.zero t) = .notANumber := by
    change ¬ p.toModel.unpack.isFinite = true at hp
    generalize p.toModel.unpack = u at *
    cases u with
    | infinity s => rfl
    | notANumber => rfl
    | _ => exact absurd rfl hp
  rw [product, absorbed]
  decide

/-- a factor may be put onto zero before it is multiplied -/
theorem NoMinusZero.add_mul_zero_add (h : NoMinusZero x) (p q : Float) :
    x + p * (0.0 + q) = x + p * q := by
  by_cases minus : q.toModel.unpack = .zero .negative
  · -- the products are zeros of opposite sign, or both no number
    have null : IsNull q := isNull_iff.mpr ⟨_, minus⟩
    have onto : IsNull (0.0 + q) := (add_null_right null).elim (fun e => e ▸ isNull_zero) And.left
    by_cases finite : p.isFinite = true
    · rw [h.add_null (mul_null_right finite onto), h.add_null (mul_null_right finite null)]
    · rw [eq_of_isNaN (isNaN_mul_null finite onto) (isNaN_mul_null finite null)]
  · rw [NoMinusZero.zero_add minus]

/-- sums that start without a minus sign, term by term the same -/
theorem NoMinusZero.foldl (h : NoMinusZero x) (ys : List Float) :
    NoMinusZero (ys.foldl (fun t y => t + y) x) := by
  induction ys generalizing x with
  | nil => exact h
  | cons y ys ih => exact ih (h.add y)

end

/-! ## Masses -/

/-- entries for one outcome each that add the same to every sum from zero on -/
def AddAlike {α : Type} (e f : α × Float) : Prop :=
  e.1 = f.1 ∧ ∀ t, NoMinusZero t → t + e.2 = t + f.2

namespace Pmf

variable {α : Type} [Outcome α]

theorem noMinusZero_get_ofList (l : List (α × Float)) (v : α) :
    NoMinusZero ((ofList l).get v) := by
  rw [get_ofList, ← List.foldl_map]
  exact noMinusZero_zero.foldl _

omit [Outcome α] in
theorem foldl_congr_sums {l k : List (α × Float)} (h : List.Forall₂ AddAlike l k)
    (kept : α → Bool) {t : Float} (ht : NoMinusZero t) :
    (l.filter fun e => kept e.1).foldl (fun t e => t + e.2) t =
      (k.filter fun e => kept e.1).foldl (fun t e => t + e.2) t := by
  induction h generalizing t with
  | nil => rfl
  | cons first _ ih =>
    obtain ⟨outcome, mass⟩ := first
    rw [List.filter_cons, List.filter_cons, outcome]
    split
    · rw [List.foldl_cons, List.foldl_cons, mass t ht]
      exact ih (ht.add _)
    · exact ih ht

/-- entries of a mass function are told by their outcomes -/
theorem eq_map_get {M : Type} [Mass M] {s : Pmf α M} {es : List (α × M)}
    (h : ∀ e ∈ es, e ∈ s.entries) : es = (es.map Prod.fst).map fun v => (v, s.get v) := by
  have entry : ∀ e ∈ es, (e.1, s.get e.1) = e := fun e he => by rw [get_of_mem (h e he)]
  rw [List.map_map]
  exact (List.map_id' _).symm.trans (List.map_congr_left fun e he => (entry e he).symm)

theorem entries_eq_map {M : Type} [Mass M] (s : Pmf α M) :
    s.entries = s.values.map fun v => (v, s.get v) := eq_map_get fun _ he => he

/-- lists that add up alike build the same -/
theorem ofList_congr_sums {l k : List (α × Float)} (h : List.Forall₂ AddAlike l k) :
    ofList l = ofList k := by
  have outcomes : l.map Prod.fst = k.map Prod.fst := by
    induction h with
    | nil => rfl
    | cons first _ ih => rw [List.map_cons, List.map_cons, first.1, ih]
  refine ext_entries ?_
  rw [entries_eq_map, entries_eq_map, values_ofList, values_ofList, outcomes]
  refine List.map_congr_left fun v _ => ?_
  have mass : (ofList l).get v = (ofList k).get v := by
    rw [get_ofList, get_ofList]
    exact foldl_congr_sums h (fun w => Outcome.same w v) noMinusZero_zero
  rw [mass]

end Pmf
end Chance
