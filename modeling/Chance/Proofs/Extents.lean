import Chance.Proofs.Arithmetic

/-!
# Doubles in order, the infinities among them

Beyond the largest double sums and products are infinite.  The extent of a double is its number,
and a power of two beyond all doubles for the infinities; so rounding is followed by a cut at that
power, and it keeps the order that multiplication by a number and addition of one have.

* `extent`                what stands for a double in the order, `le_iff_extent`;
* `mul_extent`, `add_extent`   products and sums of finite doubles, rounded and cut;
* `mul_le_mul_double`, `mul_le_mul_double_of_nonpos`, `add_le_add_double`   the order is kept, or
                          turned round;
* `signOf`                the sign, which products and quotients pass on also where they are zero or
                          infinite.
-/

namespace Chance

open Float.Model (UnpackedFloat)
open Float.Model.Format (binary64)
open Float.Model.UnpackedFloat

/-! ## Extents -/

def extentOf : UnpackedFloat → Rat
  | .infinity s => signed s limit
  | u => numberOf u

/-- the number of a double, and a power of two beyond all doubles for the infinities -/
def extent (x : Float) : Rat := extentOf x.toModel.unpack

/-- a number that doubles have, or an infinity -/
inductive Packed : UnpackedFloat → Prop
  | finite {u : UnpackedFloat} (h : Representable u) : Packed u
  | infinite (s : Sign) : Packed (.infinity s)

theorem finite_or_infinite {x : Float} (h : x.isNaN = false) :
    x.isFinite = true ∨ ∃ s, x.toModel.unpack = .infinity s := by
  change x.toModel.unpack.isNaN = false at h
  show x.toModel.unpack.isFinite = true ∨ _
  generalize x.toModel.unpack = u at *
  cases u with
  | infinity s => exact .inr ⟨s, rfl⟩
  | notANumber => cases h
  | _ => exact .inl rfl

theorem packed_unpack {x : Float} (h : x.isNaN = false) : Packed x.toModel.unpack := by
  rcases finite_or_infinite h with finite | ⟨s, hs⟩
  · exact .finite (representable_unpack finite)
  · rw [hs]
    exact .infinite s

/-- doubles end a last place before the first power of two beyond them -/
theorem abs_numberOf_le {u : UnpackedFloat} (h : Representable u) :
    |numberOf u| ≤ limit - 2 ^ (971 : Int) := by
  have last : limit - 2 ^ (971 : Int) = (2 ^ 53 - 1) * 2 ^ (971 : Int) := by
    have size : limit = 2 ^ 53 * 2 ^ (971 : Int) := limit_eq 53
    rw [sub_mul, one_mul, size]
  rw [last]
  cases u with
  | zero s => exact (abs_zero (α := Rat)).trans_le (by positivity)
  | finite s m e pos =>
    have small : (m : Rat) ≤ 2 ^ 53 - 1 := by
      have next : ((m + 1 : Nat) : Rat) ≤ 2 ^ 53 := by exact_mod_cast h.small
      push_cast at next
      exact le_sub_iff_add_le.mpr next
    rw [abs_numberOf_finite]
    exact mul_le_mul small (zpow_le_zpow_right₀ (by norm_num) h.high) (by positivity) (by norm_num)
  | _ => exact h.elim

theorem abs_numberOf_lt {u : UnpackedFloat} (h : Representable u) : |numberOf u| < limit :=
  (abs_numberOf_le h).trans_lt (sub_lt_self limit (by positivity))

theorem isFinite_complement {p : Float} (hp : p.isFinite = true) : (1.0 - p).isFinite = true := by
  refine (sub_rounded isFinite_one hp (abs_rounded_lt ?_)).1
  have size := abs_numberOf_le (representable_unpack hp)
  have split : |1 - numberOf p.toModel.unpack| ≤ 1 + |numberOf p.toModel.unpack| := by
    simpa using abs_sub 1 (numberOf p.toModel.unpack)
  have twice : (2 : Rat) ^ (971 : Int) = 2 ^ (970 : Int) * 2 := zpow_add_one₀ (by norm_num) 970
  have large : (1 : Rat) < 2 ^ (970 : Int) := one_lt_zpow₀ (by norm_num) (by norm_num)
  rw [exactValue_one, exactValue_eq p]
  rw [twice] at size
  calc |1 - numberOf p.toModel.unpack| ≤ 1 + |numberOf p.toModel.unpack| := split
    _ ≤ 1 + (limit - 2 ^ (970 : Int) * 2) := by gcongr
    _ < limit - 2 ^ (970 : Int) := by
      generalize (2 : Rat) ^ (970 : Int) = half at *
      linarith only [large]

theorem extentOf_representable {u : UnpackedFloat} (h : Representable u) :
    extentOf u = numberOf u := by
  cases u with
  | infinity s => exact h.elim
  | _ => rfl

/-- the infinities are beyond all doubles -/
theorem extentOf_between {u : UnpackedFloat} (h : Packed u) :
    extentOf (.infinity .negative) ≤ extentOf u ∧ extentOf u ≤ extentOf (.infinity .positive) := by
  refine abs_le.mp ?_
  cases h with
  | finite h =>
    rw [extentOf_representable h]
    exact (abs_numberOf_lt h).le
  | infinite s => cases s with
    | positive => exact (abs_of_pos limit_pos).le
    | negative => exact ((abs_neg _).trans (abs_of_pos limit_pos)).le

/-- a number compared with an infinity -/
theorem compare_infinity {u : UnpackedFloat} (h : Representable u) (s : Sign) :
    u.compare (.infinity s) = some (cmp (extentOf u) (extentOf (.infinity s))) ∧
      (UnpackedFloat.infinity s).compare u =
        some (cmp (extentOf (.infinity s)) (extentOf u)) := by
  obtain ⟨low, high⟩ := abs_lt.mp (abs_numberOf_lt h)
  rw [← extentOf_representable h] at low high
  have order : s = .positive ∧ cmp (extentOf u) (extentOf (.infinity s)) = .lt ∨
      s = .negative ∧ cmp (extentOf u) (extentOf (.infinity s)) = .gt := by
    cases s with
    | positive => exact .inl ⟨rfl, (cmp_eq_lt_iff _ _).mpr high⟩
    | negative => exact .inr ⟨rfl, (cmp_eq_gt_iff _ _).mpr low⟩
  rcases order with ⟨rfl, order⟩ | ⟨rfl, order⟩ <;>
    · rw [← cmp_swap (extentOf u), order]
      cases u with
      | zero r => exact ⟨rfl, rfl⟩
      | finite r m e pos => cases r <;> exact ⟨rfl, rfl⟩
      | _ => exact h.elim

/-- comparison is that of the extents -/
theorem compare_extent {u v : UnpackedFloat} (hu : Packed u) (hv : Packed v) :
    u.compare v = some (cmp (extentOf u) (extentOf v)) := by
  cases hu with
  | finite hu => cases hv with
    | finite hv =>
      rw [compare_eq_cmp hu hv, extentOf_representable hu, extentOf_representable hv]
    | infinite s => exact (compare_infinity hu s).1
  | infinite s => cases hv with
    | finite hv => exact (compare_infinity hv s).2
    | infinite t =>
      have apart := neg_lt_self limit_pos
      cases s <;> cases t
      · exact congrArg some (cmp_self_eq_eq _).symm
      · exact congrArg some ((cmp_eq_lt_iff _ _).mpr apart).symm
      · exact congrArg some ((cmp_eq_gt_iff _ _).mpr apart).symm
      · exact congrArg some (cmp_self_eq_eq _).symm

section

variable {x y : Float}

theorem le_iff_extent (hx : x.isNaN = false) (hy : y.isNaN = false) :
    x ≤ y ↔ extent x ≤ extent y := by
  have unfolded : x ≤ y ↔ (x.toModel.unpack.compare y.toModel.unpack).any (·.isLE) = true := by
    show decide _ = true ↔ _
    rw [decide_eq_true_iff]
    rfl
  rw [unfolded, compare_extent (packed_unpack hx) (packed_unpack hy)]
  exact isLE_cmp

theorem lt_iff_extent (hx : x.isNaN = false) (hy : y.isNaN = false) :
    x < y ↔ extent x < extent y := by
  have unfolded : x < y ↔ (x.toModel.unpack.compare y.toModel.unpack == some .lt) = true := by
    show decide _ = true ↔ _
    rw [decide_eq_true_iff]
    rfl
  rw [unfolded, compare_extent (packed_unpack hx) (packed_unpack hy), beq_iff_eq,
    Option.some.injEq]
  exact cmp_eq_lt_iff _ _

theorem isNaN_of_le (h : x ≤ y) : x.isNaN = false ∧ y.isNaN = false := by
  change decide (x.toModel ≤ y.toModel) = true at h
  have compared : (x.toModel.unpack.compare y.toModel.unpack).any (·.isLE) = true :=
    of_decide_eq_true h
  show x.toModel.unpack.isNaN = false ∧ y.toModel.unpack.isNaN = false
  generalize x.toModel.unpack = u at *
  generalize y.toModel.unpack = v at *
  cases u with
  | notANumber => cases compared
  | _ => cases v with
    | notANumber => cases compared
    | _ => exact ⟨rfl, rfl⟩

theorem isNaN_of_isFinite (h : x.isFinite = true) : x.isNaN = false := by
  change x.toModel.unpack.isFinite = true at h
  show x.toModel.unpack.isNaN = false
  cases hx : x.toModel.unpack with
  | notANumber => exact absurd (hx ▸ h) (by decide)
  | _ => rfl

theorem extent_of_isFinite (h : x.isFinite = true) : extent x = exactValue x := by
  rw [exactValue_eq]
  exact extentOf_representable (representable_unpack h)

theorem extent_mono (h : x ≤ y) : extent x ≤ extent y :=
  (le_iff_extent (isNaN_of_le h).1 (isNaN_of_le h).2).mp h

end

/-! ## Packing -/

/-- a number cut at the infinities -/
def cut (q : Rat) : Rat := max (-limit) (min (limit) q)

theorem cut_mono {p q : Rat} (h : p ≤ q) : cut p ≤ cut q :=
  max_le_max le_rfl (min_le_min le_rfl h)

theorem cut_of_abs_le {q : Rat} (h : |q| ≤ limit) : cut q = q := by
  obtain ⟨low, high⟩ := abs_le.mp h
  unfold cut
  rw [min_eq_right high, max_eq_right low]

theorem unpack_pack_large {s : Sign} {m : Nat} {e : Int} {pos : 0 < m} (large : 972 ≤ e) :
    (Float.Model.pack (.finite s m e pos)).unpack = .infinity s := by
  have bias : binary64.exponentBias = 1023 := rfl
  have packed : UnpackedFloat.pack binary64 (.finite s m e pos) =
      UnpackedFloat.packedInfinity binary64 s := by
    unfold UnpackedFloat.pack
    dsimp only
    rw [if_pos (by rw [bias]; show 2 ^ 11 ≤ (e + (1023 : Nat) + (52 : Nat)).toNat + 1; omega)]
  show UnpackedFloat.unpack binary64 (UnpackedFloat.pack binary64 _) = _
  rw [packed]
  cases s <;> rfl

theorem unpack_pack_infinity (s : Sign) :
    (Float.Model.pack (.infinity s)).unpack = .infinity s := by
  cases s <;> rfl

/-- what is packed is cut -/
theorem unpack_pack_extent {u : UnpackedFloat} (h : Unbounded u) :
    Packed (Float.Model.pack u).unpack ∧
      extentOf (Float.Model.pack u).unpack = cut (numberOf u) := by
  by_cases small : |numberOf u| < limit
  · have representable := h.representable small
    rw [unpack_pack representable, cut_of_abs_le small.le]
    exact ⟨.finite representable, extentOf_representable representable⟩
  · cases u with
    | zero s => exact absurd ((abs_zero (α := Rat)).trans_lt limit_pos) small
    | finite s m e pos =>
      rw [abs_numberOf_finite, not_lt] at small
      have large : 972 ≤ e := by
        by_contra high
        have canonical : Canonical m e := ⟨h.small, h.low, by omega, h.normal⟩
        have below := abs_numberOf_lt (u := .finite s m e pos) canonical
        rw [abs_numberOf_finite] at below
        exact absurd below (not_lt.mpr small)
      rw [unpack_pack_large large]
      refine ⟨.infinite s, ?_⟩
      unfold cut
      cases s with
      | positive =>
        show limit = max (-limit) (min limit (m * 2 ^ e))
        rw [min_eq_left small, max_eq_right (neg_lt_self limit_pos).le]
      | negative =>
        show -limit = max (-limit) (min limit (-(m * 2 ^ e)))
        have low : -((m : Rat) * 2 ^ e) ≤ -limit := neg_le_neg small
        rw [min_eq_right (low.trans (neg_lt_self limit_pos).le), max_eq_left low]
    | _ => exact h.elim

theorem Packed.isNaN {x : Float} (h : Packed x.toModel.unpack) : x.isNaN = false := by
  show x.toModel.unpack.isNaN = false
  generalize x.toModel.unpack = u at *
  cases h with
  | infinite s => rfl
  | finite h => cases u with
    | notANumber => exact h.elim
    | _ => rfl

/-! ## Sums and products -/

section

variable {x y a b : Float}

theorem mul_extent (hx : x.isFinite = true) (hy : y.isFinite = true) :
    (x * y).isNaN = false ∧ extent (x * y) = cut (rounded (exactValue x * exactValue y)) := by
  obtain ⟨unbounded, value⟩ := mul_unpacked (representable_unpack hx) (representable_unpack hy)
  obtain ⟨packed, size⟩ := unpack_pack_extent unbounded
  rw [exactValue_eq x, exactValue_eq y, ← value]
  exact ⟨packed.isNaN (x := x * y), size⟩

theorem add_extent (hx : x.isFinite = true) (hy : y.isFinite = true) :
    (x + y).isNaN = false ∧ extent (x + y) = cut (rounded (exactValue x + exactValue y)) := by
  obtain ⟨unbounded, value⟩ := add_unpacked (representable_unpack hx) (representable_unpack hy)
  obtain ⟨packed, size⟩ := unpack_pack_extent unbounded
  rw [exactValue_eq x, exactValue_eq y, ← value]
  exact ⟨packed.isNaN (x := x + y), size⟩

theorem mul_le_mul_double (hx : x.isFinite = true) (hy : y.isFinite = true)
    (hb : b.isFinite = true) (h : x ≤ y) (nonneg : 0 ≤ exactValue b) : x * b ≤ y * b := by
  obtain ⟨number, left⟩ := mul_extent hx hb
  obtain ⟨number', right⟩ := mul_extent hy hb
  rw [le_iff_extent number number', left, right]
  exact cut_mono (rounded_mono (mul_le_mul_of_nonneg_right ((le_iff_exactValue hx hy).mp h) nonneg))

theorem mul_le_mul_double_of_nonpos (hx : x.isFinite = true) (hy : y.isFinite = true)
    (hb : b.isFinite = true) (h : x ≤ y) (nonpos : exactValue b ≤ 0) : y * b ≤ x * b := by
  obtain ⟨number, left⟩ := mul_extent hx hb
  obtain ⟨number', right⟩ := mul_extent hy hb
  rw [le_iff_extent number' number, left, right]
  exact cut_mono (rounded_mono (mul_le_mul_of_nonpos_right ((le_iff_exactValue hx hy).mp h) nonpos))

/-- an infinity stays what it is under addition of a finite double -/
theorem add_infinity {s : Sign} (hx : x.toModel.unpack = .infinity s) (ha : a.isFinite = true) :
    (x + a).toModel.unpack = .infinity s := by
  change a.toModel.unpack.isFinite = true at ha
  show (Float.Model.pack (UnpackedFloat.add binary64 x.toModel.unpack a.toModel.unpack)).unpack = _
  have sum : UnpackedFloat.add binary64 (.infinity s) a.toModel.unpack = .infinity s := by
    generalize a.toModel.unpack = u at *
    cases u with
    | notANumber => cases ha
    | infinity t => cases ha
    | _ => rfl
  rw [hx, sum]
  exact unpack_pack_infinity s

theorem packed_add (hx : x.isNaN = false) (ha : a.isFinite = true) :
    Packed (x + a).toModel.unpack := by
  rcases finite_or_infinite hx with finite | ⟨s, hs⟩
  · exact packed_unpack (add_extent finite ha).1
  · rw [add_infinity hs ha]
    exact .infinite s

theorem extent_add_infinity {s : Sign} (hx : x.toModel.unpack = .infinity s)
    (ha : a.isFinite = true) : extent (x + a) = extent x := by
  unfold extent
  rw [add_infinity hx ha, hx]

/-- only an infinity is as far out as infinities are -/
theorem infinity_of_extent {s : Sign} (hx : x.isNaN = false) (h : extent x = signed s limit) :
    x.toModel.unpack = .infinity s := by
  have far : |extent x| = limit := by
    rw [h]
    cases s with
    | positive => exact abs_of_pos limit_pos
    | negative => exact (abs_neg _).trans (abs_of_pos limit_pos)
  rcases finite_or_infinite hx with finite | ⟨t, ht⟩
  · rw [extent_of_isFinite finite, exactValue_eq] at far
    exact absurd far (abs_numberOf_lt (representable_unpack finite)).ne
  · unfold extent at h
    rw [ht] at h ⊢
    change signed t limit = signed s limit at h
    have apart := neg_lt_self limit_pos
    cases s <;> cases t
    · rfl
    · exact absurd h apart.ne'
    · exact absurd h apart.ne
    · rfl

theorem add_le_add_double (h : x ≤ y) (ha : a.isFinite = true) : x + a ≤ y + a := by
  obtain ⟨numberX, numberY⟩ := isNaN_of_le h
  have packedX := packed_add numberX ha
  have packedY := packed_add numberY ha
  have order := extent_mono h
  rw [le_iff_extent packedX.isNaN packedY.isNaN]
  rcases finite_or_infinite numberX with finiteX | ⟨s, hs⟩
  · rcases finite_or_infinite numberY with finiteY | ⟨t, ht⟩
    · rw [(add_extent finiteX ha).2, (add_extent finiteY ha).2]
      exact cut_mono (rounded_mono (by gcongr; exact (le_iff_exactValue finiteX finiteY).mp h))
    · rw [extent_add_infinity ht ha]
      have size : extent y = signed t limit := congrArg extentOf ht
      rw [size] at order ⊢
      cases t with
      | positive => exact (extentOf_between packedX).2
      | negative =>
        have least := order.antisymm (extentOf_between (packed_unpack numberX)).1
        rw [extent_add_infinity (infinity_of_extent numberX least) ha]
        exact order
  · rw [extent_add_infinity hs ha]
    have size : extent x = signed s limit := congrArg extentOf hs
    rw [size] at order ⊢
    cases s with
    | negative => exact (extentOf_between packedY).1
    | positive =>
      have greatest : extent y = limit :=
        (extentOf_between (packed_unpack numberY)).2.antisymm order
      rw [extent_add_infinity (infinity_of_extent (s := .positive) numberY greatest) ha]
      exact order

/-! ## Neutral operands -/

theorem cut_rounded (hx : x.isFinite = true) : cut (rounded (exactValue x)) = extent x := by
  have representable := representable_unpack hx
  rw [exactValue_eq, rounded_numberOf representable,
    cut_of_abs_le (abs_numberOf_lt representable).le]
  exact (extentOf_representable representable).symm

/-- masses are put onto zero -/
theorem zero_add_extent (hx : x.isNaN = false) :
    (0.0 + x).isNaN = false ∧ extent (0.0 + x) = extent x := by
  have zero : (0.0 : Float).toModel.unpack = .zero .positive := rfl
  have sum : (0.0 + x).toModel.unpack =
      (Float.Model.pack
        (UnpackedFloat.add binary64 (.zero .positive) x.toModel.unpack)).unpack := by
    rw [← zero]
    rfl
  rcases finite_or_infinite hx with finite | ⟨s, hs⟩
  · obtain ⟨number, size⟩ := add_extent isFinite_zero finite
    rw [exactValue_zero, zero_add, cut_rounded finite] at size
    exact ⟨number, size⟩
  · rw [hs] at sum
    have same : (0.0 + x).toModel.unpack = .infinity s := sum.trans (unpack_pack_infinity s)
    exact ⟨Packed.isNaN (same ▸ .infinite s), congrArg extentOf (same.trans hs.symm)⟩

/-- a mass in a certain case -/
theorem one_mul_extent (hx : x.isNaN = false) :
    (1.0 * x).isNaN = false ∧ extent (1.0 * x) = extent x := by
  have one : (1.0 : Float).toModel.unpack = .finite .positive (2 ^ 52) (-52) (by decide) := rfl
  have product : (1.0 * x).toModel.unpack =
      (Float.Model.pack (UnpackedFloat.mul binary64 (.finite .positive (2 ^ 52) (-52) (by decide))
        x.toModel.unpack)).unpack := by
    rw [← one]
    rfl
  rcases finite_or_infinite hx with finite | ⟨s, hs⟩
  · obtain ⟨number, size⟩ := mul_extent isFinite_one finite
    rw [exactValue_one, one_mul, cut_rounded finite] at size
    exact ⟨number, size⟩
  · rw [hs] at product
    have same : (1.0 * x).toModel.unpack = .infinity s := by
      refine product.trans ?_
      cases s <;> rfl
    exact ⟨Packed.isNaN (same ▸ .infinite s), congrArg extentOf (same.trans hs.symm)⟩

end

/-! ## Signs -/

def signOfUnpacked : UnpackedFloat → Option Sign
  | .infinity s => some s
  | .zero s => some s
  | .finite s _ _ _ => some s
  | .notANumber => none

/-- the sign of a double, if it is a number -/
def signOf (x : Float) : Option Sign := signOfUnpacked x.toModel.unpack

theorem signOf_packComponents (s : Sign) (e : BitVec 11) (m : BitVec 52) (top : e ≠ -1#11) :
    signOfUnpacked (UnpackedFloat.unpack binary64 (packComponents binary64 s e m)) = some s := by
  rw [unpack_packComponents s e m top]
  split
  · split <;> rfl
  · rfl

theorem signOf_pack (u : UnpackedFloat) :
    signOfUnpacked (Float.Model.pack u).unpack = signOfUnpacked u := by
  cases u with
  | notANumber => rfl
  | infinity s => cases s <;> rfl
  | zero s => cases s <;> rfl
  | finite s m e pos =>
    show signOfUnpacked (UnpackedFloat.unpack binary64 (UnpackedFloat.pack binary64 _)) = some s
    unfold UnpackedFloat.pack
    dsimp only
    split
    · cases s <;> rfl
    · next within =>
      have exponent : 2 ^ binary64.exponentBits = 2 ^ 11 := rfl
      rw [exponent] at within
      split
      · refine signOf_packComponents s _ _ fun h => ?_
        have field := congrArg BitVec.toNat h
        rw [BitVec.toNat_ofNat] at field
        have all : (-1#11 : BitVec 11).toNat = 2047 := rfl
        have bits : 2 ^ binary64.exponentBits = 2048 := rfl
        rw [bits] at field
        omega
      · exact signOf_packComponents s _ _ (by decide)

theorem signOf_roundWithAccuracy (s : Sign) (m : Nat) (e : Int) (a : Accuracy) :
    signOfUnpacked (roundWithAccuracy binary64 s m e a) = some s := by
  unfold roundWithAccuracy
  dsimp only
  split <;> rfl

section

variable {x y : Float} {s t : Sign}

theorem isNaN_pack {u : UnpackedFloat} (h : (Float.ofModel (.pack u)).isNaN = false) :
    u ≠ .notANumber := by
  rintro rfl
  exact absurd h (by decide)

theorem signOf_mul (hx : signOf x = some s) (hy : signOf y = some t)
    (number : (x * y).isNaN = false) : signOf (x * y) = some (s * t) := by
  have some_product := isNaN_pack number
  refine (signOf_pack _).trans ?_
  unfold signOf at hx hy
  generalize x.toModel.unpack = u at *
  generalize y.toModel.unpack = v at *
  cases u <;> cases hx <;> cases v <;> cases hy
  all_goals first
    | rfl
    | exact absurd rfl some_product
    | exact signOf_roundWithAccuracy _ _ _ _

theorem signOf_div (hx : signOf x = some s) (hy : signOf y = some t)
    (number : (x / y).isNaN = false) : signOf (x / y) = some (s / t) := by
  have some_quotient := isNaN_pack number
  refine (signOf_pack _).trans ?_
  unfold signOf at hx hy
  generalize x.toModel.unpack = u at *
  generalize y.toModel.unpack = v at *
  cases u <;> cases hx <;> cases v <;> cases hy
  all_goals first
    | rfl
    | exact absurd rfl some_quotient
    | exact signOf_roundWithAccuracy _ _ _ _

end

end Chance
