import Chance.Proofs.OperandOrder
import Chance.Proofs.Thresholds
import Chance.Proofs.ZeroSums

/-!
# Comparisons

Smaller, equal and greater are three operations, each with rules of its own for samples of integers,
of doubles and of continuous laws.  They agree with each other.  Turned round, a comparison is the
other one; and on every pair of outcomes at most one of the three holds.  None of them holds where
one double alone is a number, and between the two zeros, which are not equal as outcomes.

* `Refused`               a comparison that has no rule for its operands;
* `compared`              a comparison and the one turned round, by the kinds of the operands;
* `incomparable`          a pair of outcomes on which none of the three holds;
* `get_comparisons`       the masses of the three add up;
* `incomparable_double`   which pairs of doubles are incomparable;
* `below_above`           a continuous sample below and above thresholds;
* `comparisons_agree`     all comparisons.
-/

namespace Chance

open Float.Model (UnpackedFloat)
open Float.Model.UnpackedFloat

/-! ## Operands exchanged -/

/-- a fault that does not tell of a law where it is not defined -/
def Refused {M : Type} (r : Except (Fault M) (Value M)) : Prop :=
  (∃ f, r = .error f) ∧ ¬ BreaksDown r

theorem not_refused_ok {M : Type} {v : Value M} : ¬ Refused (.ok v) := fun ⟨⟨_, h⟩, _⟩ => nomatch h

theorem not_refused_ofComparison {M : Type} (law : Law) (c : Except Float (Pmf Bool M)) :
    ¬ Refused (Value.ofComparison law c) := by
  cases c with
  | ok s => exact not_refused_ok
  | error n => exact fun refused => refused.2 ⟨law, n, rfl⟩

namespace Value

variable {M : Type} [Mass M] (F : Cumulative)

/-- a comparison and the one turned round: there is no rule for either, or they are one comparison
with a continuous sample, or both give masses -/
theorem compared (x y : Value M) :
    (x.lessThan F y = .error (.typeMismatch .lessThan [x.kind, y.kind]) ∧
      y.greaterThan F x = .error (.typeMismatch .greaterThan [y.kind, x.kind])) ∨
    (∃ law c, x.lessThan F y = ofComparison law c ∧ y.greaterThan F x = ofComparison law c) ∨
    ∃ p q, x.lessThan F y = .ok p ∧ y.greaterThan F x = .ok q := by
  cases x with
  | bool s => cases y <;> exact .inl ⟨rfl, rfl⟩
  | int s => cases y with
    | int t => exact .inr (.inr ⟨_, _, rfl, rfl⟩)
    | _ => exact .inl ⟨rfl, rfl⟩
  | float s => cases y with
    | float t => exact .inr (.inr ⟨_, _, rfl, rfl⟩)
    | continuous z => exact .inr (.inl ⟨_, _, rfl, rfl⟩)
    | _ => exact .inl ⟨rfl, rfl⟩
  | continuous z => cases y with
    | float t => exact .inr (.inl ⟨_, _, rfl, rfl⟩)
    | _ => exact .inl ⟨rfl, rfl⟩
  | distribution d => cases y <;> exact .inl ⟨rfl, rfl⟩

theorem refused_exchanged (x y : Value M) :
    (Refused (x.lessThan F y) ↔ Refused (y.greaterThan F x)) ∧
    (Refused (x.lessThan F y) →
      x.lessThan F y = .error (.typeMismatch .lessThan [x.kind, y.kind]) ∧
        y.greaterThan F x = .error (.typeMismatch .greaterThan [y.kind, x.kind])) ∧
    (BreaksDown (x.lessThan F y) ↔ BreaksDown (y.greaterThan F x)) := by
  have mismatched {op : Operation} {l r : Value M} : Refused (mismatch op l r) :=
    ⟨⟨_, rfl⟩, not_breaksDown_mismatch⟩
  rcases compared F x y with ⟨less, greater⟩ | ⟨law, c, less, greater⟩ | ⟨p, q, less, greater⟩
  · rw [less, greater]
    exact ⟨iff_of_true mismatched mismatched, fun _ => ⟨rfl, rfl⟩,
      iff_of_false not_breaksDown_mismatch not_breaksDown_mismatch⟩
  · rw [less, greater]
    exact ⟨Iff.rfl, fun refused => absurd refused (not_refused_ofComparison law c), Iff.rfl⟩
  · rw [less, greater]
    exact ⟨iff_of_false not_refused_ok not_refused_ok, fun refused => absurd refused not_refused_ok,
      iff_of_false not_breaksDown_ok not_breaksDown_ok⟩

/-- in exact arithmetic the masses are the same -/
theorem sameMasses_exchanged {x y : Value Rat} {p q : Pmf Bool Rat}
    (less : x.lessThan F y = .ok (.bool p)) (greater : y.greaterThan F x = .ok (.bool q)) :
    p.SameMasses q := by
  unfold lessThan comparison at less
  split at less
  · cases less
    cases greater
    exact Pmf.combine_exchanged _ _ fun _ _ => rfl
  · cases less
    cases greater
    exact Pmf.combine_exchanged _ _ fun _ _ => rfl
  · cases less.symm.trans greater
    exact fun _ => rfl
  · cases less.symm.trans greater
    exact fun _ => rfl
  · cases less

end Value

/-! ## Incomparable pairs -/

section

variable {α : Type} [Number α]

/-- neither smaller nor equal nor greater -/
def incomparable (a b : α) : Bool := !Number.less a b && !Outcome.same a b && !Number.less b a

/-- the mass of the incomparable pairs -/
def incomparableMass (l r : Pmf α Rat) : Rat :=
  massOf ((l.pairs r).filter fun e => incomparable e.1.1 e.1.2)

theorem massOf_filter {β : Type} (kept : β → Bool) (es : List (β × Rat)) :
    massOf (es.filter fun e => kept e.1) = expect es fun b => if kept b then 1 else 0 := by
  induction es with
  | nil => rfl
  | cons e es ih =>
    rw [expect_cons, ← ih, List.filter_cons]
    cases kept e.1 with
    | true =>
      rw [if_pos rfl, if_pos rfl, massOf_cons, one_mul]
    | false =>
      rw [if_neg Bool.false_ne_true, if_neg Bool.false_ne_true, zero_mul, zero_add]

theorem expect_add {β : Type} (es : List (β × Rat)) (g h : β → Rat) :
    (expect es fun b => g b + h b) = expect es g + expect es h := by
  simpa only [mul_one] using expect_mul_add es 1 g h

namespace Pmf

theorem get_combine_true (l r : Pmf α Rat) (op : α → α → Bool) :
    (l.combine r op).get true = expect (l.pairs r) fun ab => if op ab.1 ab.2 then 1 else 0 := by
  rw [get_eq_expect, expect_combine, expect_pairs]
  refine expect_congr fun a _ => expect_congr fun b _ => ?_
  rw [Outcome.same_bool, beq_true]

/-- the three comparisons and the incomparable pairs share out the mass of all pairs -/
theorem get_comparisons (exclusive : ∀ a b : α, Number.less a b = true →
      Outcome.same a b = false ∧ Number.less b a = false) (l r : Pmf α Rat) :
    (l.lessThan r).get true + (l.equal r).get true + (l.greaterThan r).get true =
      l.total * r.total - incomparableMass l r := by
  have pairs : massOf (l.pairs r) = l.total * r.total := by
    unfold massOf
    rw [expect_pairs, expect_const, total_eq_massOf, total_eq_massOf]
    exact mul_comm _ _
  have shared (a b : α) : ((if Number.less a b then (1 : Rat) else 0) +
      (if Outcome.same a b then 1 else 0) + (if Number.less b a then 1 else 0)) +
        (if incomparable a b then 1 else 0) = 1 := by
    unfold incomparable
    cases less : Number.less a b with
    | true =>
      obtain ⟨other, rest⟩ := exclusive a b less
      simp [other, rest]
    | false => cases greater : Number.less b a with
      | true =>
        obtain ⟨other, -⟩ := exclusive b a greater
        simp [Outcome.same_comm a b, other]
      | false => cases Outcome.same a b <;> simp
  unfold lessThan equal greaterThan incomparableMass
  rw [eq_sub_iff_add_eq, get_combine_true, get_combine_true, get_combine_true,
    massOf_filter fun ab : α × α => incomparable ab.1 ab.2, ← expect_add, ← expect_add,
    ← expect_add, ← pairs]
  exact expect_congr fun ab _ => shared ab.1 ab.2

end Pmf
end

/-! ### Integers -/

theorem less_int64 (a b : Int64) : Number.less a b = decide (a.toInt < b.toInt) := rfl

theorem exclusive_int64 (a b : Int64) (h : Number.less a b = true) :
    Outcome.same a b = false ∧ Number.less b a = false := by
  rw [less_int64, decide_eq_true_iff] at h
  rw [Outcome.same_int64, less_int64, decide_eq_false_iff_not, beq_eq_false_iff_ne]
  refine ⟨?_, h.not_gt⟩
  rintro rfl
  exact lt_irrefl _ h

/-- integers are in order -/
theorem incomparable_int64 (a b : Int64) : incomparable a b = false := by
  unfold incomparable
  rcases lt_trichotomy a.toInt b.toInt with h | h | h
  · simp [less_int64, h]
  · simp [Int64.toInt_inj.mp h, Outcome.same]
  · simp [less_int64, h]

/-! ### Doubles -/

theorem isNaN_of_lt {x y : Float} (h : x < y) : x.isNaN = false ∧ y.isNaN = false :=
  isNaN_of_le (le_of_lt_double h)

/-- numbers of which neither is smaller are equal, or zeros -/
theorem eq_or_zeros_of_compare {u v : UnpackedFloat} (h : u.compare v = some .eq) :
    u = v ∨ ∃ s t, u = .zero s ∧ v = .zero t := by
  have fields {m n : Nat} {e f : Int} (h : (compare e f).then (compare m n) = .eq) :
      m = n ∧ e = f := by
    obtain ⟨exponents, mantissas⟩ := Ordering.then_eq_eq.mp h
    exact ⟨compare_eq_iff_eq.mp mantissas, compare_eq_iff_eq.mp exponents⟩
  cases u with
  | notANumber => cases h
  | zero s => cases v with
    | zero t => exact .inr ⟨s, t, rfl, rfl⟩
    | infinity t => cases t <;> cases h
    | finite t n f hn => cases t <;> cases h
    | notANumber => cases h
  | infinity s => cases v with
    | infinity t => cases s <;> cases t <;> first | exact .inl rfl | cases h
    | notANumber => cases s <;> cases h
    | _ => cases s <;> cases h
  | finite s m e hm => cases v with
    | zero t => cases s <;> cases h
    | infinity t => cases s <;> cases t <;> cases h
    | notANumber => cases s <;> cases h
    | finite t n f hn =>
      cases s with
      | positive => cases t with
        | negative => cases h
        | positive =>
          obtain ⟨mantissas, exponents⟩ := fields (Option.some.inj h)
          exact .inl (finite_congr mantissas exponents)
      | negative => cases t with
        | positive => cases h
        | negative =>
          obtain ⟨mantissas, exponents⟩ :=
            fields (Ordering.swap_eq_iff_eq_swap.mp (Option.some.inj h))
          exact .inl (finite_congr mantissas exponents)

theorem eq_or_zeros {x y : Float} (hx : x.isNaN = false) (hy : y.isNaN = false) (h : ¬ x < y)
    (h' : ¬ y < x) : x = y ∨ ∃ s t, x.toModel.unpack = .zero s ∧ y.toModel.unpack = .zero t := by
  rw [lt_iff_extent hx hy] at h
  rw [lt_iff_extent hy hx] at h'
  have order : extent x = extent y := le_antisymm (not_lt.mp h') (not_lt.mp h)
  have compared := compare_extent (packed_unpack hx) (packed_unpack hy)
  change _ = some (cmp (extent x) (extent y)) at compared
  rw [order, cmp_self_eq_eq] at compared
  refine (eq_or_zeros_of_compare compared).imp_left fun same => ?_
  rw [← ofModel_pack_unpack x, same, ofModel_pack_unpack]

namespace Double

theorem less_double (x y : Double) : Number.less x y = decide (x.toFloat < y.toFloat) := rfl

theorem exclusive_double (x y : Double) (h : Number.less x y = true) :
    Outcome.same x y = false ∧ Number.less y x = false := by
  rw [less_double, decide_eq_true_iff] at h
  obtain ⟨hx, hy⟩ := isNaN_of_lt h
  rw [lt_iff_extent hx hy] at h
  rw [same_double, less_double, decide_eq_false_iff_not, decide_eq_false_iff_not,
    lt_iff_extent hy hx]
  refine ⟨fun same => ?_, h.not_gt⟩
  rw [same] at h
  exact lt_irrefl _ h

theorem eq_ofFloat_of_zero {x : Double} {s : Sign} (h : x.toFloat.toModel.unpack = .zero s) :
    x = .ofFloat (.ofModel (.pack (.zero s))) := by
  have number : x.toFloat.isNaN = false := by
    show x.toFloat.toModel.unpack.isNaN = false
    rw [h]
    rfl
  rw [← h, ofModel_pack_unpack, word_of_number number]

/-- **incomparable doubles**: one alone is a number, or they are the two zeros -/
theorem incomparable_double (x y : Double) :
    incomparable x y = true ↔ x.toFloat.isNaN ≠ y.toFloat.isNaN ∨
      (x = .ofFloat 0.0 ∧ y = .ofFloat (-0.0)) ∨ (x = .ofFloat (-0.0) ∧ y = .ofFloat 0.0) := by
  have apart : incomparable x y = true ↔
      ¬ x.toFloat < y.toFloat ∧ x.toFloat ≠ y.toFloat ∧ ¬ y.toFloat < x.toFloat := by
    unfold incomparable
    rw [less_double, less_double, same_double]
    simp only [Bool.and_eq_true, Bool.not_eq_true', decide_eq_false_iff_not, and_assoc]
  rw [apart]
  constructor
  · rintro ⟨less, other, greater⟩
    cases hx : x.toFloat.isNaN with
    | true => cases hy : y.toFloat.isNaN with
      | true => exact absurd (eq_of_isNaN hx hy) other
      | false => exact .inl (by decide)
    | false => cases hy : y.toFloat.isNaN with
      | true => exact .inl (by decide)
      | false =>
        obtain ⟨s, t, zeroX, zeroY⟩ := (eq_or_zeros hx hy less greater).resolve_left other
        have signs : s ≠ t := by
          rintro rfl
          refine other ?_
          rw [← ofModel_pack_unpack x.toFloat, zeroX, ← zeroY, ofModel_pack_unpack]
        have wordX := eq_ofFloat_of_zero zeroX
        have wordY := eq_ofFloat_of_zero zeroY
        cases s <;> cases t
        · exact absurd rfl signs
        · exact .inr (.inr ⟨wordX, wordY⟩)
        · exact .inr (.inl ⟨wordX, wordY⟩)
        · exact absurd rfl signs
  · rintro (one | ⟨rfl, rfl⟩ | ⟨rfl, rfl⟩)
    · have unordered {a b : Float} (one : a.isNaN ≠ b.isNaN) : ¬ a < b := fun h => by
        obtain ⟨ha, hb⟩ := isNaN_of_lt h
        exact one (ha.trans hb.symm)
      exact ⟨unordered one, fun same => one (congrArg Float.isNaN same), unordered one.symm⟩
    · exact ⟨by decide, by decide, by decide⟩
    · exact ⟨by decide, by decide, by decide⟩

end Double

/-! ## Thresholds -/

/-- a law that has a finite cumulative probability at each of the thresholds -/
def Answers {M : Type} [Mass M] (F : Cumulative) (z : Affine) (s : Pmf Double M) : Prop :=
  ∀ t ∈ s.values, ∃ p, z.cumulative? F t.toFloat = some p ∧ p.isFinite = true

namespace Pmf

section

variable {M : Type} [Mass M] {F : Cumulative} {z : Affine} {s : Pmf Double M}

/-- then both comparisons have masses, those of one list of shares -/
theorem below_above (h : Answers F z s) : ∃ shares,
    s.entries.mapM (belowEntry F z) = .ok shares ∧ below F z s = .ok (ofList shares.flatten) ∧
      above F z s = .ok (ofList shares.flatten).not := by
  cases hm : s.entries.mapM (belowEntry F z) with
  | error n =>
    have failed : below F z s = .error n := by
      unfold below
      rw [hm]
      rfl
    obtain ⟨t, ht, none⟩ := below_eq_error.mp ⟨n, failed⟩
    obtain ⟨p, hp, -⟩ := h t ht
    cases hp.symm.trans none
  | ok shares =>
    have given : below F z s = .ok (ofList shares.flatten) := by
      unfold below
      rw [hm]
      rfl
    refine ⟨shares, rfl, given, ?_⟩
    unfold above
    rw [given]
    rfl

end

variable {F : Cumulative} {z : Affine}

/-- doubles that are added up from zero are exchanged as they are -/
theorem get_not_ofList (l : List (Bool × Float)) (b : Bool) :
    (ofList l).not.get b = (ofList l).get !b :=
  (get_not _ b).trans (noMinusZero_get_ofList l _).zero_add

theorem get_not_exactly (s : Pmf Bool Rat) (b : Bool) : s.not.get b = s.get !b :=
  (get_not s b).trans (zero_add _)

theorem get_true_add_get_false (l : List (Bool × Rat)) :
    (ofList l).get true + (ofList l).get false = massOf l := by
  unfold massOf
  rw [← expect_ofList (Outcome.Exact.respects _), expect_bool, one_mul, one_mul]

theorem below_above_doubles {s : Pmf Double Float} (h : Answers F z s) :
    ∃ p q, below F z s = .ok p ∧ above F z s = .ok q ∧ ∀ b, q.get b = p.get !b := by
  obtain ⟨shares, -, low, high⟩ := below_above h
  exact ⟨_, _, low, high, get_not_ofList _⟩

/-- in exact arithmetic no mass of a threshold is lost -/
theorem below_above_exactly {s : Pmf Double Rat} (h : Answers F z s) :
    ∃ p q, below F z s = .ok p ∧ above F z s = .ok q ∧ (∀ b, q.get b = p.get !b) ∧
      p.get true + q.get true = s.total := by
  obtain ⟨shares, results, low, high⟩ := below_above h
  refine ⟨_, _, low, high, get_not_exactly _, ?_⟩
  rw [get_not_exactly, total_eq_massOf]
  exact (get_true_add_get_false _).trans (Normalised.massOf_shares results)

end Pmf

/-- **Comparisons.**  One that has no rule for its operands has none when turned round.  Turned
round it is the same comparison for a continuous sample and thresholds, and has the same masses in
exact arithmetic.  Smaller, equal and greater share out the mass of all pairs but those that are
incomparable: no integers are, and doubles if one alone is a number or they are the two zeros.
Where the law has a cumulative probability at each threshold, the masses above are those below
exchanged, and no mass is lost. -/
theorem comparisons_agree (F : Cumulative) :
    (∀ {M : Type} [Mass M] (x y : Value M),
      (Refused (x.lessThan F y) ↔ Refused (y.greaterThan F x)) ∧
      (Refused (x.lessThan F y) →
        x.lessThan F y = .error (.typeMismatch .lessThan [x.kind, y.kind]) ∧
          y.greaterThan F x = .error (.typeMismatch .greaterThan [y.kind, x.kind])) ∧
      (BreaksDown (x.lessThan F y) ↔ BreaksDown (y.greaterThan F x))) ∧
    (∀ {M : Type} [Mass M] (z : Affine) (s : Pmf Double M),
      (Value.continuous z).lessThan F (.float s) = (Value.float s).greaterThan F (.continuous z) ∧
        (Value.float s).lessThan F (.continuous z) =
          (Value.continuous z).greaterThan F (.float s)) ∧
    (∀ (x y : Value Rat) (p q : Pmf Bool Rat), x.lessThan F y = .ok (.bool p) →
      y.greaterThan F x = .ok (.bool q) → p.SameMasses q) ∧
    (∀ l r : Pmf Int64 Rat,
      (l.lessThan r).get true + (l.equal r).get true + (l.greaterThan r).get true =
        l.total * r.total - incomparableMass l r) ∧
    (∀ l r : Pmf Double Rat,
      (l.lessThan r).get true + (l.equal r).get true + (l.greaterThan r).get true =
        l.total * r.total - incomparableMass l r) ∧
    (∀ a b : Int64, incomparable a b = false) ∧
    (∀ x y : Double, incomparable x y = true ↔ x.toFloat.isNaN ≠ y.toFloat.isNaN ∨
      (x = .ofFloat 0.0 ∧ y = .ofFloat (-0.0)) ∨ (x = .ofFloat (-0.0) ∧ y = .ofFloat 0.0)) ∧
    (∀ (z : Affine) (s : Pmf Double Float), Answers F z s → ∃ p q,
      (Value.continuous z).lessThan F (.float s) = .ok (.bool p) ∧
      (Value.continuous z).greaterThan F (.float s) = .ok (.bool q) ∧
      p.get true = q.get false ∧ p.get false = q.get true) ∧
    (∀ (z : Affine) (s : Pmf Double Rat), Answers F z s → ∃ p q,
      (Value.continuous z).lessThan F (.float s) = .ok (.bool p) ∧
      (Value.continuous z).greaterThan F (.float s) = .ok (.bool q) ∧
      p.get true = q.get false ∧ p.get false = q.get true ∧
      p.get true + q.get true = s.total) := by
  refine ⟨Value.refused_exchanged F, fun z s => ⟨rfl, rfl⟩,
    fun x y p q => Value.sameMasses_exchanged F, Pmf.get_comparisons exclusive_int64,
    Pmf.get_comparisons Double.exclusive_double, incomparable_int64, Double.incomparable_double,
    fun z s answers => ?_, fun z s answers => ?_⟩
  · obtain ⟨p, q, low, high, exchanged⟩ := Pmf.below_above_doubles answers
    exact ⟨p, q, congrArg (Value.ofComparison z.law) low, congrArg (Value.ofComparison z.law) high,
      (exchanged false).symm, (exchanged true).symm⟩
  · obtain ⟨p, q, low, high, exchanged, whole⟩ := Pmf.below_above_exactly answers
    exact ⟨p, q, congrArg (Value.ofComparison z.law) low, congrArg (Value.ofComparison z.law) high,
      (exchanged false).symm, (exchanged true).symm, whole⟩

/-! ### A uniform sample and two thresholds -/

/-- a quarter and a half, with their masses -/
def quarterOrHalf {M : Type} [Mass M] (p q : M) : Pmf Double M :=
  (Pmf.empty.add (.ofFloat 0.25) p).add (.ofFloat 0.5) q

theorem answers_uniform {M : Type} [Mass M] (p q : M) :
    Answers Law.cumulative (.ofLaw (.beta 1.0 1.0)) (quarterOrHalf p q) := by
  intro t member
  have thresholds : (quarterOrHalf p q).values = [.ofFloat 0.25, .ofFloat 0.5] := rfl
  rw [thresholds, List.mem_pair] at member
  refine ⟨_, cumulative_uniform _, ?_⟩
  rcases member with rfl | rfl <;> decide +kernel

theorem comparisons_agree_uniform :
    Refused ((Value.bool (Pmf.certain true) : Value Float).lessThan Law.cumulative
      (.bool (Pmf.certain false))) ∧
    (Value.bool (Pmf.certain false) : Value Float).greaterThan Law.cumulative
      (.bool (Pmf.certain true)) = .error (.typeMismatch .greaterThan [.bool, .bool]) ∧
    ((Pmf.opposites 1).lessThan (Pmf.opposites 2)).SameMasses
      ((Pmf.opposites 2).greaterThan (Pmf.opposites 1)) ∧
    (∃ p q, (Value.continuous (.ofLaw (.beta 1.0 1.0))).lessThan Law.cumulative
        (.float (quarterOrHalf 0.5 0.5)) = .ok (.bool p) ∧
      (Value.continuous (.ofLaw (.beta 1.0 1.0))).greaterThan Law.cumulative
        (.float (quarterOrHalf 0.5 0.5)) = .ok (.bool q) ∧
      p.get true = q.get false ∧ p.get false = q.get true) ∧
    ∃ p q, (Value.continuous (.ofLaw (.beta 1.0 1.0))).lessThan Law.cumulative
        (.float (quarterOrHalf (1 / 3 : Rat) (2 / 3))) = .ok (.bool p) ∧
      (Value.continuous (.ofLaw (.beta 1.0 1.0))).greaterThan Law.cumulative
        (.float (quarterOrHalf (1 / 3 : Rat) (2 / 3))) = .ok (.bool q) ∧
      p.get true + q.get true = 1 := by
  obtain ⟨refused, -, exchanged, -, -, -, -, doubles, exactly⟩ :=
    comparisons_agree Law.cumulative
  have mismatched : Refused ((Value.bool (Pmf.certain true) : Value Float).lessThan Law.cumulative
      (.bool (Pmf.certain false))) := ⟨⟨_, rfl⟩, not_breaksDown_mismatch⟩
  obtain ⟨-, mismatch, -⟩ := refused (Value.bool (Pmf.certain true) : Value Float)
    (.bool (Pmf.certain false))
  obtain ⟨p, q, low, high, -, -, whole⟩ :=
    exactly _ _ (answers_uniform (1 / 3 : Rat) (2 / 3))
  have total : (quarterOrHalf (1 / 3 : Rat) (2 / 3)).total = 1 := by decide +kernel
  exact ⟨mismatched, (mismatch mismatched).2,
    exchanged (.int (Pmf.opposites 1)) (.int (Pmf.opposites 2)) _ _ rfl rfl,
    doubles _ _ (answers_uniform 0.5 0.5), p, q, low, high, whole.trans total⟩

end Chance
