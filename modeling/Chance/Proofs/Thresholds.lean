import Chance.Law.Cumulative
import Chance.Proofs.Evaluation
import Chance.Proofs.Extents
import Chance.Proofs.FloatOutcomes
import Chance.Proofs.Kinds

/-!
# The mass below a threshold

A sample of a continuous law goes through shifts and scalings by doubles and is compared with a
threshold.  The mass on which it lies below is the law's at `n * b + a`, so it does not fall as the
threshold rises if the scale is positive.  It does not rise if the scale is negative, and that is
told by the number of negative factors and divisors.

* `Step`, `Program.transformed`   programs that shift and scale a sample of a law;
* `Rising`                a law whose cumulative probability does not fall;
* `signOf_scale`          the sign of the scale;
* `thresholds`            the masses below two thresholds;
* `falling_below_thresholds`   a sample that is multiplied by minus one.
-/

namespace Chance

open Float.Model.UnpackedFloat (Sign)

/-! ## Programs -/

/-- arithmetic of a sample with a number -/
structure Step where
  op : Arith
  number : Float
  /-- whether the number is the left operand -/
  numberFirst : Bool

/-- a factor or a divisor below zero -/
def Step.reverses (step : Step) : Bool :=
  match step.op with
  | .add | .subtract => false
  | .multiply | .divide => decide (step.number < 0.0)

/-- the sample of a law after steps, the last one first -/
def Affine.transformed (law : Law) : List Step → Affine
  | [] => .ofLaw law
  | step :: steps => (Affine.transformed law steps).arith step.op step.number

theorem Affine.law_arith (op : Arith) (x : Float) (s : Affine) : (s.arith op x).law = s.law := by
  cases op <;> rfl

theorem Affine.law_transformed (law : Law) (steps : List Step) :
    (Affine.transformed law steps).law = law := by
  induction steps with
  | nil => rfl
  | cons step steps ih => exact (law_arith _ _ _).trans ih

/-- arithmetic of the only double with mass and a continuous sample, whichever is first -/
theorem Value.arith_single {M : Type} [Mass M] (op : Arith) {t : Pmf Double M} {x : Double}
    (h : t.single = some x) (s : Affine) :
    (Value.float t).arith op (.continuous s) = .ok (.continuous (s.arith op x.toFloat)) ∧
      (Value.continuous s).arith op (.float t) = .ok (.continuous (s.arith op x.toFloat)) := by
  unfold Value.arith Value.numberWithSample?
  simp only [h, Option.map_some, and_self]

/-- arithmetic of a certain number and a continuous sample, whichever is first -/
theorem Value.arith_sample (op : Arith) (x : Float) (s : Affine) :
    (Value.float (Pmf.certain (.ofFloat x) : Pmf Double Float)).arith op (.continuous s) =
        .ok (.continuous (s.arith op x)) ∧
      (Value.continuous s).arith op (.float (Pmf.certain (.ofFloat x) : Pmf Double Float)) =
        .ok (.continuous (s.arith op x)) := by
  have only := Value.arith_single op (Pmf.single_certain (M := Float) (Double.ofFloat x)) s
  rwa [Double.toFloat_ofFloat] at only

namespace Program

def literal (x : Float) : Program := .const (.number (.float x))

def sampled : Law → Program
  | .normal mean sd => .call .sample [.call .normal [literal mean, literal sd]]
  | .beta a b => .call .sample [.call .beta [literal a, literal b]]

/-- the program that gives this sample -/
def transformed (law : Law) : List Step → Program
  | [] => sampled law
  | step :: steps =>
    .call (Value.operationOf step.op)
      (if step.numberFirst = true then [literal step.number, transformed law steps]
        else [transformed law steps, literal step.number])

def belowThreshold (law : Law) (steps : List Step) (t : Float) : Program :=
  .call .lessThan [transformed law steps, literal t]

variable {σ : Type} [Source σ] (F : Cumulative) (law : Law) (steps : List Step) (s : σ)

theorem eval_literal (x : Float) :
    ((literal x).eval F s : Evaluated Float σ (Value Float)) =
      (.ok (.float (Pmf.certain (.ofFloat x))), s) := eval_const F _ s

theorem eval_call_pair {op : Operation} {a b : Program} {v w : Value Float}
    (ha : a.eval F s = (.ok v, s)) (hb : b.eval F s = (.ok w, s)) :
    (call op [a, b]).eval F s = op.apply F [v, w] s :=
  eval_call_ok (evalAll_cons_ok ha (evalAll_cons_ok hb (evalAll_nil F s)))

theorem eval_sampled :
    ((sampled law).eval F s : Evaluated Float σ (Value Float)) =
      (.ok (.continuous (.ofLaw law)), s) := by
  have parameter (family : Family) (name : String) (x : Float) :
      Value.parameter (M := Float) family name (.float (Pmf.certain (.ofFloat x))) = .ok x := by
    unfold Value.parameter
    simp only [Pmf.single_certain, Double.toFloat_ofFloat]
  have drawn {p : Program} (h : p.eval F s =
      ((.ok (.distribution (.continuous law)), s) : Evaluated Float σ (Value Float))) :
      ((call .sample [p]).eval F s : Evaluated Float σ (Value Float)) =
        (.ok (.continuous (.ofLaw law)), s) :=
    eval_call_ok (evalAll_cons_ok h (evalAll_nil F s))
  cases law with
  | normal mean sd =>
    refine drawn ((eval_call_pair F s (eval_literal F s mean) (eval_literal F s sd)).trans ?_)
    show (Value.ofParameters _ _ _ _ _ _, s) = _
    unfold Value.ofParameters
    rw [parameter, parameter]
  | beta a b =>
    refine drawn ((eval_call_pair F s (eval_literal F s a) (eval_literal F s b)).trans ?_)
    show (Value.ofParameters _ _ _ _ _ _, s) = _
    unfold Value.ofParameters
    rw [parameter, parameter]

theorem eval_transformed :
    ((transformed law steps).eval F s : Evaluated Float σ (Value Float)) =
      (.ok (.continuous (.transformed law steps)), s) := by
  induction steps with
  | nil => exact eval_sampled F law s
  | cons step steps ih =>
    have number := eval_literal F s step.number
    obtain ⟨first, second⟩ := Value.arith_sample step.op step.number (.transformed law steps)
    show (call _ (if _ then _ else _)).eval F s =
      (.ok (.continuous ((Affine.transformed law steps).arith step.op step.number)), s)
    split
    · rw [eval_call_pair F s number ih, Operation.apply_arith, first]
    · rw [eval_call_pair F s ih number, Operation.apply_arith, second]

variable {F law steps} in
theorem eval_belowThreshold {t : Float} {p : Pmf Bool Float}
    (h : Pmf.below F (.transformed law steps) (Pmf.certain (.ofFloat t)) = .ok p) (s : σ) :
    (belowThreshold law steps t).eval F s = (.ok (.bool p), s) := by
  unfold belowThreshold
  rw [eval_call_pair F s (eval_transformed F law steps s) (eval_literal F s t)]
  show (Value.ofComparison (Affine.transformed law steps).law _, s) = _
  rw [h]
  rfl

end Program

/-! ## Masses -/

/-- a law whose cumulative probability does not fall -/
def Rising (F : Cumulative) (law : Law) : Prop :=
  ∀ x y : Float, x ≤ y → ∃ p q, F law x = some p ∧ F law y = some q ∧ p ≤ q

section

variable {F : Cumulative} {law : Law} {steps : List Step} {x : Affine} {t u p q : Float}

/-- the mass below a certain number is the cumulative probability there, up to the sign of zero -/
theorem below_certain (h : x.cumulative? F t = some p) :
    ∃ s, Pmf.below F x (Pmf.certain (.ofFloat t) : Pmf Double Float) = .ok s ∧
      s.get true = 0.0 + 1.0 * (0.0 + p) := by
  have share := Pmf.belowEntry_of_some (F := F) (x := x) (e := (Double.ofFloat t, (1.0 : Float)))
    (p := p) (by rw [Double.toFloat_ofFloat, h])
  refine ⟨.ofList [(true, 1.0 * (0.0 + p)), (false, 1.0 * (0.0 + (1.0 - p)))], ?_, ?_⟩
  · unfold Pmf.below
    rw [Pmf.entries_certain_one]
    show Except.map _ ([(Double.ofFloat t, (1.0 : Float))].mapM _) = _
    rw [List.mapM_cons, share]
    rfl
  · rw [Pmf.ofList_eq_foldl]
    rfl

/-- hence masses are in the order of the probabilities -/
theorem masses_below (h : p ≤ q) (ht : x.cumulative? F t = some p)
    (hu : x.cumulative? F u = some q) :
    ∃ s r, Pmf.below F x (Pmf.certain (.ofFloat t) : Pmf Double Float) = .ok s ∧
      Pmf.below F x (Pmf.certain (.ofFloat u) : Pmf Double Float) = .ok r ∧
      s.get true ≤ r.get true := by
  obtain ⟨s, hs, low⟩ := below_certain ht
  obtain ⟨r, hr, high⟩ := below_certain hu
  have mass {x : Float} (hx : x.isNaN = false) : (0.0 + 1.0 * (0.0 + x)).isNaN = false ∧
      extent (0.0 + 1.0 * (0.0 + x)) = extent x := by
    obtain ⟨inner, same⟩ := zero_add_extent hx
    obtain ⟨middle, same'⟩ := one_mul_extent inner
    obtain ⟨outer, same''⟩ := zero_add_extent middle
    exact ⟨outer, same''.trans (same'.trans same)⟩
  obtain ⟨numberP, numberQ⟩ := isNaN_of_le h
  obtain ⟨number, size⟩ := mass numberP
  obtain ⟨number', size'⟩ := mass numberQ
  refine ⟨s, r, hs, hr, ?_⟩
  rw [low, high, le_iff_extent number number', size, size']
  exact extent_mono h

/-! ## Points -/

/-- the points at which the law is asked are in the order of the thresholds, or in the reverse
order -/
theorem point_mono (offset : x.offset.isFinite = true) (scale : x.scale.isFinite = true)
    (ht : t.isFinite = true) (hu : u.isFinite = true) (h : t ≤ u) :
    (0 ≤ exactValue x.scale → x.point t ≤ x.point u) ∧
      (exactValue x.scale ≤ 0 → x.point u ≤ x.point t) :=
  ⟨fun nonneg => add_le_add_double (mul_le_mul_double ht hu scale h nonneg) offset,
    fun nonpos => add_le_add_double (mul_le_mul_double_of_nonpos ht hu scale h nonpos) offset⟩

/-- the sign of as many negative factors -/
def turned (n : Nat) : Sign := if Even n then .positive else .negative

theorem turned_succ (n : Nat) : turned (n + 1) = turned n * .negative := by
  unfold turned
  by_cases even : Even n
  · rw [if_neg (Nat.even_add_one.not.mpr (not_not.mpr even)), if_pos even]
    rfl
  · rw [if_pos (Nat.even_add_one.mpr even), if_neg even]
    rfl

/-- the sign of a number other than zero -/
theorem signOf_number (hx : t.isFinite = true) (nonzero : exactValue t ≠ 0) :
    signOf t = some (if t < 0.0 then .negative else .positive) := by
  have below : t < 0.0 ↔ exactValue t < 0 := by
    rw [lt_iff_exactValue hx isFinite_zero, exactValue_zero]
  have representable := representable_unpack hx
  rw [exactValue_eq] at nonzero below
  simp only [below]
  unfold signOf
  generalize t.toModel.unpack = u at *
  cases u with
  | zero s => exact absurd rfl nonzero
  | finite s m e pos =>
    have number := Canonical.pos e pos
    cases s with
    | negative => exact congrArg some (if_pos (neg_lt_zero.mpr number)).symm
    | positive => exact congrArg some (if_neg number.not_gt).symm
  | _ => exact representable.elim

/-- one factor more -/
theorem signOf_factor {n : Nat} {negative : Bool} (hx : signOf t = some (turned n))
    (hy : signOf u = some (if negative = true then .negative else .positive))
    (number : (t * u).isNaN = false) :
    signOf (t * u) = some (turned (n + if negative = true then 1 else 0)) := by
  rw [signOf_mul hx hy number]
  cases negative with
  | true => exact congrArg some (turned_succ n).symm
  | false =>
    show some (turned n * .positive) = some (turned n)
    cases turned n <;> rfl

/-- what is no number stays so -/
theorem operands_of_number (op : Arith) (h : (op.onFloat t u).isNaN = false) :
    t.isNaN = false ∧ u.isNaN = false := by
  have absorbed (either : t.isNaN = true ∨ u.isNaN = true) : False := by
    have none := Double.isNaN_onFloat op either
    rw [h] at none
    cases none
  exact ⟨Bool.eq_false_iff.mpr fun ht => absorbed (.inl ht),
    Bool.eq_false_iff.mpr fun hu => absorbed (.inr hu)⟩

theorem signOf_scale
    (numbers : ∀ step ∈ steps, step.number.isFinite = true ∧ exactValue step.number ≠ 0)
    (scale : (Affine.transformed law steps).scale.isNaN = false) :
    signOf (Affine.transformed law steps).scale = some (turned (steps.countP Step.reverses)) := by
  induction steps with
  | nil =>
    have one : signOf 1.0 = some .positive := rfl
    have none : turned 0 = .positive := if_pos ⟨0, rfl⟩
    exact one.trans (congrArg some none).symm
  | cons step steps ih =>
    obtain ⟨⟨finite, nonzero⟩, others⟩ := List.forall_mem_cons.mp numbers
    have number := signOf_number finite nonzero
    rw [List.countP_cons]
    obtain ⟨op, x, numberFirst⟩ := step
    cases op with
    | add => exact ih others scale
    | subtract => exact ih others scale
    | multiply =>
      have earlier := ih others (operands_of_number .multiply scale).1
      refine signOf_factor earlier ?_ scale
      simpa [Step.reverses] using number
    | divide =>
      obtain ⟨before, reciprocal⟩ := operands_of_number .multiply scale
      have inverse := signOf_div (x := 1.0) rfl number reciprocal
      refine signOf_factor (ih others before) (inverse.trans ?_) scale
      simp only [Step.reverses, decide_eq_true_eq]
      split <;> rfl

theorem exactValue_of_signOf {s : Sign} (h : signOf t = some s) :
    exactValue t = signed s |exactValue t| := by
  rw [exactValue_eq]
  unfold signOf at h
  generalize t.toModel.unpack = u at *
  cases u with
  | notANumber => cases h
  | finite r m e pos =>
    cases h
    rw [abs_numberOf_finite, numberOf_finite]
  | _ =>
    cases h
    exact (signed_zero _).symm ▸ (abs_zero (α := Rat)).symm ▸ rfl

/-- **Thresholds.**  A law whose cumulative probability does not fall, shifted and scaled by numbers
other than zero and compared with two thresholds: the mass on which it lies below does not fall if
there is an even number of negative factors and divisors, and does not rise if it is odd. -/
theorem thresholds (rising : Rising F law)
    (numbers : ∀ step ∈ steps, step.number.isFinite = true ∧ exactValue step.number ≠ 0)
    (offset : (Affine.transformed law steps).offset.isFinite = true)
    (scale : (Affine.transformed law steps).scale.isFinite = true)
    (ht : t.isFinite = true) (hu : u.isFinite = true) (h : t ≤ u) :
    ∃ p q : Pmf Bool Float,
      (∀ {σ : Type} [Source σ] (s : σ),
        (Program.belowThreshold law steps t).eval F s = (.ok (.bool p), s)) ∧
      (∀ {σ : Type} [Source σ] (s : σ),
        (Program.belowThreshold law steps u).eval F s = (.ok (.bool q), s)) ∧
      (Even (steps.countP Step.reverses) → p.get true ≤ q.get true) ∧
      (Odd (steps.countP Step.reverses) → q.get true ≤ p.get true) := by
  have size := exactValue_of_signOf (signOf_scale numbers (isNaN_of_isFinite scale))
  obtain ⟨upward, downward⟩ := point_mono offset scale ht hu h
  have asked (n : Float) : (Affine.transformed law steps).cumulative? F n =
      F law ((Affine.transformed law steps).point n) := by
    unfold Affine.cumulative?
    rw [Affine.law_transformed]
  rcases Nat.even_or_odd (steps.countP Step.reverses) with even | odd
  · unfold turned at size
    rw [if_pos even] at size
    obtain ⟨p, q, low, high, order⟩ := rising _ _ (upward (size ▸ abs_nonneg _))
    obtain ⟨s, r, hs, hr, masses⟩ := masses_below order ((asked t).trans low) ((asked u).trans high)
    exact ⟨s, r, Program.eval_belowThreshold hs, Program.eval_belowThreshold hr, fun _ => masses,
      fun odd => absurd even (Nat.not_even_iff_odd.mpr odd)⟩
  · unfold turned at size
    rw [if_neg (Nat.not_even_iff_odd.mpr odd)] at size
    obtain ⟨q, p, high, low, order⟩ :=
      rising _ _ (downward (size ▸ neg_nonpos.mpr (abs_nonneg _)))
    obtain ⟨r, s, hr, hs, masses⟩ := masses_below order ((asked u).trans high) ((asked t).trans low)
    exact ⟨s, r, Program.eval_belowThreshold hs, Program.eval_belowThreshold hr,
      fun even => absurd even (Nat.not_even_iff_odd.mpr odd), fun _ => masses⟩

end

/-! ### A uniform sample with its sign changed -/

/-- the cumulative probability of the uniform law, its argument cut at both ends of the unit
interval -/
def uniformCumulative (x : Float) : Float := if x < 0.0 then 0.0 else if 1.0 ≤ x then 1.0 else x

theorem cumulative_uniform (x : Float) :
    Law.cumulative (.beta 1.0 1.0) x = some (uniformCumulative x) := by
  have shape : isShape 1.0 = true := by decide
  have one : isAboutOne 1.0 = true := by decide
  show betaCumulative? 1.0 1.0 x = _
  unfold betaCumulative? uniformCumulative
  simp only [shape, one, Bool.not_true, Bool.or_self, Bool.and_self, Bool.false_eq_true, if_false,
    if_true]
  split_ifs <;> rfl

theorem extent_uniformCumulative {x : Float} (hx : x.isNaN = false) :
    (uniformCumulative x).isNaN = false ∧
      extent (uniformCumulative x) = max 0 (min 1 (extent x)) := by
  have zero : extent 0.0 = 0 := (extent_of_isFinite isFinite_zero).trans exactValue_zero
  have one : extent 1.0 = 1 := (extent_of_isFinite isFinite_one).trans exactValue_one
  unfold uniformCumulative
  simp only [lt_iff_extent hx (y := 0.0) rfl, le_iff_extent (x := 1.0) rfl hx, zero, one]
  split_ifs with below above
  · rw [zero, min_eq_right (by linarith), max_eq_left below.le]
    exact ⟨rfl, rfl⟩
  · rw [one, min_eq_left above, max_eq_right zero_le_one]
    exact ⟨rfl, rfl⟩
  · rw [min_eq_right (not_le.mp above).le, max_eq_right (not_lt.mp below)]
    exact ⟨hx, rfl⟩

theorem rising_uniform : Rising Law.cumulative (.beta 1.0 1.0) := by
  intro x y h
  obtain ⟨numberX, numberY⟩ := isNaN_of_le h
  obtain ⟨number, size⟩ := extent_uniformCumulative numberX
  obtain ⟨number', size'⟩ := extent_uniformCumulative numberY
  refine ⟨_, _, cumulative_uniform x, cumulative_uniform y, ?_⟩
  rw [le_iff_extent number number', size, size']
  exact max_le_max le_rfl (min_le_min le_rfl (extent_mono h))

/-- the opposite of a sample -/
def negation : List Step := [⟨.multiply, -1.0, false⟩]

theorem numbers_negation :
    ∀ step ∈ negation, step.number.isFinite = true ∧ exactValue step.number ≠ 0 := by
  intro step member
  cases List.mem_singleton.mp member
  exact ⟨by decide, by decide +kernel⟩

theorem thresholds_negation :
    ∃ p q : Pmf Bool Float,
      (∀ {σ : Type} [Source σ] (s : σ),
        (Program.belowThreshold (.beta 1.0 1.0) negation (-0.75)).eval Law.cumulative s =
          (.ok (.bool p), s)) ∧
      (∀ {σ : Type} [Source σ] (s : σ),
        (Program.belowThreshold (.beta 1.0 1.0) negation (-0.25)).eval Law.cumulative s =
          (.ok (.bool q), s)) ∧
      q.get true ≤ p.get true := by
  obtain ⟨p, q, low, high, -, odd⟩ := thresholds (t := -0.75) (u := -0.25) rising_uniform
    numbers_negation (by decide) (by decide) (by decide) (by decide) (by decide)
  exact ⟨p, q, low, high, odd (by decide)⟩

/-- its mass below a threshold falls as the threshold rises -/
theorem falling_below_thresholds :
    Rising Law.cumulative (.beta 1.0 1.0) ∧
    (∀ step ∈ negation, step.number.isFinite = true ∧ exactValue step.number ≠ 0) ∧
    (Affine.transformed (.beta 1.0 1.0) negation).offset.isFinite = true ∧
    (Affine.transformed (.beta 1.0 1.0) negation).scale.isFinite = true ∧
    (-0.75 : Float) ≤ -0.25 ∧
    ∃ p q : Pmf Bool Float,
      (∀ {σ : Type} [Source σ] (s : σ),
        (Program.belowThreshold (.beta 1.0 1.0) negation (-0.75)).eval Law.cumulative s =
          (.ok (.bool p), s)) ∧
      (∀ {σ : Type} [Source σ] (s : σ),
        (Program.belowThreshold (.beta 1.0 1.0) negation (-0.25)).eval Law.cumulative s =
          (.ok (.bool q), s)) ∧
      p.get true = 0.75 ∧ q.get true = 0.25 ∧ ¬ p.get true ≤ q.get true := by
  refine ⟨rising_uniform, numbers_negation, by decide, by decide, by decide, ?_⟩
  have low : (Affine.transformed (.beta 1.0 1.0) negation).cumulative? Law.cumulative (-0.75) =
      some 0.75 := by decide +kernel
  have high : (Affine.transformed (.beta 1.0 1.0) negation).cumulative? Law.cumulative (-0.25) =
      some 0.25 := by decide +kernel
  obtain ⟨p, hp, massP⟩ := below_certain low
  obtain ⟨q, hq, massQ⟩ := below_certain high
  have three : (0.0 + 1.0 * (0.0 + 0.75) : Float) = 0.75 := by decide +kernel
  have one : (0.0 + 1.0 * (0.0 + 0.25) : Float) = 0.25 := by decide +kernel
  refine ⟨p, q, Program.eval_belowThreshold hp, Program.eval_belowThreshold hq,
    massP.trans three, massQ.trans one, ?_⟩
  rw [massP, massQ, three, one]
  decide

end Chance
