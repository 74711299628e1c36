import Chance.Law.Cumulative
import Chance.Proofs.Building
import Chance.Proofs.Draws
import Chance.Proofs.Sessions
import Mathlib.Logic.Basic

/-!
# Where laws are not defined

A law may have no cumulative probability at a point.  This is the one way in which an application
breaks down instead of failing for its operands, and only a comparison with a continuous sample can
come to it: it asks the law at one point for each recorded double.

* `Operation.queries`     the points at which an application asks;
* `Operation.breaksDown_iff`   it breaks down iff the law is not defined at one of them;
* `Program.breaksDown_iff`   so does a program, at an application that it reaches;
* `Value.Total`           a value without a beta law, which operations other than `beta` keep;
* `breakdowns_accounted`  sessions and programs, and that neither breaks down without `beta`.
-/

namespace Chance

variable {M σ : Type} [Mass M] [Source σ]

/-- is the law not defined at the point?  So it is for a beta law of two shapes, unless it is the
uniform one, where the point is no number. -/
def Law.undefinedAt : Law → Float → Bool
  | .normal _ _, _ => false
  | .beta a b, x => isShape a && isShape b && !(a == 1.0 && b == 1.0) && x.isNaN

namespace Operation

/-- the laws and points at which an application asks for a cumulative probability -/
def queries : Operation → List (Value M) → List (Law × Float)
  | .lessThan, [.continuous x, .float s] | .lessThan, [.float s, .continuous x]
  | .greaterThan, [.continuous x, .float s] | .greaterThan, [.float s, .continuous x] =>
    s.values.map fun n => (x.law, x.point n.toFloat)
  | _, _ => []

end Operation

/-! ## Comparisons -/

namespace Pmf

variable {F : Cumulative} {x : Affine} {s : Pmf Double M} {n : Float}

theorem belowEntry_eq_error {e : Double × M} :
    belowEntry F x e = .error n ↔ n = x.point e.1.toFloat ∧ F x.law n = none := by
  cases h : x.cumulative? F e.1.toFloat with
  | none =>
    rw [belowEntry_of_none h]
    constructor
    · rintro ⟨⟩
      exact ⟨rfl, h⟩
    · rintro ⟨rfl, -⟩
      rfl
  | some p =>
    rw [belowEntry_of_some h]
    refine iff_of_false nofun ?_
    rintro ⟨rfl, none⟩
    cases h.symm.trans none

theorem mapM_belowEntry_eq_error (es : List (Double × M)) :
    (∃ n, es.mapM (belowEntry F x) = .error n) ↔ ∃ e ∈ es, F x.law (x.point e.1.toFloat) = none := by
  simp only [exists_mapM_error_iff, belowEntry_eq_error, exists_eq_left]

/-- a comparison breaks down iff the law is not defined at one of the points -/
theorem below_eq_error :
    (∃ n, below F x s = .error n) ↔ ∃ v ∈ s.values, F x.law (x.point v.toFloat) = none := by
  have entries : (∃ v ∈ s.values, F x.law (x.point v.toFloat) = none) ↔
      ∃ e ∈ s.entries, F x.law (x.point e.1.toFloat) = none := by
    unfold values
    simp
  rw [entries, ← mapM_belowEntry_eq_error, below]
  cases s.entries.mapM (belowEntry F x) <;> simp [Except.map]

theorem above_eq_error : (∃ n, above F x s = .error n) ↔ ∃ n, below F x s = .error n := by
  unfold above
  cases below F x s <;> simp [Except.map]

end Pmf

/-- a result that tells of a law where it is not defined -/
def BreaksDown {α : Type} (r : Except (Fault M) α) : Prop :=
  ∃ law n, r = .error (.noCumulative law n)

section

variable {α : Type} {r : α}

omit [Mass M] in
theorem not_breaksDown_ok : ¬ BreaksDown (M := M) (.ok r) := fun ⟨_, _, h⟩ => nomatch h

omit [Mass M] in
theorem breaksDown_ofComparison (law : Law) {c : Except Float (Pmf Bool M)} :
    BreaksDown (Value.ofComparison law c) ↔ ∃ n, c = .error n := by
  cases c with
  | ok s => simp [BreaksDown, Value.ofComparison]
  | error n => exact ⟨fun _ => ⟨n, rfl⟩, fun _ => ⟨law, n, rfl⟩⟩

omit [Mass M] in
theorem not_breaksDown_mismatch {op : Operation} {l r : Value M} :
    ¬ BreaksDown (Value.mismatch op l r) := fun ⟨_, _, h⟩ => nomatch h

end

namespace Operation

variable {F : Cumulative} {op : Operation} {vs : List (Value M)} {s : σ}

/-- only a comparison breaks down -/
theorem comparison_of_breaksDown (h : BreaksDown (op.apply F vs s).1) :
    ∃ l r, vs = [l, r] ∧ (op = .lessThan ∨ op = .greaterThan) := by
  obtain ⟨law, n, h⟩ := h
  have undrawn : op.draws vs = false := by
    cases hd : op.draws vs with
    | false => rfl
    | true =>
      obtain ⟨c, r, rfl, rfl⟩ := eq_of_draws hd
      rw [apply_observe] at h
      unfold Value.observe at h
      dsimp only at h
      split at h <;> cases h
  unfold apply at h
  split at h
  · cases Value.fault_not h
  · obtain ⟨_, why⟩ := Value.fault_ofParameter h
    cases why
  · obtain ⟨_, why⟩ := Value.fault_ofParameter h
    cases why
  · cases Value.fault_sample h
  · obtain ⟨_, why⟩ | why := Value.fault_arith h <;> cases why
  · obtain ⟨_, why⟩ | why := Value.fault_arith h <;> cases why
  · obtain ⟨_, why⟩ | why := Value.fault_arith h <;> cases why
  · obtain ⟨_, why⟩ | why := Value.fault_arith h <;> cases why
  · cases Value.fault_connective h
  · cases Value.fault_connective h
  · cases Value.fault_equal h
  · exact ⟨_, _, rfl, .inl rfl⟩
  · exact ⟨_, _, rfl, .inr rfl⟩
  · obtain ⟨_, _, why⟩ := Value.fault_ofParameters h
    cases why
  · obtain ⟨_, _, why⟩ := Value.fault_ofParameters h
    cases why
  · next c r =>
    cases c with
    | bool c => cases undrawn
    | _ => cases h
  · cases h

omit [Mass M] in
/-- and only one between a double and a continuous sample -/
theorem operands_of_comparison {l r : Value M} {ints : Pmf Int64 M → Pmf Int64 M → Pmf Bool M}
    {doubles : Pmf Double M → Pmf Double M → Pmf Bool M}
    {left right : Affine → Pmf Double M → Except Float (Pmf Bool M)}
    (h : BreaksDown (Value.comparison op ints doubles left right l r)) :
    (∃ x t, l = .continuous x ∧ r = .float t) ∨ ∃ t x, l = .float t ∧ r = .continuous x := by
  unfold Value.comparison at h
  split at h
  · exact absurd h not_breaksDown_ok
  · exact absurd h not_breaksDown_ok
  · exact .inl ⟨_, _, rfl, rfl⟩
  · exact .inr ⟨_, _, rfl, rfl⟩
  · exact absurd h not_breaksDown_mismatch

/-- an application breaks down iff the law is not defined at a point at which it asks -/
theorem breaksDown_iff (s : σ) :
    BreaksDown (op.apply F vs s).1 ↔ ∃ q ∈ op.queries vs, F q.1 q.2 = none := by
  have asked (x : Affine) (t : Pmf Double M) :
      (∃ q ∈ t.values.map fun n => (x.law, x.point n.toFloat), F q.1 q.2 = none) ↔
        ∃ n, Pmf.below F x t = .error n := by
    rw [Pmf.below_eq_error]
    simp only [List.mem_map, exists_exists_and_eq_and]
  have below (x : Affine) (t : Pmf Double M) :=
    (breaksDown_ofComparison x.law).trans (asked x t).symm
  have above (x : Affine) (t : Pmf Double M) :=
    (breaksDown_ofComparison x.law).trans (Pmf.above_eq_error.trans (asked x t).symm)
  constructor
  · intro h
    obtain ⟨l, r, rfl, rfl | rfl⟩ := comparison_of_breaksDown h
    · obtain ⟨x, t, rfl, rfl⟩ | ⟨t, x, rfl, rfl⟩ := operands_of_comparison h
      · exact (below x t).mp h
      · exact (above x t).mp h
    · obtain ⟨x, t, rfl, rfl⟩ | ⟨t, x, rfl, rfl⟩ := operands_of_comparison h
      · exact (above x t).mp h
      · exact (below x t).mp h
  · intro h
    unfold queries at h
    split at h
    · exact (below _ _).mpr h
    · exact (above _ _).mpr h
    · exact (above _ _).mpr h
    · exact (below _ _).mpr h
    · obtain ⟨q, hq, -⟩ := h
      exact absurd hq List.not_mem_nil

end Operation

/-! ## Programs -/

namespace Program

mutual

/-- a program breaks down iff it reaches an application that does -/
theorem breaksDown_iff (F : Cumulative) : ∀ (p : Program) (s : σ),
    BreaksDown (p.eval F s : Evaluated M σ (Value M)).1 ↔
      ∃ a ∈ (p.applications F s : List (Operation × List (Value M))), ∃ q ∈ a.1.queries a.2,
        F q.1 q.2 = none
  | .const v, s => by
    rw [eval_const, applications_const]
    constructor
    · rintro ⟨law, n, h⟩
      unfold Value.constant at h
      split at h <;> cases h
    · rintro ⟨a, ha, -⟩
      exact absurd ha List.not_mem_nil
  | .call op args, s => by
    have all := breaksDown_iffAll F args s
    rcases h : (evalAll F args s : Evaluated M σ (List (Value M))) with ⟨f | vs, t⟩
    · rw [h] at all
      rw [eval_call_error h, applications_call_error h, ← all]
      unfold BreaksDown
      simp only [Except.error.injEq]
    · rw [h] at all
      have operands := fun b => not_breaksDown_ok (all.mpr b)
      rw [eval_call_ok h, applications_call_ok h, Operation.breaksDown_iff]
      simp only [List.mem_append, or_and_right, exists_or, List.mem_singleton, exists_eq_left]
      rw [or_iff_right operands]

theorem breaksDown_iffAll (F : Cumulative) : ∀ (ps : List Program) (s : σ),
    BreaksDown (evalAll F ps s : Evaluated M σ (List (Value M))).1 ↔
      ∃ a ∈ (applicationsAll F ps s : List (Operation × List (Value M))), ∃ q ∈ a.1.queries a.2,
        F q.1 q.2 = none
  | [], s => by
    rw [evalAll_nil, applicationsAll_nil]
    constructor
    · exact fun h => absurd h not_breaksDown_ok
    · rintro ⟨a, ha, -⟩
      exact absurd ha List.not_mem_nil
  | a :: as, s => by
    have first := breaksDown_iff F a s
    rcases h : (eval F a s : Evaluated M σ (Value M)) with ⟨f | v, t⟩
    · rw [h] at first
      rw [evalAll_cons_error h, applicationsAll_cons_error h, ← first]
      unfold BreaksDown
      simp only [Except.error.injEq]
    · rw [h] at first
      have head := fun b => not_breaksDown_ok (first.mpr b)
      have rest := breaksDown_iffAll F as t
      rw [applicationsAll_cons_ok h]
      simp only [List.mem_append, or_and_right, exists_or]
      rw [or_iff_right head, ← rest]
      rcases hs : (evalAll F as t : Evaluated M σ (List (Value M))) with ⟨f | vs, u⟩
      · rw [evalAll_cons_tail h hs]
      · rw [evalAll_cons_ok h hs]
        exact iff_of_false not_breaksDown_ok not_breaksDown_ok

end

end Program

/-! ## Where laws come from -/

namespace Value

def law? : Value M → Option Law
  | .continuous x => some x.law
  | .distribution (.continuous law) => some law
  | _ => none

/-- a value whose law, if it has one, is defined everywhere -/
def Total (v : Value M) : Prop := ∀ law ∈ v.law?, ∀ x, law.undefinedAt x = false

variable {l r v w : Value M}

omit [Mass M] in
theorem total_of_law?_eq_none (h : v.law? = none) : v.Total := by
  intro law hlaw
  rw [h] at hlaw
  cases hlaw

omit [Mass M] in
theorem Total.of_law?_eq (hw : w.Total) (h : v.law? = w.law?) : v.Total := by
  intro law hlaw
  rw [h] at hlaw
  exact hw law hlaw

theorem law?_literal (l : Literal) : (l.toValue : Value M).law? = none := by
  cases l <;> rfl

theorem numberWithSample?_law {x : Float} {t : Affine} (h : numberWithSample? l r = some (x, t)) :
    l.law? = some t.law ∨ r.law? = some t.law := by
  unfold numberWithSample? at h
  split at h
  · obtain ⟨y, -, same⟩ := Option.map_eq_some_iff.mp h
    cases same
    exact .inr rfl
  · obtain ⟨y, -, same⟩ := Option.map_eq_some_iff.mp h
    cases same
    exact .inl rfl
  · cases h

/-- arithmetic moves and stretches a sample but keeps its law -/
theorem total_arith {op : Arith} (hl : l.Total) (hr : r.Total) (h : l.arith op r = .ok v) :
    v.Total := by
  obtain ⟨_, _, _, -, -, -, rfl⟩ | ⟨_, _, _, -, -, -, rfl⟩ | ⟨x, t, found, rfl⟩ := arith_eq_ok h
  · exact total_of_law?_eq_none rfl
  · exact total_of_law?_eq_none rfl
  · have same : (continuous (t.arith op x) : Value M).law? = some t.law := by
      cases op <;> rfl
    rcases numberWithSample?_law found with left | right
    · exact hl.of_law?_eq (same.trans left.symm)
    · exact hr.of_law?_eq (same.trans right.symm)

omit [Mass M] in
theorem total_connective {op : Operation} {g : Pmf Bool M → Pmf Bool M → Pmf Bool M}
    (h : connective op g l r = .ok v) : v.Total := by
  obtain ⟨s, t, -, -, rfl⟩ := connective_eq_ok h
  exact total_of_law?_eq_none rfl

theorem total_not (h : w.not = .ok v) : v.Total := by
  obtain ⟨s, -, rfl⟩ := not_eq_ok h
  exact total_of_law?_eq_none rfl

theorem total_equal (h : l.equal r = .ok v) : v.Total := by
  unfold Value.equal at h
  split at h <;> cases h <;> exact total_of_law?_eq_none rfl

omit [Mass M] in
theorem total_comparison {op : Operation} {ints : Pmf Int64 M → Pmf Int64 M → Pmf Bool M}
    {doubles : Pmf Double M → Pmf Double M → Pmf Bool M}
    {left right : Affine → Pmf Double M → Except Float (Pmf Bool M)}
    (h : comparison op ints doubles left right l r = .ok v) : v.Total := by
  obtain ⟨c, rfl, -⟩ := comparison_eq_ok h
  exact total_of_law?_eq_none rfl

theorem total_ofParameter {family : Family} {name : String} {build : Float → Distribution}
    (discrete : ∀ x, (distribution (build x) : Value M).law? = none)
    (h : ofParameter family name build w = .ok v) : v.Total := by
  obtain ⟨s, x, -, -, rfl⟩ := ofParameter_eq_ok h
  exact total_of_law?_eq_none (discrete x)

/-- a normal law is defined everywhere -/
theorem total_normal (h : l.normal r = .ok v) : v.Total := by
  obtain ⟨mean, sd, rfl⟩ := ofParameters_eq_ok h
  intro law hlaw x
  cases hlaw
  rfl

theorem total_sample (hw : w.Total) (h : w.sample = .ok v) : v.Total := by
  cases w with
  | distribution d => cases d with
    | bernoulli p =>
      cases h
      exact total_of_law?_eq_none rfl
    | flip p =>
      cases h
      exact total_of_law?_eq_none rfl
    | continuous law =>
      cases h
      exact hw.of_law?_eq rfl
  | _ => cases h

theorem total_observe {s : σ} (hr : r.Total) (h : (l.observe r s).1 = .ok v) : v.Total := by
  obtain rfl := observe_eq_ok h
  exact hr

end Value

/-- all operations but `beta` keep laws defined everywhere -/
theorem Operation.total_apply {F : Cumulative} (op : Operation) (vs : List (Value M)) (s : σ)
    (v : Value M) (other : op ≠ .beta) (total : ∀ w ∈ vs, w.Total)
    (h : (op.apply F vs s).1 = .ok v) : v.Total := by
  unfold apply at h
  split at h
  · exact Value.total_not h
  · exact Value.total_ofParameter (fun _ => rfl) h
  · exact Value.total_ofParameter (fun _ => rfl) h
  · exact Value.total_sample (total _ (by simp)) h
  · exact Value.total_arith (total _ (by simp)) (total _ (by simp)) h
  · exact Value.total_arith (total _ (by simp)) (total _ (by simp)) h
  · exact Value.total_arith (total _ (by simp)) (total _ (by simp)) h
  · exact Value.total_arith (total _ (by simp)) (total _ (by simp)) h
  · exact Value.total_connective h
  · exact Value.total_connective h
  · exact Value.total_equal h
  · exact Value.total_comparison h
  · exact Value.total_comparison h
  · exact absurd rfl other
  · exact Value.total_normal h
  · exact Value.total_observe (total _ (by simp)) h
  · cases h

omit [Mass M] in
/-- operands with laws that are defined everywhere are asked for nothing else -/
theorem Operation.defined_of_total {op : Operation} {vs : List (Value M)}
    (total : ∀ w ∈ vs, w.Total) {q : Law × Float} (hq : q ∈ op.queries vs) :
    q.1.undefinedAt q.2 = false := by
  have asked {x : Affine} {t : Pmf Double M} (hx : (Value.continuous x : Value M).Total)
      (h : q ∈ t.values.map fun n => (x.law, x.point n.toFloat)) :
      q.1.undefinedAt q.2 = false := by
    obtain ⟨n, -, rfl⟩ := List.mem_map.mp h
    exact hx x.law rfl _
  unfold queries at hq
  split at hq
  · exact asked (total _ (by simp)) hq
  · exact asked (total _ (by simp)) hq
  · exact asked (total _ (by simp)) hq
  · exact asked (total _ (by simp)) hq
  · exact absurd hq List.not_mem_nil

/-! ## Where evaluation breaks down -/

/-- **Breakdowns are accounted for.**  A call in a session, and the evaluation of a program, breaks
down iff it comes to a comparison that asks a beta law of two shapes, not the uniform one, at a
point that is no number.  Without `beta` neither ever does. -/
theorem breakdowns_accounted (F : Cumulative)
    (partiality : ∀ law x, F law x = none ↔ law.undefinedAt x = true) :
    (∀ (t : Session Float σ) (c : Call),
      (∃ law x, (t.answer F c).1 = .fault (.noCumulative law x)) ↔
        ∃ a ∈ t.application? c, ∃ q ∈ a.1.queries a.2, q.1.undefinedAt q.2 = true) ∧
    (∀ (p : Program) (s : σ),
      BreaksDown (p.eval F s : Evaluated Float σ (Value Float)).1 ↔
        ∃ a ∈ (p.applications F s : List (Operation × List (Value Float))),
          ∃ q ∈ a.1.queries a.2, q.1.undefinedAt q.2 = true) ∧
    (∀ (calls : List Call) (c : Call) (s : σ), (∀ ks, Call.apply .beta ks ∉ calls) →
      ∀ law x, ((Session.run F calls (.start s) : Session Float σ).answer F c).1 ≠
        .fault (.noCumulative law x)) ∧
    (∀ (p : Program) (s : σ), Operation.beta ∉ p.operations →
      ¬ BreaksDown (p.eval F s : Evaluated Float σ (Value Float)).1) := by
  have session (t : Session Float σ) (c : Call) :
      (∃ law x, (t.answer F c).1 = .fault (.noCumulative law x)) ↔
        ∃ a ∈ t.application? c, ∃ q ∈ a.1.queries a.2, q.1.undefinedAt q.2 = true := by
    simp only [← partiality]
    cases h : t.application? c with
    | none =>
      have quiet : ¬ ∃ law x, (t.answer F c).1 = .fault (.noCumulative law x) := by
        rintro ⟨law, x, broken⟩
        rcases Session.answer_of_no_application (F := F) h with ⟨l, -, value⟩ | missing
        · rw [value] at broken
          cases broken
        · rw [missing] at broken
          cases broken
      exact iff_of_false quiet fun ⟨a, ha, _⟩ => nomatch ha
    | some a =>
      obtain ⟨op, vs⟩ := a
      rw [Session.answer_of_application? h]
      simp only [Answer.ofResult_eq_fault, Option.mem_some_iff, exists_eq_left']
      exact Operation.breaksDown_iff t.source
  have program (p : Program) (s : σ) :
      BreaksDown (p.eval F s : Evaluated Float σ (Value Float)).1 ↔
        ∃ a ∈ (p.applications F s : List (Operation × List (Value Float))),
          ∃ q ∈ a.1.queries a.2, q.1.undefinedAt q.2 = true := by
    simp only [← partiality]
    exact Program.breaksDown_iff F p s
  have literal (l : Literal) : (l.toValue : Value Float).Total :=
    Value.total_of_law?_eq_none (Value.law?_literal l)
  refine ⟨session, program, ?_, ?_⟩
  · intro calls c s avoided law x broken
    obtain ⟨⟨op, vs⟩, ha, q, hq, undefined⟩ := (session _ c).mp ⟨law, x, broken⟩
    have fits : ∀ a ∈ Session.applications F calls (.start s : Session Float σ), a.1 ≠ .beta := by
      rintro ⟨op, vs⟩ called rfl
      obtain ⟨ks, hks⟩ := Session.exists_call F called
      exact avoided ks hks
    have total := Session.run_values literal (fun op vs s v => Operation.total_apply op vs s v) calls
      (fun v hv => absurd hv List.not_mem_nil) fits
    have defined := Operation.defined_of_total
      (fun w hw => total w ((Session.eq_of_application? ha).2 w hw)) hq
    rw [defined] at undefined
    cases undefined
  · intro p s avoided broken
    obtain ⟨a, ha, q, hq, undefined⟩ := (program p s).mp broken
    obtain ⟨-, operands⟩ := Program.eval_keeps (Q := fun a => a.1 ≠ .beta) literal
      (fun op vs s v => Operation.total_apply op vs s v) p s
      fun b hb same => avoided (same ▸ Program.mem_operations hb)
    have defined := Operation.defined_of_total (operands a ha) hq
    rw [defined] at undefined
    cases undefined

/-- the cumulative probabilities of laws where they are defined -/
def Law.partially : Cumulative := fun law x =>
  if law.undefinedAt x then none else some ((law.cumulative x).getD noNumber)

theorem Law.partially_eq_none (law : Law) (x : Float) :
    law.partially x = none ↔ law.undefinedAt x = true := by
  unfold partially
  split <;> simp [*]

/-- is a beta sample below the quotient of two zeros? -/
def betaBelowNoNumber : Program :=
  .call .lessThan
    [.call .sample [.call .beta [.const (.number (.float 2.0)), .const (.number (.float 3.0))]],
      .call .divide [.const (.number (.float 0.0)), .const (.number (.float 0.0))]]

theorem breakdowns_accounted_betaBelowNoNumber :
    (∀ law x, Law.partially law x = none ↔ law.undefinedAt x = true) ∧
      BreaksDown (betaBelowNoNumber.eval Law.partially (⟨fun _ => 0.0, 0⟩ : Sequence) :
        Evaluated Float Sequence (Value Float)).1 := by
  refine ⟨Law.partially_eq_none, ?_⟩
  have program := (breakdowns_accounted (σ := Sequence) Law.partially Law.partially_eq_none).2.1
  refine (program _ _).mpr ⟨(.lessThan, [.continuous (.ofLaw (.beta 2.0 3.0)),
    .float (Pmf.certain Double.invalid)]), List.mem_of_getElem? (i := 3) rfl, ?_⟩
  exact ⟨(.beta 2.0 3.0, noNumber), List.mem_singleton.mpr rfl, rfl⟩

/-- it has neither a value nor a fault of its operands -/
theorem betaBelowNoNumber_breaksDown :
    (betaBelowNoNumber.eval Law.cumulative (⟨fun _ => 0.0, 0⟩ : Sequence) :
      Evaluated Float Sequence (Value Float)).1 =
        .error (.noCumulative (.beta 2.0 3.0) noNumber) := rfl

end Chance
