import Chance.Proofs.Pushforward
import Chance.Proofs.Sameness
import Chance.Proofs.Sessions

/-!
# Double negation

Negation exchanges the masses of the two truth values and records both of them.  So a double
negation has the masses of its operand, but is equal to it only if both truth values were recorded
there.  A truth value that was lifted from a literal, or comes of the comparison of two numbers, may
record just one; without these, all operations keep both.

* `Pmf.Full`              both truth values are recorded;
* `not_not_masses`, `same_not_not_iff`   double negations;
* `full_trial`, `full_connective`, `full_below`   operations that record both;
* `Value.Full`, `Operation.full_apply`   what operations keep;
* `double_negation`       all mass functions of truth values, and those of a session.
-/

namespace Chance

variable {α β γ ε M : Type} [Outcome α] [Outcome β] [Outcome γ] [Mass M]

namespace Pmf

/-- both truth values are recorded -/
def Full (s : Pmf Bool M) : Prop := ∀ b, s.records b = true

/-! ## Double negations -/

theorem full_not (s : Pmf Bool M) : s.not.Full := by
  intro b
  rw [Pmf.not, records_add, records_add]
  cases b <;> rfl

theorem full_trial (p : M) : (trial p : Pmf Bool M).Full := by
  intro b
  rw [trial, records_add, records_add]
  cases b <;> rfl

theorem not_not_masses (s : Pmf Bool Float) (b : Bool) :
    SameMass (s.not.not.get b) (s.get b) := by
  rw [get_not, get_not, Bool.not_not]
  exact (add_null_left isNull_zero).trans (add_null_left isNull_zero)

/-- **A double negation** is equal to its operand just if this records both truth values and its
masses are numbers. -/
theorem same_not_not_iff (s : Pmf Bool Float) :
    s.not.not.same s = true ↔ s.Full ∧ ∀ e ∈ s.entries, e.2.isNaN = false := by
  have masses (b : Bool) : (s.not.not.get b == s.get b) = true ↔ (s.get b).isNaN = false := by
    have same := not_not_masses s b
    rw [beq_iff, ← same.isNaN]
    constructor
    · rintro (⟨-, number⟩ | ⟨null, -⟩)
      · exact number
      · exact IsNull.isNaN null
    · intro number
      exact same.imp_left fun eq => ⟨eq, number⟩
  have records (b : Bool) : s.not.not.records b = s.records b ↔ s.records b = true := by
    rw [full_not s.not b, eq_comm]
  simp only [same_iff_get, records, masses, isNaN_get_iff, Full]

/-! ## Operations that record both truth values -/

theorem records_combine {l : Pmf α M} {r : Pmf β M} {a : α} {b : β} (ha : a ∈ l.values)
    (hb : b ∈ r.values) (op : α → β → γ) : (l.combine r op).records (op a b) = true := by
  rw [combine_eq, records_ofList, List.any_map, List.any_eq_true]
  exact ⟨(a, b), List.pair_mem_product.mpr ⟨ha, hb⟩, Outcome.same_iff.mpr rfl⟩

omit [Mass M] in
theorem Full.mem_values {s : Pmf Bool M} (h : s.Full) (b : Bool) : b ∈ s.values := by
  obtain ⟨c, hc, same⟩ := List.any_eq_true.mp (h b)
  rwa [← (Outcome.same_bool_iff c b).mp same]

/-- an operation that has both results -/
theorem full_combine {l r : Pmf Bool M} (hl : l.Full) (hr : r.Full) {op : Bool → Bool → Bool}
    (onto : ∀ c, ∃ a b, op a b = c) : (l.combine r op).Full := by
  intro c
  obtain ⟨a, b, rfl⟩ := onto c
  exact records_combine (hl.mem_values a) (hr.mem_values b) op

theorem size_tryCombine {l : Pmf α M} {r : Pmf β M} {op : α → β → Except ε γ} {s : Pmf γ M}
    (hl : l.size ≠ 0) (hr : r.size ≠ 0) (h : l.tryCombine r op = .ok s) : s.size ≠ 0 := by
  rw [tryCombine_eq] at h
  cases results : (l.couples r).mapM fun p => tryPair op (p, l.joint r p) with
  | error f =>
    rw [results] at h
    cases h
  | ok entries =>
    rw [results] at h
    cases h
    have length := (forall₂_of_mapM results).length_eq
    rw [Ne, size_ofList_eq_zero]
    rintro rfl
    rw [length_couples, List.length_nil, Nat.mul_eq_zero] at length
    exact length.elim hl hr

theorem full_below {F : Cumulative} {x : Affine} {s : Pmf Double M} {t : Pmf Bool M}
    (hs : s.size ≠ 0) (h : below F x s = .ok t) : t.Full := by
  unfold below at h
  cases results : s.entries.mapM (belowEntry F x) with
  | error n =>
    rw [results] at h
    cases h
  | ok shares =>
    rw [results] at h
    cases h
    have entries := forall₂_of_mapM results
    unfold size at hs
    generalize s.entries = es at hs entries
    cases entries with
    | nil => exact absurd rfl hs
    | @cons e share es shares first rest =>
      cases asked : x.cumulative? F e.1.toFloat with
      | none =>
        rw [belowEntry_of_none asked] at first
        cases first
      | some p =>
        rw [belowEntry_of_some asked] at first
        cases first
        intro b
        rw [records_ofList]
        cases b <;> rfl

theorem full_above {F : Cumulative} {x : Affine} {s : Pmf Double M} {t : Pmf Bool M}
    (h : above F x s = .ok t) : t.Full := by
  unfold above at h
  cases results : below F x s with
  | error n =>
    rw [results] at h
    cases h
  | ok c =>
    rw [results] at h
    cases h
    exact full_not c

end Pmf

/-! ## Values -/

/-- numbers are compared with numbers -/
def Operation.comparesNumbers : Operation → List (Value M) → Bool
  | .equal, [v, w] | .lessThan, [v, w] | .greaterThan, [v, w] =>
    v.kind == w.kind && (v.kind == .int || v.kind == .float)
  | _, _ => false

namespace Value

/-- truth values are recorded both, and some number -/
def Full : Value M → Prop
  | .bool s => s.Full
  | .int s => s.size ≠ 0
  | .float s => s.size ≠ 0
  | _ => True

variable {F : Cumulative} {l r v w : Value M}

theorem full_literal {k : Literal} (h : ∀ b, k ≠ .bool b) : (k.toValue : Value M).Full := by
  cases k with
  | bool b => exact absurd rfl (h b)
  | int n => exact Nat.one_ne_zero
  | float x => exact Nat.one_ne_zero

theorem full_arith {op : Arith} (hl : l.Full) (hr : r.Full) (h : l.arith op r = .ok v) :
    v.Full := by
  obtain ⟨s, t, c, rfl, rfl, hc, rfl⟩ | ⟨s, t, c, rfl, rfl, hc, rfl⟩ | ⟨x, t, -, rfl⟩ :=
    arith_eq_ok h
  · exact Pmf.size_tryCombine hl hr hc
  · exact Pmf.size_tryCombine hl hr hc
  · trivial

/-- a connective that has both results -/
theorem full_connective {op : Operation} {f : Bool → Bool → Bool} (onto : ∀ c, ∃ a b, f a b = c)
    (hl : l.Full) (hr : r.Full) (h : connective op (fun s t => s.combine t f) l r = .ok v) :
    v.Full := by
  obtain ⟨s, t, rfl, rfl, rfl⟩ := connective_eq_ok h
  exact Pmf.full_combine hl hr onto

theorem full_and (hl : l.Full) (hr : r.Full) (h : l.and r = .ok v) : v.Full :=
  full_connective (f := (· && ·)) (by decide) hl hr h

theorem full_or (hl : l.Full) (hr : r.Full) (h : l.or r = .ok v) : v.Full :=
  full_connective (f := (· || ·)) (by decide) hl hr h

theorem full_not (h : w.not = .ok v) : v.Full := by
  obtain ⟨s, -, rfl⟩ := not_eq_ok h
  exact Pmf.full_not s

theorem full_equal (truths : Operation.comparesNumbers .equal [l, r] = false) (hl : l.Full)
    (hr : r.Full) (h : l.equal r = .ok v) : v.Full := by
  have apart : ((Pmf.empty.add false Mass.one).add true Mass.zero : Pmf Bool M).Full := by
    intro b
    rw [Pmf.records_add, Pmf.records_add]
    cases b <;> rfl
  unfold Value.equal at h
  split at h <;> cases h
  · cases truths
  · cases truths
  · exact Pmf.full_combine hl hr (by decide)
  · exact apart
  · exact apart

omit [Mass M] in
/-- what compares a continuous sample with doubles has to record both truth values -/
theorem full_comparison {op : Operation} {ints : Pmf Int64 M → Pmf Int64 M → Pmf Bool M}
    {doubles : Pmf Double M → Pmf Double M → Pmf Bool M}
    {left right : Affine → Pmf Double M → Except Float (Pmf Bool M)}
    (truths : (l.kind == r.kind && (l.kind == .int || l.kind == .float)) = false)
    (onLeft : ∀ x t c, r = .float t → left x t = .ok c → c.Full)
    (onRight : ∀ x s c, l = .float s → right x s = .ok c → c.Full)
    (h : comparison op ints doubles left right l r = .ok v) : v.Full := by
  obtain ⟨c, rfl, numbers | numbers | ⟨x, t, -, ht, asked⟩ | ⟨s, x, hs, -, asked⟩⟩ :=
    comparison_eq_ok h
  · obtain ⟨s, t, rfl, rfl, -⟩ := numbers
    cases truths
  · obtain ⟨s, t, rfl, rfl, -⟩ := numbers
    cases truths
  · exact onLeft x t c ht asked
  · exact onRight x s c hs asked

theorem full_lessThan (truths : Operation.comparesNumbers .lessThan [l, r] = false) (hr : r.Full)
    (h : l.lessThan F r = .ok v) : v.Full := by
  refine full_comparison truths ?_ (fun _ _ _ _ => Pmf.full_above) h
  rintro x t c rfl
  exact Pmf.full_below hr

theorem full_greaterThan (truths : Operation.comparesNumbers .greaterThan [l, r] = false)
    (hl : l.Full) (h : l.greaterThan F r = .ok v) : v.Full := by
  refine full_comparison truths (fun _ _ _ _ => Pmf.full_above) ?_ h
  rintro x s c rfl
  exact Pmf.full_below hl

theorem full_ofParameter {family : Family} {name : String} {build : Float → Distribution}
    (h : ofParameter family name build w = .ok v) : v.Full := by
  obtain ⟨s, x, -, -, rfl⟩ := ofParameter_eq_ok h
  trivial

theorem full_ofParameters {family : Family} {first second : String} {build : Float → Float → Law}
    (h : ofParameters family first second build l r = .ok v) : v.Full := by
  obtain ⟨x, y, rfl⟩ := ofParameters_eq_ok h
  trivial

theorem full_sample (h : w.sample = .ok v) : v.Full := by
  cases w with
  | distribution d => cases d with
    | bernoulli p =>
      cases h
      exact Nat.succ_ne_zero 1
    | flip p =>
      cases h
      exact Pmf.full_trial _
    | continuous law =>
      cases h
      trivial
  | _ => cases h

theorem full_observe {σ : Type} [Source σ] {s : σ} (hr : r.Full)
    (h : (l.observe r s).1 = .ok v) : v.Full := by
  obtain rfl := observe_eq_ok h
  exact hr

end Value

/-- operations keep both truth values, unless they compare numbers with numbers -/
theorem Operation.full_apply {σ : Type} [Source σ] {F : Cumulative} (op : Operation)
    (vs : List (Value M)) (s : σ) (v : Value M) (truths : op.comparesNumbers vs = false)
    (full : ∀ w ∈ vs, w.Full) (h : (op.apply F vs s).1 = .ok v) : v.Full := by
  unfold apply at h
  split at h
  · exact Value.full_not h
  · exact Value.full_ofParameter h
  · exact Value.full_ofParameter h
  · exact Value.full_sample h
  · exact Value.full_arith (full _ (by simp)) (full _ (by simp)) h
  · exact Value.full_arith (full _ (by simp)) (full _ (by simp)) h
  · exact Value.full_arith (full _ (by simp)) (full _ (by simp)) h
  · exact Value.full_arith (full _ (by simp)) (full _ (by simp)) h
  · exact Value.full_and (full _ (by simp)) (full _ (by simp)) h
  · exact Value.full_or (full _ (by simp)) (full _ (by simp)) h
  · exact Value.full_equal truths (full _ (by simp)) (full _ (by simp)) h
  · exact Value.full_lessThan truths (full _ (by simp)) h
  · exact Value.full_greaterThan truths (full _ (by simp)) h
  · exact Value.full_ofParameters h
  · exact Value.full_ofParameters h
  · exact Value.full_observe (full _ (by simp)) h
  · cases h

/-! ## Sessions -/

section

variable {σ : Type} [Source σ]

/-- **Double negation.**  It never fails on a mass function of truth values and keeps every mass that
is a number.  Its result is equal to its operand just if this records both truth values and all its
masses are numbers.  Both are recorded by all truth values of a session in which none is lifted from
a literal and no number is compared with a number, so a double negation is equal to any of them
whose masses are numbers. -/
theorem double_negation (F : Cumulative) (calls : List Call) (start : σ) :
    (∀ s : Pmf Bool Float,
      (Value.bool s).not.bind Value.not = .ok (.bool s.not.not) ∧
      (∀ b, (s.get b).isNaN = false → (s.not.not.get b == s.get b) = true) ∧
      ((Value.bool s.not.not).same (.bool s) = true ↔
        (∀ b, s.records b = true) ∧ ∀ e ∈ s.entries, e.2.isNaN = false)) ∧
    ((∀ b, .constant (.bool b) ∉ calls) →
      (∀ a ∈ Session.applications F calls (.start start : Session Float σ),
        a.1.comparesNumbers a.2 = false) →
      ∀ s, .bool s ∈ (Session.run F calls (.start start) : Session Float σ).values →
        (∀ e ∈ s.entries, e.2.isNaN = false) →
        ∃ v, (Value.bool s).not.bind Value.not = .ok v ∧ v.same (.bool s) = true) := by
  refine ⟨fun s => ⟨rfl, fun b number => ?_, Pmf.same_not_not_iff s⟩, ?_⟩
  · have same := Pmf.not_not_masses s b
    exact beq_iff.mpr (same.imp_left fun eq => ⟨eq, same.isNaN.trans number⟩)
  · intro literals truths s hs numbers
    have full := Session.run_keeps
      (fun op vs q v truths => Operation.full_apply op vs q v truths) calls
      (fun k hk => Value.full_literal fun b eq => literals b (eq ▸ hk))
      (fun v hv => absurd hv List.not_mem_nil) truths
    exact ⟨_, rfl, (Pmf.same_not_not_iff s).mpr ⟨full _ hs, numbers⟩⟩

/-- a coin, and whether it agrees with a point of the unit interval below a quarter -/
def coinAndPoint : List Call :=
  [.constant (.float 0.25), .apply .flip [0], .apply .sample [1], .constant (.float 1.0),
    .apply .beta [3, 3], .apply .sample [4], .apply .lessThan [5, 0], .apply .equal [2, 6]]

theorem double_negation_coinAndPoint :
    ∃ s : Pmf Bool Float, (Session.run Law.cumulative coinAndPoint (.start ⟨fun _ => 0.0, 0⟩) :
        Session Float Sequence).operand? 7 = some (.bool s) ∧
      (∀ e ∈ s.entries, e.2.isNaN = false) ∧
      ∃ v, (Value.bool s).not.bind Value.not = .ok v ∧ v.same (.bool s) = true := by
  have literals : ∀ b, .constant (.bool b) ∉ coinAndPoint := by
    intro b
    simp [coinAndPoint]
  have truths : ∀ a ∈ Session.applications Law.cumulative coinAndPoint
      (.start ⟨fun _ => 0.0, 0⟩ : Session Float Sequence), a.1.comparesNumbers a.2 = false := by
    decide +kernel
  refine ⟨_, rfl, by decide +kernel, ?_⟩
  exact (double_negation Law.cumulative coinAndPoint _).2 literals truths _
    (Session.mem_values_of_operand (k := 7) rfl) (by decide +kernel)

/-- a literal that is negated twice records one more truth value, without mass -/
theorem double_negation_literal :
    ∃ s t : Pmf Bool Float,
      (Session.run Law.cumulative [.constant (.bool true), .apply .not [0], .apply .not [1]]
        (.start ⟨fun _ => 0.0, 0⟩) : Session Float Sequence).values =
          [.bool s, .bool s.not, .bool t] ∧
      (∀ e ∈ s.entries, e.2.isNaN = false) ∧ (Value.bool t).same (.bool s) = false :=
  ⟨.certain true, _, rfl, by decide +kernel, by decide +kernel⟩

end

end Chance
