import Chance.Proofs.Doubles
import Chance.Proofs.Expectation
import Chance.Proofs.Kinds
import Chance.Proofs.Partiality

/-!
# Normalisation

In exact arithmetic every mass function of a session is a distribution: no mass is negative and
together they are one.  Enumeration multiplies totals and merging keeps them, so all that can go
wrong is a parameter, or a cumulative probability, outside the unit interval.  A draw below one is
then never beyond the total mass.

* `massOf`                the sum of the masses of a list;
* `Normalised`            no mass negative, and the sum one;
* `Normalised.combine`, `tryCombine`, `not`, `trial`, `below`, `above`   what keeps it;
* `Pmf.pick_of_normalised`   a draw below one selects an outcome;
* `Operation.probabilities`, `Proper`   the doubles that an application takes for probabilities;
* `Operation.normal_apply`   one application;
* `masses_normalised`     a session.
-/

namespace Chance

variable {α β γ ε : Type}

/-! ## Sums of masses -/

def massOf (es : List (α × Rat)) : Rat := expect es fun _ => 1

theorem massOf_cons (e : α × Rat) (es : List (α × Rat)) : massOf (e :: es) = e.2 + massOf es := by
  unfold massOf
  rw [expect_cons, one_mul]

theorem expect_const (c : Rat) (es : List (α × Rat)) :
    (expect es fun _ => c) = c * massOf es := by
  induction es with
  | nil => exact (mul_zero c).symm
  | cons e es ih =>
    rw [expect_cons, ih, massOf_cons]
    ring

/-- a list of masses that is a distribution -/
structure Normalised (es : List (α × Rat)) : Prop where
  nonneg : ∀ e ∈ es, 0 ≤ e.2
  sum : massOf es = 1

namespace Pmf

variable [Outcome α] [Outcome β] [Outcome γ]

theorem total_eq_massOf (s : Pmf α Rat) : s.total = massOf s.entries := by
  have added (t : Rat) (es : List (α × Rat)) :
      (es.map Prod.snd).foldl Mass.add t = t + massOf es := by
    induction es generalizing t with
    | nil => exact (add_zero t).symm
    | cons e es ih =>
      rw [List.map_cons, List.foldl_cons, ih, massOf_cons]
      exact add_assoc t e.2 (massOf es)
  exact (added 0 s.entries).trans (zero_add _)

/-! ## Merging -/

theorem nonneg_accumulate (v : α) {p : Rat} (hp : 0 ≤ p) {es : List (α × Rat)}
    (h : ∀ e ∈ es, 0 ≤ e.2) : ∀ e ∈ accumulate v p es, 0 ≤ e.2 := by
  induction es with
  | nil =>
    show ∀ e ∈ [(v, (0 : Rat) + p)], 0 ≤ e.2
    simpa using hp
  | cons e es ih =>
    obtain ⟨w, q⟩ := e
    have first : 0 ≤ q := h (w, q) List.mem_cons_self
    have rest : ∀ e ∈ es, 0 ≤ e.2 := fun e he => h e (List.mem_cons_of_mem _ he)
    by_cases hw : Outcome.key w = Outcome.key v
    · have merged : accumulate v p ((w, q) :: es) = (w, q + p) :: es := if_pos hw
      rw [merged]
      exact List.forall_mem_cons.mpr ⟨add_nonneg first hp, rest⟩
    · have passed : accumulate v p ((w, q) :: es) = (w, q) :: accumulate v p es := if_neg hw
      rw [passed]
      exact List.forall_mem_cons.mpr ⟨first, ih rest⟩

end Pmf

/-! ## What keeps a distribution -/

namespace Normalised

open Pmf

variable [Outcome α] [Outcome β] [Outcome γ]

/-- merging keeps a distribution one -/
theorem ofList {l : List (α × Rat)} (h : Normalised l) :
    Normalised (Pmf.ofList l).entries := by
  obtain ⟨nonneg, sum⟩ := h
  refine ⟨?_, (expect_ofList (fun _ _ _ => rfl) l).trans sum⟩
  clear sum
  induction l using List.reverseRecOn with
  | nil => exact fun e he => absurd he List.not_mem_nil
  | append_singleton l e ih =>
    have last : 0 ≤ e.2 := nonneg e (List.mem_append_right _ (List.mem_singleton.mpr rfl))
    rw [ofList_concat, entries_add]
    exact nonneg_accumulate e.1 last (ih fun f hf => nonneg f (List.mem_append_left _ hf))

omit [Outcome α] [Outcome β] in
theorem map (f : α → β) {es : List (α × Rat)} (h : Normalised es) :
    Normalised (es.map fun e => (f e.1, e.2)) := by
  refine ⟨?_, (expect_map f es fun _ => 1).trans h.sum⟩
  intro e he
  obtain ⟨a, ha, rfl⟩ := List.mem_map.mp he
  exact h.nonneg a ha

theorem pairs {l : Pmf α Rat} {r : Pmf β Rat} (hl : Normalised l.entries)
    (hr : Normalised r.entries) : Normalised (l.pairs r) := by
  constructor
  · intro e he
    unfold Pmf.pairs at he
    obtain ⟨a, ha, hb⟩ := List.mem_flatMap.mp he
    obtain ⟨b, hb', rfl⟩ := List.mem_map.mp hb
    exact mul_nonneg (hl.nonneg a ha) (hr.nonneg b hb')
  · unfold massOf
    rw [expect_pairs l r fun _ => 1]
    show (expect l.entries fun _ => massOf r.entries) = 1
    rw [expect_const, hl.sum, hr.sum, mul_one]

theorem combine {l : Pmf α Rat} {r : Pmf β Rat} (op : α → β → γ)
    (hl : Normalised l.entries) (hr : Normalised r.entries) :
    Normalised (l.combine r op).entries :=
  ((hl.pairs hr).map fun ab : α × β => op ab.1 ab.2).ofList

theorem tryCombine {l : Pmf α Rat} {r : Pmf β Rat} {op : α → β → Except ε γ}
    {s : Pmf γ Rat} (hl : Normalised l.entries) (hr : Normalised r.entries)
    (h : l.tryCombine r op = .ok s) : Normalised s.entries := by
  obtain ⟨es, rfl, results⟩ := tryCombine_eq_ok h
  have pairs := hl.pairs hr
  refine ofList ?_
  generalize l.pairs r = ps at results pairs
  obtain ⟨nonneg, sum⟩ := pairs
  -- each result has the mass of its pair
  have same : massOf es = massOf ps ∧ ∀ e ∈ es, 0 ≤ e.2 := by
    clear h sum
    induction results with
    | nil => exact ⟨rfl, fun e he => absurd he List.not_mem_nil⟩
    | cons first _ ih =>
      obtain ⟨-, mass⟩ := op_of_tryPair first
      obtain ⟨sums, rest⟩ := ih fun e he => nonneg e (List.mem_cons_of_mem _ he)
      refine ⟨by rw [massOf_cons, massOf_cons, mass, sums], ?_⟩
      exact List.forall_mem_cons.mpr ⟨mass ▸ nonneg _ List.mem_cons_self, rest⟩
  exact ⟨same.2, same.1.trans sum⟩

theorem pair {a b : α} (h : Outcome.key a ≠ Outcome.key b) {p q : Rat} (hp : 0 ≤ p)
    (hq : 0 ≤ q) (sum : p + q = 1) : Normalised ((empty.add a p).add b q : Pmf α Rat).entries := by
  rw [entries_add_add h]
  refine ⟨by simp [hp, hq], ?_⟩
  rw [massOf_cons, massOf_cons]
  exact (add_assoc p q 0).symm.trans ((add_zero _).trans sum)

theorem certain (v : α) : Normalised (certain v : Pmf α Rat).entries := by
  rw [entries_certain_one]
  refine ⟨by simp [Mass.one], ?_⟩
  rw [massOf_cons]
  exact add_zero 1

theorem lookup_nonneg {v : α} {es : List (α × Rat)} (h : ∀ e ∈ es, 0 ≤ e.2) :
    0 ≤ lookup v es := by
  induction es with
  | nil => exact le_refl 0
  | cons e es ih =>
    obtain ⟨w, q⟩ := e
    unfold lookup
    split
    · exact h (w, q) List.mem_cons_self
    · exact ih fun f hf => h f (List.mem_cons_of_mem _ hf)

/-- negation exchanges the two masses of a distribution -/
theorem not {s : Pmf Bool Rat} (h : Normalised s.entries) :
    Normalised s.not.entries := by
  have sum : s.get false + s.get true = 1 := by
    have both := expect_bool s fun _ => 1
    rw [one_mul, one_mul, add_comm] at both
    exact both.symm.trans h.sum
  exact pair (by decide) (lookup_nonneg h.nonneg) (lookup_nonneg h.nonneg) sum

theorem trial {p : Rat} (h : 0 ≤ p) (h' : p ≤ 1) :
    Normalised (trial p : Pmf Bool Rat).entries :=
  pair (by decide) h (sub_nonneg.mpr h') (add_sub_cancel p 1)

/-! ## Comparison with a continuous sample -/

section

variable {F : Cumulative} {x : Affine}

theorem shares_of_belowEntry {e : Double × Rat} {shares : List (Bool × Rat)}
    (h : belowEntry F x e = .ok shares) :
    ∃ p, x.cumulative? F e.1.toFloat = some p ∧
      shares = [(true, e.2 * exactValue p), (false, e.2 * (1 - exactValue p))] := by
  cases hp : x.cumulative? F e.1.toFloat with
  | none =>
    rw [belowEntry_of_none hp] at h
    cases h
  | some p =>
    rw [belowEntry_of_some hp] at h
    cases h
    refine ⟨p, rfl, ?_⟩
    show [(true, e.2 * (0 + exactValue p)), (false, e.2 * (0 + (1 - exactValue p)))] = _
    rw [zero_add, zero_add]

/-- the shares of the recorded doubles have their masses -/
theorem massOf_shares {es : List (Double × Rat)} {shares : List (List (Bool × Rat))}
    (h : es.mapM (belowEntry F x) = .ok shares) : massOf shares.flatten = massOf es := by
  have results := forall₂_of_mapM h
  clear h
  induction results with
  | nil => rfl
  | @cons e first es rest he _ ih =>
    obtain ⟨p, -, rfl⟩ := shares_of_belowEntry he
    show massOf ((true, e.2 * exactValue p) :: (false, e.2 * (1 - exactValue p)) ::
      rest.flatten) = _
    rw [massOf_cons, massOf_cons, massOf_cons, ih]
    ring

theorem shares_nonneg {es : List (Double × Rat)} {shares : List (List (Bool × Rat))}
    (h : es.mapM (belowEntry F x) = .ok shares) (nonneg : ∀ e ∈ es, 0 ≤ e.2)
    (proper : ∀ e ∈ es, ∀ p, x.cumulative? F e.1.toFloat = some p →
      0 ≤ exactValue p ∧ exactValue p ≤ 1) :
    ∀ f ∈ shares.flatten, 0 ≤ f.2 := by
  have results := forall₂_of_mapM h
  clear h
  induction results with
  | nil => exact fun f hf => absurd hf List.not_mem_nil
  | @cons e first es rest he _ ih =>
    obtain ⟨p, hp, rfl⟩ := shares_of_belowEntry he
    have below := ih (fun f hf => nonneg f (List.mem_cons_of_mem e hf))
      fun f hf => proper f (List.mem_cons_of_mem e hf)
    obtain ⟨low, high⟩ := proper e List.mem_cons_self p hp
    have mass := nonneg e List.mem_cons_self
    exact List.forall_mem_cons.mpr ⟨mul_nonneg mass low,
      List.forall_mem_cons.mpr ⟨mul_nonneg mass (sub_nonneg.mpr high), below⟩⟩

theorem below {s : Pmf Double Rat} {t : Pmf Bool Rat} (hs : Normalised s.entries)
    (proper : ∀ v ∈ s.values, ∀ p, x.cumulative? F v.toFloat = some p →
      0 ≤ exactValue p ∧ exactValue p ≤ 1) (h : Pmf.below F x s = .ok t) :
    Normalised t.entries := by
  unfold Pmf.below at h
  cases hm : s.entries.mapM (belowEntry F x) with
  | error n =>
    rw [hm] at h
    cases h
  | ok shares =>
    rw [hm] at h
    cases h
    have nonneg := shares_nonneg hm hs.nonneg fun e he => proper e.1 (List.mem_map_of_mem he)
    exact ofList ⟨nonneg, (massOf_shares hm).trans hs.sum⟩

theorem above {s : Pmf Double Rat} {t : Pmf Bool Rat} (hs : Normalised s.entries)
    (proper : ∀ v ∈ s.values, ∀ p, x.cumulative? F v.toFloat = some p →
      0 ≤ exactValue p ∧ exactValue p ≤ 1) (h : Pmf.above F x s = .ok t) :
    Normalised t.entries := by
  unfold Pmf.above at h
  cases hb : Pmf.below F x s with
  | error n =>
    rw [hb] at h
    cases h
  | ok u =>
    rw [hb] at h
    cases h
    exact (hs.below proper hb).not

end

end Normalised

/-! ## Selection -/

/-- a draw is not beyond the total of masses that are not negative, some of them positive -/
theorem Pmf.pickFrom_of_le [Outcome α] (u : Float) {t : Rat} {es : List (α × Rat)}
    (nonneg : ∀ e ∈ es, 0 ≤ e.2) (some : 0 < massOf es) (enough : exactValue u ≤ t + massOf es) :
    ∃ v, pickFrom u t es = .ok v := by
  induction es generalizing t with
  | nil => exact absurd some (lt_irrefl 0)
  | cons e es ih =>
    obtain ⟨v, p⟩ := e
    have first : 0 ≤ p := nonneg (v, p) List.mem_cons_self
    have rest : ∀ f ∈ es, 0 ≤ f.2 := fun f hf => nonneg f (List.mem_cons_of_mem _ hf)
    rw [massOf_cons] at some enough
    unfold pickFrom
    split
    · next skipped =>
      have zero : p = 0 := le_antisymm (of_decide_eq_true skipped) first
      rw [zero, zero_add] at some enough
      exact ih rest some enough
    · split
      · exact ⟨v, rfl⟩
      · next _ missed =>
        have beyond : t + p < exactValue u :=
          lt_of_not_ge fun reached => missed (decide_eq_true reached)
        have more : 0 < massOf es := by linarith
        exact ih rest more (by show exactValue u ≤ t + p + massOf es; linarith)

theorem Pmf.pick_of_normalised [Outcome α] {s : Pmf α Rat} (h : Normalised s.entries) {u : Float}
    (hu : 0.0 ≤ u) (hu' : u < 1.0) : ∃ v, s.pick u = .ok v := by
  refine pickFrom_of_le u h.nonneg (h.sum ▸ one_pos) ?_
  rw [h.sum]
  exact (exactValue_lt_one hu hu').le.trans_eq (zero_add 1).symm

/-! ## Applications -/

/-- the doubles that an application takes for probabilities: the parameter of a discrete family,
and the cumulative probabilities that a comparison is given -/
def Operation.probabilities {M : Type} [Mass M] (F : Cumulative) (op : Operation)
    (vs : List (Value M)) : List Float :=
  match op, vs with
  | .bernoulli, [.float s] | .flip, [.float s] => (s.single.map Double.toFloat).toList
  | op, vs => (op.queries vs).filterMap fun q => F q.1 q.2

/-- an application that takes nothing for a probability but doubles of the unit interval -/
def Proper {M : Type} [Mass M] (F : Cumulative) (a : Operation × List (Value M)) : Prop :=
  ∀ p ∈ a.1.probabilities F a.2, 0.0 ≤ p ∧ p ≤ 1.0

namespace Value

open Normalised (ofList pair)

/-- a value that records a distribution, or would when it is sampled -/
def Normal : Value Rat → Prop
  | .bool s => Normalised s.entries
  | .int s => Normalised s.entries
  | .float s => Normalised s.entries
  | .distribution (.bernoulli p) | .distribution (.flip p) => 0.0 ≤ p ∧ p ≤ 1.0
  | _ => True

variable {F : Cumulative} {l r v w : Value Rat}

theorem normal_literal (l : Literal) : (l.toValue : Value Rat).Normal := by
  cases l <;> exact Normalised.certain _

theorem normal_arith {op : Arith} (hl : l.Normal) (hr : r.Normal) (h : l.arith op r = .ok v) :
    v.Normal := by
  obtain ⟨s, t, c, rfl, rfl, hc, rfl⟩ | ⟨s, t, c, rfl, rfl, hc, rfl⟩ | ⟨x, t, -, rfl⟩ :=
    arith_eq_ok h
  · exact Normalised.tryCombine hl hr hc
  · exact Normalised.tryCombine hl hr hc
  · trivial

theorem normal_connective {op : Operation} {f : Bool → Bool → Bool} (hl : l.Normal)
    (hr : r.Normal) (h : connective op (fun s t => s.combine t f) l r = .ok v) : v.Normal := by
  obtain ⟨s, t, rfl, rfl, rfl⟩ := connective_eq_ok h
  exact Normalised.combine _ hl hr

theorem normal_not (hw : w.Normal) (h : w.not = .ok v) : v.Normal := by
  obtain ⟨s, rfl, rfl⟩ := not_eq_ok h
  exact Normalised.not hw

theorem normal_equal (hl : l.Normal) (hr : r.Normal) (h : l.equal r = .ok v) : v.Normal := by
  unfold Value.equal at h
  split at h <;> cases h
  · exact Normalised.combine _ hl hr
  · exact Normalised.combine _ hl hr
  · exact Normalised.combine _ hl hr
  · exact pair (by decide) zero_le_one le_rfl (add_zero 1)
  · exact pair (by decide) zero_le_one le_rfl (add_zero 1)

/-- the cumulative probabilities that a comparison is given are numbers of the unit interval -/
theorem cumulative_mem_unit {x : Affine} {s : Pmf Double Rat}
    (proper : ∀ p ∈ (s.values.map fun n => (x.law, x.point n.toFloat)).filterMap
      fun q : Law × Float => F q.1 q.2, 0.0 ≤ p ∧ p ≤ 1.0) :
    ∀ v ∈ s.values, ∀ p, x.cumulative? F v.toFloat = some p →
      0 ≤ exactValue p ∧ exactValue p ≤ 1 := by
  intro v hv p hp
  obtain ⟨low, high⟩ := proper p (List.mem_filterMap.mpr ⟨_, List.mem_map_of_mem hv, hp⟩)
  exact exactValue_mem_unit low high

/-- what compares a continuous sample has to give distributions where it is asked -/
theorem normal_comparison {op : Operation} {f : Int64 → Int64 → Bool} {g : Double → Double → Bool}
    {left right : Affine → Pmf Double Rat → Except Float (Pmf Bool Rat)} (hl : l.Normal)
    (hr : r.Normal)
    (onLeft : ∀ x t c, l = .continuous x → r = .float t → left x t = .ok c → Normalised c.entries)
    (onRight : ∀ x s c, l = .float s → r = .continuous x → right x s = .ok c → Normalised c.entries)
    (h : comparison op (fun s t => s.combine t f) (fun s t => s.combine t g) left right l r =
      .ok v) : v.Normal := by
  obtain ⟨c, rfl, numbers | numbers | ⟨x, t, hx, ht, asked⟩ | ⟨s, x, hs, hx, asked⟩⟩ :=
    comparison_eq_ok h
  · obtain ⟨s, t, rfl, rfl, rfl⟩ := numbers
    exact Normalised.combine _ hl hr
  · obtain ⟨s, t, rfl, rfl, rfl⟩ := numbers
    exact Normalised.combine _ hl hr
  · exact onLeft x t c hx ht asked
  · exact onRight x s c hs hx asked

theorem normal_lessThan (hl : l.Normal) (hr : r.Normal) (proper : Proper F (.lessThan, [l, r]))
    (h : l.lessThan F r = .ok v) : v.Normal := by
  refine normal_comparison hl hr ?_ ?_ h
  · rintro x t c rfl rfl asked
    exact Normalised.below hr (cumulative_mem_unit proper) asked
  · rintro x s c rfl rfl asked
    exact Normalised.above hl (cumulative_mem_unit proper) asked

theorem normal_greaterThan (hl : l.Normal) (hr : r.Normal)
    (proper : Proper F (.greaterThan, [l, r])) (h : l.greaterThan F r = .ok v) : v.Normal := by
  refine normal_comparison hl hr ?_ ?_ h
  · rintro x t c rfl rfl asked
    exact Normalised.above hr (cumulative_mem_unit proper) asked
  · rintro x s c rfl rfl asked
    exact Normalised.below hl (cumulative_mem_unit proper) asked

theorem normal_bernoulli (proper : Proper F (.bernoulli, [w])) (h : w.bernoulli = .ok v) :
    v.Normal := by
  obtain ⟨s, p, rfl, taken, rfl⟩ := ofParameter_eq_ok h
  exact proper p taken

theorem normal_flip (proper : Proper F (.flip, [w])) (h : w.flip = .ok v) : v.Normal := by
  obtain ⟨s, p, rfl, taken, rfl⟩ := ofParameter_eq_ok h
  exact proper p taken

theorem normal_ofParameters {family : Family} {first second : String}
    {build : Float → Float → Law} (h : ofParameters family first second build l r = .ok v) :
    v.Normal := by
  obtain ⟨x, y, rfl⟩ := ofParameters_eq_ok h
  trivial

theorem normal_sample (hw : w.Normal) (h : w.sample = .ok v) : v.Normal := by
  cases w with
  | distribution d => cases d with
    | bernoulli p =>
      cases h
      obtain ⟨low, high⟩ := exactValue_mem_unit hw.1 hw.2
      exact pair (by decide) low (sub_nonneg.mpr high) (add_sub_cancel _ 1)
    | flip p =>
      cases h
      obtain ⟨low, high⟩ := exactValue_mem_unit hw.1 hw.2
      exact Normalised.trial low high
    | continuous law =>
      cases h
      trivial
  | _ => cases h

theorem normal_observe {σ : Type} [Source σ] {s : σ} (hr : r.Normal)
    (h : (l.observe r s).1 = .ok v) : v.Normal := by
  obtain rfl := observe_eq_ok h
  exact hr

end Value

/-- a proper application of distributions gives distributions -/
theorem Operation.normal_apply {σ : Type} [Source σ] {F : Cumulative} (op : Operation)
    (vs : List (Value Rat)) (s : σ) (v : Value Rat) (proper : Proper F (op, vs))
    (normal : ∀ w ∈ vs, w.Normal) (h : (op.apply F vs s).1 = .ok v) : v.Normal := by
  unfold apply at h
  split at h
  · exact Value.normal_not (normal _ (by simp)) h
  · exact Value.normal_bernoulli proper h
  · exact Value.normal_flip proper h
  · exact Value.normal_sample (normal _ (by simp)) h
  · exact Value.normal_arith (normal _ (by simp)) (normal _ (by simp)) h
  · exact Value.normal_arith (normal _ (by simp)) (normal _ (by simp)) h
  · exact Value.normal_arith (normal _ (by simp)) (normal _ (by simp)) h
  · exact Value.normal_arith (normal _ (by simp)) (normal _ (by simp)) h
  · exact Value.normal_connective (normal _ (by simp)) (normal _ (by simp)) h
  · exact Value.normal_connective (normal _ (by simp)) (normal _ (by simp)) h
  · exact Value.normal_equal (normal _ (by simp)) (normal _ (by simp)) h
  · exact Value.normal_lessThan (normal _ (by simp)) (normal _ (by simp)) proper h
  · exact Value.normal_greaterThan (normal _ (by simp)) (normal _ (by simp)) proper h
  · exact Value.normal_ofParameters h
  · exact Value.normal_ofParameters h
  · exact Value.normal_observe (normal _ (by simp)) h
  · cases h

/-! ## Sessions -/

section

variable {σ : Type} [Source σ]

/-- **Normalisation is an invariant.**  In a session whose applications are proper, every mass
function of booleans, integers or doubles is a distribution: no mass is negative and the total is
one.  Hence an observation of any truth value of the session, with a draw below one, lets its
result pass or is rejected. -/
theorem masses_normalised (F : Cumulative) (calls : List Call) (start : σ)
    (proper : ∀ a ∈ Session.applications F calls (.start start : Session Rat σ), Proper F a) :
    (∀ s : Pmf Bool Rat, .bool s ∈ (Session.run F calls (.start start) : Session Rat σ).values →
      (∀ e ∈ s.entries, 0 ≤ e.2) ∧ s.total = 1) ∧
    (∀ s : Pmf Int64 Rat, .int s ∈ (Session.run F calls (.start start) : Session Rat σ).values →
      (∀ e ∈ s.entries, 0 ≤ e.2) ∧ s.total = 1) ∧
    (∀ s : Pmf Double Rat, .float s ∈ (Session.run F calls (.start start) : Session Rat σ).values →
      (∀ e ∈ s.entries, 0 ≤ e.2) ∧ s.total = 1) ∧
    (∀ s : Pmf Bool Rat, .bool s ∈ (Session.run F calls (.start start) : Session Rat σ).values →
      ∀ (r : Value Rat) (τ : Type) [Source τ] (q : τ),
        0.0 ≤ (Source.next q).1 → (Source.next q).1 < 1.0 →
          ((Value.bool s).observe r q).1 = .ok r ∨
            ((Value.bool s).observe r q).1 = .error .observationFailed) := by
  have normal := Session.run_values Value.normal_literal
    (fun op vs s v => Operation.normal_apply op vs s v) calls
    (fun v hv => absurd hv List.not_mem_nil) proper
  refine ⟨?_, ?_, ?_, ?_⟩
  · intro s hs
    obtain ⟨nonneg, sum⟩ := normal _ hs
    exact ⟨nonneg, s.total_eq_massOf.trans sum⟩
  · intro s hs
    obtain ⟨nonneg, sum⟩ := normal _ hs
    exact ⟨nonneg, s.total_eq_massOf.trans sum⟩
  · intro s hs
    obtain ⟨nonneg, sum⟩ := normal _ hs
    exact ⟨nonneg, s.total_eq_massOf.trans sum⟩
  · intro s hs r τ _ q low high
    obtain ⟨b, hb⟩ := Pmf.pick_of_normalised (normal _ hs) low high
    unfold Value.observe
    dsimp only
    rw [hb]
    cases b with
    | true => exact .inl rfl
    | false => exact .inr rfl

/-- a coin with itself, and a point of the unit interval below a number -/
def coinsAndPoint : List Call :=
  [.constant (.float 0.25), .apply .flip [0], .apply .sample [1], .apply .or [2, 2],
    .constant (.float 1.0), .apply .beta [4, 4], .apply .sample [5], .apply .lessThan [6, 0],
    .apply .equal [3, 7]]

theorem masses_normalised_coinsAndPoint :
    (∀ a ∈ Session.applications Law.cumulative coinsAndPoint
      (.start ⟨fun _ => 0.0, 0⟩ : Session Rat Sequence), Proper Law.cumulative a) ∧
    ∀ s : Pmf Bool Rat, .bool s ∈ (Session.run Law.cumulative coinsAndPoint
      (.start ⟨fun _ => 0.0, 0⟩) : Session Rat Sequence).values →
        (∀ e ∈ s.entries, 0 ≤ e.2) ∧ s.total = 1 := by
  have proper : ∀ a ∈ Session.applications Law.cumulative coinsAndPoint
      (.start ⟨fun _ => 0.0, 0⟩ : Session Rat Sequence), Proper Law.cumulative a := by
    unfold Proper
    decide +kernel
  exact ⟨proper, (masses_normalised Law.cumulative coinsAndPoint _ proper).1⟩

end

end Chance
