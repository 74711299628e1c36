import Chance.Proofs.Building
import Chance.Proofs.Drift
import Mathlib.Data.Finset.Card
import Mathlib.Data.Rat.Floor

/-!
# Weighted selection

How many of the equally likely draws select an outcome, for masses in exact arithmetic.  An outcome
is selected by the draws between two running totals, the lower one left out unless it is zero.  The
totals need not be draws themselves, so that the number of these draws can differ from the mass by
one, but not by more.

* `pickFrom_passed`, `pickFrom_within`   a part of the walk that is passed, or that has the outcome;
* `selects_iff`           the draws that select an outcome;
* `reached`, `le_reached`, `reached_le`   how many draws a total reaches;
* `interval_near`         how many draws lie between two totals;
* `hits_near`             how many draws select an outcome;
* `draws_proportional`    selections and observations.
-/

namespace Chance

variable {α : Type}

/-! ## Walks -/

theorem massOf_nonneg {es : List (α × Rat)} (h : ∀ e ∈ es, 0 ≤ e.2) : 0 ≤ massOf es := by
  induction es with
  | nil => exact le_refl 0
  | cons e es ih =>
    obtain ⟨first, rest⟩ := List.forall_mem_cons.mp h
    rw [massOf_cons]
    exact add_nonneg first (ih rest)

theorem massOf_append (es fs : List (α × Rat)) : massOf (es ++ fs) = massOf es + massOf fs :=
  expect_append es fs _

namespace Pmf

variable {u : Float} {t p : Rat} {v : α} {es rest : List (α × Rat)}

theorem pickFrom_skip (h : p ≤ 0) : pickFrom u t ((v, p) :: es) = pickFrom u t es :=
  if_pos (decide_eq_true h)

theorem pickFrom_hit (h : 0 < p) (hit : exactValue u ≤ t + p) :
    pickFrom u t ((v, p) :: es) = .ok v := by
  have mass : ¬ Mass.nonpositive p = true := fun none => not_le_of_gt h (of_decide_eq_true none)
  rw [pickFrom, if_neg mass]
  exact if_pos (decide_eq_true hit)

theorem pickFrom_miss (h : 0 < p) (miss : t + p < exactValue u) :
    pickFrom u t ((v, p) :: es) = pickFrom u (t + p) es := by
  have mass : ¬ Mass.nonpositive p = true := fun none => not_le_of_gt h (of_decide_eq_true none)
  rw [pickFrom, if_neg mass]
  exact if_neg fun hit => not_le_of_gt miss (of_decide_eq_true hit)

/-- a walk ends at an entry that it goes through, and that has mass -/
theorem mem_of_pickFrom (h : pickFrom u t es = .ok v) : ∃ p, (v, p) ∈ es ∧ 0 < p := by
  induction es generalizing t with
  | nil => cases h
  | cons e es ih =>
    obtain ⟨w, p⟩ := e
    have later {t : Rat} (h : pickFrom u t es = .ok v) : ∃ q, (v, q) ∈ (w, p) :: es ∧ 0 < q := by
      obtain ⟨q, hq, some⟩ := ih h
      exact ⟨q, List.mem_cons_of_mem _ hq, some⟩
    rcases le_or_gt p 0 with none | some
    · exact later (pickFrom_skip none ▸ h)
    · rcases le_or_gt (exactValue u) (t + p) with hit | miss
      · cases (pickFrom_hit some hit).symm.trans h
        exact ⟨p, List.mem_cons_self, some⟩
      · exact later (pickFrom_miss some miss ▸ h)

/-- entries whose total lies before the draw are passed -/
theorem pickFrom_passed (nonneg : ∀ e ∈ es, 0 ≤ e.2)
    (before : massOf es = 0 ∨ t + massOf es < exactValue u) :
    pickFrom u t (es ++ rest) = pickFrom u (t + massOf es) rest := by
  induction es generalizing t with
  | nil =>
    show _ = pickFrom u (t + 0) rest
    rw [add_zero]
    rfl
  | cons e es ih =>
    obtain ⟨v, p⟩ := e
    obtain ⟨first, others⟩ := List.forall_mem_cons.mp nonneg
    have sum := massOf_nonneg others
    rw [massOf_cons] at before ⊢
    rw [List.cons_append]
    rcases first.eq_or_lt with none | some
    · have zero : p = 0 := none.symm
      subst zero
      rw [zero_add] at before ⊢
      rw [pickFrom_skip (le_refl 0), ih others before]
    · change 0 < p at some
      have beyond : t + (p + massOf es) < exactValue u :=
        before.resolve_left fun nothing => by linarith
      rw [← add_assoc] at beyond ⊢
      rw [pickFrom_miss some (by linarith), ih others (.inr beyond)]

/-- entries whose total reaches the draw have the outcome -/
theorem pickFrom_within (nonneg : ∀ e ∈ es, 0 ≤ e.2) (some : 0 < massOf es)
    (within : exactValue u ≤ t + massOf es) :
    ∃ e ∈ es, pickFrom u t (es ++ rest) = .ok e.1 := by
  induction es generalizing t with
  | nil => exact absurd some (lt_irrefl 0)
  | cons e es ih =>
    obtain ⟨v, p⟩ := e
    obtain ⟨first, others⟩ := List.forall_mem_cons.mp nonneg
    rw [massOf_cons] at some within
    rw [List.cons_append]
    rcases first.eq_or_lt with none | positive
    · have zero : p = 0 := none.symm
      subst zero
      rw [zero_add] at some within
      obtain ⟨f, hf, found⟩ := ih others some within
      exact ⟨f, List.mem_cons_of_mem _ hf, (pickFrom_skip (le_refl 0)).trans found⟩
    · change 0 < p at positive
      rcases le_or_gt (exactValue u) (t + p) with hit | miss
      · exact ⟨(v, p), List.mem_cons_self, pickFrom_hit positive hit⟩
      · obtain ⟨f, hf, found⟩ := ih others (by linarith) (t := t + p) (by linarith)
        exact ⟨f, List.mem_cons_of_mem _ hf, (pickFrom_miss positive miss).trans found⟩

/-! ## Selections -/

variable [Outcome α] {s : Pmf α Rat}

/-- does a draw select an outcome? -/
def selects (s : Pmf α Rat) (v : α) (u : Float) : Bool :=
  match s.pick u with
  | .ok w => Outcome.same w v
  | .error _ => false

theorem selects_of_pick {w : α} (h : s.pick u = .ok w) (v : α) :
    s.selects v u = Outcome.same w v := by
  unfold selects
  rw [h]

theorem not_selects_of_error {m : Rat} (h : s.pick u = .error m) (v : α) :
    ¬ s.selects v u = true := by
  unfold selects
  rw [h]
  exact Bool.false_ne_true

/-- a walk through other outcomes does not select this one -/
theorem not_selects (other : ∀ e ∈ es, ¬ Outcome.same e.1 v = true)
    (h : s.pick u = pickFrom u t es) : ¬ s.selects v u = true := by
  cases found : pickFrom u t es with
  | ok w =>
    obtain ⟨q, hw, -⟩ := mem_of_pickFrom found
    rw [selects_of_pick (h.trans found)]
    exact other (w, q) hw
  | error m => exact not_selects_of_error (h.trans found) v

/-- an outcome without mass is never selected -/
theorem not_selects_of_get (h : s.get v = 0) (u : Float) : ¬ s.selects v u = true := by
  cases found : s.pick u with
  | ok w =>
    obtain ⟨q, hw, some⟩ := mem_of_pickFrom found
    rw [selects_of_pick found]
    intro same
    have mass : s.get v = q := (s.get_congr (Outcome.same_iff.mp same)).symm.trans (get_of_mem hw)
    exact some.ne (h.symm.trans mass)
  | error m => exact not_selects_of_error found v

/-- the draws between the running totals before and after an outcome select it -/
theorem selects_iff {before after : List (α × Rat)} (split : s.entries = before ++ (v, p) :: after)
    (nonneg : ∀ e ∈ s.entries, 0 ≤ e.2) :
    s.selects v u = true ↔ 0 < p ∧ (massOf before = 0 ∨ massOf before < exactValue u) ∧
      exactValue u ≤ massOf before + p := by
  have distinct := s.nodup
  rw [split, List.map_append, List.map_cons, List.nodup_middle, List.nodup_cons,
    ← List.map_append] at distinct
  have other (e : α × Rat) (he : e ∈ before ++ after) : ¬ Outcome.same e.1 v = true := fun same =>
    distinct.1 (Outcome.same_iff.mp same ▸ List.mem_map_of_mem he)
  have first : ∀ e ∈ before, 0 ≤ e.2 := fun e he =>
    nonneg e (split ▸ List.mem_append_left _ he)
  have last : ∀ e ∈ after, ¬ Outcome.same e.1 v = true := fun e he =>
    other e (List.mem_append_right _ he)
  have start : s.pick u = pickFrom u 0 (before ++ (v, p) :: after) := by
    rw [← split]
    rfl
  by_cases passed : massOf before = 0 ∨ massOf before < exactValue u
  · rw [pickFrom_passed first (by rwa [zero_add]), zero_add] at start
    rcases le_or_gt p 0 with none | positive
    · rw [pickFrom_skip none] at start
      exact iff_of_false (not_selects last start) fun h => absurd h.1 (not_lt_of_ge none)
    · rcases le_or_gt (exactValue u) (massOf before + p) with hit | miss
      · rw [pickFrom_hit positive hit] at start
        rw [selects_of_pick start]
        exact iff_of_true (Outcome.same_iff.mpr rfl) ⟨positive, passed, hit⟩
      · rw [pickFrom_miss positive miss] at start
        exact iff_of_false (not_selects last start) fun h => absurd h.2.2 (not_le_of_gt miss)
  · rw [not_or, not_lt] at passed
    have some : 0 < massOf before := (massOf_nonneg first).lt_of_ne (Ne.symm passed.1)
    have within : exactValue u ≤ 0 + massOf before := by
      rw [zero_add]
      exact passed.2
    have stopped : ∃ e ∈ before, pickFrom u 0 (before ++ (v, p) :: after) = .ok e.1 :=
      pickFrom_within first some within
    obtain ⟨e, he, found⟩ := stopped
    refine iff_of_false ?_ fun h => h.2.1.elim passed.1 (not_lt_of_ge passed.2)
    rw [selects_of_pick (start.trans found)]
    exact other e (List.mem_append_left _ he)

end Pmf

/-! ## Draws -/

/-- the draw `k * 2 ^ -53` -/
def gridDraw (k : Nat) : Float := uniformDouble k.toUInt64

theorem exactValue_gridDraw {k : Nat} (h : k < 2 ^ 53) : exactValue (gridDraw k) = k / 2 ^ 53 := by
  have word : k.toUInt64.toNat = k := by
    rw [Nat.toUInt64, UInt64.toNat_ofNat']
    omega
  have value := (uniformDouble_spec (k := k.toUInt64) (by rwa [word])).2
  rwa [word] at value

section

variable {n : Nat} {t p : Rat}

/-- how many of `n` draws a total reaches -/
def reached (n : Nat) (t : Rat) : Nat :=
  ((Finset.range n).filter fun k : Nat => (k : Rat) / n ≤ t).card

theorem le_reached (pos : 0 < n) (h : t ≤ 1) : t * n ≤ reached n t := by
  have positive : (0 : Rat) < n := Nat.cast_pos.mpr pos
  have sub : Finset.range ⌈t * n⌉₊ ⊆ (Finset.range n).filter fun k : Nat => (k : Rat) / n ≤ t := by
    intro k hk
    have less : (k : Rat) < t * n := Nat.lt_ceil.mp (Finset.mem_range.mp hk)
    have small : (k : Rat) < n := less.trans_le (mul_le_of_le_one_left positive.le h)
    exact Finset.mem_filter.mpr ⟨Finset.mem_range.mpr (Nat.cast_lt.mp small),
      (div_le_iff₀ positive).mpr less.le⟩
  have many := Finset.card_le_card sub
  rw [Finset.card_range] at many
  exact (Nat.le_ceil _).trans (Nat.cast_le.mpr many)

theorem reached_le (pos : 0 < n) (h : 0 ≤ t) : (reached n t : Rat) ≤ t * n + 1 := by
  have positive : (0 : Rat) < n := Nat.cast_pos.mpr pos
  have sub : (Finset.range n).filter (fun k : Nat => (k : Rat) / n ≤ t) ⊆
      Finset.range (⌊t * n⌋₊ + 1) := by
    intro k hk
    have most := (div_le_iff₀ positive).mp (Finset.mem_filter.mp hk).2
    exact Finset.mem_range.mpr (Nat.lt_succ_of_le (Nat.le_floor most))
  have few := Finset.card_le_card sub
  rw [Finset.card_range] at few
  have floor : ((⌊t * n⌋₊ + 1 : Nat) : Rat) ≤ t * n + 1 := by
    rw [Nat.cast_add, Nat.cast_one]
    exact add_le_add_left (Nat.floor_le (mul_nonneg h positive.le)) 1
  exact (Nat.cast_le.mpr few).trans floor

/-- the draws between two totals, the lower one left out unless it is zero -/
theorem interval_near (pos : 0 < n) (low : 0 ≤ t) (positive : 0 < p) (high : t + p ≤ 1) :
    |((((Finset.range n).filter fun k : Nat =>
      (t = 0 ∨ t < (k : Rat) / n) ∧ (k : Rat) / n ≤ t + p).card : Nat) : Rat) - p * n| ≤ 1 := by
  have least := le_reached pos high
  have most := reached_le pos (add_nonneg low positive.le)
  rw [add_mul] at least most
  rcases low.eq_or_lt with zero | above
  · subst zero
    have all : ((Finset.range n).filter fun k : Nat =>
        ((0 : Rat) = 0 ∨ 0 < (k : Rat) / n) ∧ (k : Rat) / n ≤ 0 + p).card = reached n (0 + p) := by
      unfold reached
      congr 1
      exact Finset.filter_congr fun k _ => and_iff_right (.inl rfl)
    rw [all, abs_le]
    constructor <;> linarith
  · have least' := le_reached pos (by linarith : t ≤ 1)
    have most' := reached_le pos low
    -- the draws up to the upper total are those up to the lower one and those between
    have parts : reached n t + ((Finset.range n).filter fun k : Nat =>
        (t = 0 ∨ t < (k : Rat) / n) ∧ (k : Rat) / n ≤ t + p).card = reached n (t + p) := by
      unfold reached
      rw [← Finset.card_filter_add_card_filter_not (s := (Finset.range n).filter fun k : Nat =>
        (k : Rat) / n ≤ t + p) fun k : Nat => (k : Rat) / n ≤ t]
      rw [Finset.filter_filter, Finset.filter_filter]
      congr 2
      · refine Finset.filter_congr fun k _ => ?_
        constructor
        · intro h
          exact ⟨by linarith, h⟩
        · exact And.right
      · refine Finset.filter_congr fun k _ => ?_
        rw [not_le, and_comm, or_iff_right above.ne']
    have sum := congrArg (Nat.cast (R := Rat)) parts
    rw [Nat.cast_add] at sum
    rw [abs_le]
    constructor <;> linarith

end

namespace Pmf

variable [Outcome α] {s : Pmf α Rat}

/-- how many draws select an outcome -/
def hits (s : Pmf α Rat) (v : α) : Nat :=
  ((Finset.range (2 ^ 53)).filter fun k => s.selects v (gridDraw k) = true).card

theorem hits_eq_zero {v : α} (h : s.get v = 0) : s.hits v = 0 := by
  unfold hits
  rw [Finset.card_eq_zero]
  exact Finset.filter_eq_empty_iff.mpr fun k _ => not_selects_of_get h (gridDraw k)

theorem pick_of_total (nonneg : ∀ e ∈ s.entries, 0 ≤ e.2) (total : s.total = 1) {k : Nat}
    (h : k < 2 ^ 53) : ∃ e ∈ s.entries, s.pick (gridDraw k) = .ok e.1 := by
  have few : (k : Rat) < 2 ^ 53 := by exact_mod_cast h
  rw [total_eq_massOf] at total
  have within : exactValue (gridDraw k) ≤ 0 + massOf s.entries := by
    rw [exactValue_gridDraw h, total, zero_add, div_le_one (by norm_num)]
    exact few.le
  have stopped : ∃ e ∈ s.entries, pickFrom (gridDraw k) 0 (s.entries ++ []) = .ok e.1 :=
    pickFrom_within nonneg (total ▸ one_pos) within
  rwa [List.append_nil] at stopped

-- the number of draws is kept a variable, so that nothing enumerates them
/-- the draws that select an outcome, counted against its mass -/
theorem card_selects_near (nonneg : ∀ e ∈ s.entries, 0 ≤ e.2) (total : s.total = 1) {v : α}
    {p : Rat} (recorded : (v, p) ∈ s.entries) (positive : 0 < p) {n : Nat} (grid : n = 2 ^ 53) :
    |((((Finset.range n).filter fun k => s.selects v (gridDraw k) = true).card : Nat) : Rat) -
      p * n| ≤ 1 := by
  obtain ⟨before, after, split⟩ := List.append_of_mem recorded
  rw [total_eq_massOf, split, massOf_append, massOf_cons] at total
  have low : 0 ≤ massOf before := massOf_nonneg fun e he =>
    nonneg e (split ▸ List.mem_append_left _ he)
  have others : 0 ≤ massOf after := massOf_nonneg fun e he =>
    nonneg e (split ▸ List.mem_append_right _ (List.mem_cons_of_mem _ he))
  have value {k : Nat} (h : k < n) : exactValue (gridDraw k) = (k : Rat) / n := by
    rw [exactValue_gridDraw (grid ▸ h), grid, Nat.cast_pow, Nat.cast_ofNat]
  have between : ((Finset.range n).filter fun k => s.selects v (gridDraw k) = true) =
      (Finset.range n).filter fun k : Nat =>
        (massOf before = 0 ∨ massOf before < (k : Rat) / n) ∧
          (k : Rat) / n ≤ massOf before + p := by
    refine Finset.filter_congr fun k hk => ?_
    rw [selects_iff split nonneg, value (Finset.mem_range.mp hk), and_iff_right positive]
  rw [between]
  exact interval_near (grid ▸ Nat.two_pow_pos 53) low positive (by linarith)

/-- the number of draws that select an outcome differs from its mass by one draw at most -/
theorem hits_near (nonneg : ∀ e ∈ s.entries, 0 ≤ e.2) (total : s.total = 1) (v : α) :
    |(s.hits v : Rat) - s.get v * 2 ^ 53| ≤ 1 := by
  by_cases nothing : s.get v = 0
  · rw [hits_eq_zero nothing, nothing, Nat.cast_zero, zero_mul, sub_zero, abs_zero]
    exact zero_le_one
  · have recorded : s.records v = true :=
      Decidable.byContradiction fun fresh => nothing (get_of_not_records fresh)
    obtain ⟨⟨w, p⟩, he, key⟩ := List.mem_map.mp (records_iff.mp recorded)
    have mass : s.get v = p := (s.get_congr key).symm.trans (get_of_mem he)
    have positive : 0 < p := (nonneg _ he).lt_of_ne fun zero => nothing (mass.trans zero.symm)
    have near := card_selects_near nonneg total he positive (n := 2 ^ 53) rfl
    have same (u : Float) : s.selects v u = s.selects w u := by
      unfold selects
      cases s.pick u with
      | ok x => exact decide_eq_decide.mpr (by rw [key])
      | error m => rfl
    unfold hits
    simp only [same, mass]
    rwa [Nat.cast_pow, Nat.cast_ofNat] at near

/-! ## Observations -/

/-- an observation lets its result pass where the draw selects `true` -/
theorem isOk_observe {σ : Type} [Source σ] (s : Pmf Bool Rat) (r : Value Rat) (source : σ) :
    ((Value.bool s).observe r source).1.isOk = s.selects true (Source.next source).1 := by
  unfold Value.observe selects
  dsimp only
  cases s.pick (Source.next source).1 with
  | ok b => cases b <;> rfl
  | error m => rfl

/-- how many draws let an observation pass -/
def accepted (s : Pmf Bool Rat) (r : Value Rat) : Nat :=
  ((Finset.range (2 ^ 53)).filter fun k =>
    ((Value.bool s).observe r (Sequence.mk (fun _ => gridDraw k) 0)).1.isOk = true).card

theorem accepted_eq_hits (s : Pmf Bool Rat) (r : Value Rat) : s.accepted r = s.hits true := by
  unfold accepted hits
  simp only [isOk_observe]
  rfl

/-- **Selection honours the masses.**  Each draw selects an outcome.  The number of draws that
select an outcome differs from what its mass asks for by one at most, and is zero where there is no
mass; the draws that let an observation pass are counted likewise. -/
theorem draws_proportional (nonneg : ∀ e ∈ s.entries, 0 ≤ e.2) (total : s.total = 1) :
    (∀ k < 2 ^ 53, exactValue (gridDraw k) = k / 2 ^ 53 ∧
      ∃ v ∈ s.values, s.pick (gridDraw k) = .ok v) ∧
    (∀ v, |(s.hits v : Rat) - s.get v * 2 ^ 53| ≤ 1 ∧ (s.get v = 0 → s.hits v = 0)) ∧
    (∀ (c : Pmf Bool Rat) (r : Value Rat), (∀ e ∈ c.entries, 0 ≤ e.2) → c.total = 1 →
      |(c.accepted r : Rat) - c.get true * 2 ^ 53| ≤ 1) := by
  refine ⟨fun k hk => ⟨exactValue_gridDraw hk, ?_⟩,
    fun v => ⟨hits_near nonneg total v, hits_eq_zero⟩, fun c r masses sum => ?_⟩
  · obtain ⟨e, he, found⟩ := pick_of_total nonneg total hk
    exact ⟨e.1, List.mem_map_of_mem he, found⟩
  · rw [accepted_eq_hits]
    exact hits_near masses sum true

/-- of three outcomes one has no mass; the other two have masses that no draw meets -/
def thirds : Pmf Int64 Rat := ((empty.add 1 (1 / 3)).add 2 0).add 3 (2 / 3)

theorem draws_proportional_thirds :
    (∃ v ∈ thirds.values, thirds.pick (gridDraw 0) = .ok v) ∧
    |(thirds.hits 1 : Rat) - 1 / 3 * 2 ^ 53| ≤ 1 ∧ thirds.hits 2 = 0 ∧
    |(thirds.hits 3 : Rat) - 2 / 3 * 2 ^ 53| ≤ 1 := by
  have nonneg : ∀ e ∈ thirds.entries, 0 ≤ e.2 := by decide +kernel
  have total : thirds.total = 1 := by decide +kernel
  have masses : thirds.get 1 = 1 / 3 ∧ thirds.get 2 = 0 ∧ thirds.get 3 = 2 / 3 := by
    decide +kernel
  obtain ⟨one, two, three⟩ := masses
  obtain ⟨picks, counts, -⟩ := draws_proportional nonneg total
  refine ⟨(picks 0 (by decide)).2, ?_, (counts 2).2 two, ?_⟩
  · rw [← one]
    exact (counts 1).1
  · rw [← three]
    exact (counts 3).1

end Pmf

end Chance
