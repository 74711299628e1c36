import Chance.Proofs.DoubleMasses

/-!
# The drift of double masses

In doubles the total of a mass function drifts away from one.  Each connective rounds a few times,
so that the drift is bounded by the number of connectives.  The total of a coin, and of a constant,
is rounded to one.  Hence a draw selects an outcome unless it is among the last few below one.

* `drift`                 how far a sum can be from one;
* `Drifts`                a mass function whose sum is near one;
* `Drifts.trial`, `not`, `combine`   what becomes of the drift;
* `Pmf.pick_of_drifts`    a draw that is not beyond the rounded sum selects an outcome;
* `uniformDouble_spec`    the draws as numbers;
* `reached_of_drifts`     those that are not beyond the rounded sum.
-/

namespace Chance

variable {α β : Type}

/-! ## The drift -/

/-- how far a sum of masses can be from one after a number of connectives -/
def drift (m : Nat) : Rat := (13 * m + 1) / 2 ^ 54

theorem drift_zero : drift 0 = 1 / 2 ^ 54 := by
  norm_num [drift]

theorem drift_succ (m n : Nat) : drift (m + n + 1) = drift m + drift n + 12 / 2 ^ 54 := by
  unfold drift
  push_cast
  ring

theorem drift_mono {m n : Nat} (h : m ≤ n) : drift m ≤ drift n := by
  have : (m : Rat) ≤ n := by exact_mod_cast h
  unfold drift
  linarith

theorem drift_nonneg (m : Nat) : 0 ≤ drift m := by
  unfold drift
  positivity

theorem drift_le {m : Nat} (h : 8 * m ≤ 2 ^ 53) : drift m ≤ 7 / 8 := by
  have : (8 * m : Rat) ≤ 2 ^ 53 := by exact_mod_cast h
  unfold drift
  linarith

theorem le_eight {x d : Rat} (hx : 0 ≤ x) (hd : d ≤ 7 / 8) (h : x * (1 - d) ≤ 1) : x ≤ 8 := by
  have share : x * (1 / 8) ≤ x * (1 - d) := mul_le_mul_of_nonneg_left (by linarith) hx
  linarith

/-- a mass function of one or two outcomes whose sum is near one -/
structure Drifts [Outcome α] (m : Nat) (s : Pmf α Float) : Prop where
  short : s.size ≤ 2
  masses : ∀ e ∈ s.entries, IsMass e.2
  lower : 1 - drift m ≤ exactMass s.entries
  upper : exactMass s.entries * (1 - drift m) ≤ 1

namespace Drifts

open Pmf

variable [Outcome α] [Outcome β] {m n : Nat}

theorem sum_le {s : Pmf α Float} (h : Drifts m s) (hm : 8 * m ≤ 2 ^ 53) :
    exactMass s.entries ≤ 8 :=
  le_eight (exactMass_nonneg h.masses) (drift_le hm) h.upper

theorem certain (v : α) : Drifts 0 (certain v) := by
  obtain ⟨mass, value⟩ := IsMass.one.onto_zero (exactValue_one ▸ by norm_num)
  have only : (Pmf.certain v : Pmf α Float).entries = [(v, 0.0 + 1.0)] := rfl
  have sum : exactMass (Pmf.certain v : Pmf α Float).entries = 1 := by
    rw [only, exactMass_cons, exactMass_nil, value, exactValue_one, add_zero]
  refine ⟨?_, ?_, ?_, ?_⟩
  · exact Nat.le_succ 1
  · rw [only]
    exact List.forall_mem_cons.mpr ⟨mass, fun e he => absurd he List.not_mem_nil⟩
  · rw [sum, drift_zero]
    norm_num
  · rw [sum, drift_zero]
    norm_num

theorem mono {s : Pmf α Float} (h : Drifts m s) (hn : m ≤ n) : Drifts n s := by
  have more := drift_mono hn
  have sum := exactMass_nonneg h.masses
  refine ⟨h.short, h.masses, by linarith [h.lower], ?_⟩
  exact (mul_le_mul_of_nonneg_left (by linarith) sum).trans h.upper

/-- two masses -/
theorem pair {a b : α} (h : Outcome.key a ≠ Outcome.key b) {p q : Float} (hp : IsMass p)
    (hq : IsMass q) (hm : 8 * m ≤ 2 ^ 53) (lower : 1 - drift m ≤ exactValue p + exactValue q)
    (upper : (exactValue p + exactValue q) * (1 - drift m) ≤ 1) :
    Drifts m ((empty.add a p).add b q) := by
  have low := hp.nonneg
  have low' := hq.nonneg
  have sum : exactValue p + exactValue q ≤ 8 := le_eight (add_nonneg low low') (drift_le hm) upper
  have two : ((empty.add a p).add b q : Pmf α Float).entries = [(a, 0.0 + p), (b, 0.0 + q)] :=
    if_neg h
  obtain ⟨first, value⟩ := hp.onto_zero (by linarith)
  obtain ⟨second, value'⟩ := hq.onto_zero (by linarith)
  have total : exactMass ((empty.add a p).add b q : Pmf α Float).entries =
      exactValue p + exactValue q := by
    rw [two, exactMass_cons, exactMass_cons, exactMass_nil, value, value', add_zero]
  refine ⟨by rw [size, two]; exact le_rfl, ?_, by rwa [total], by rwa [total]⟩
  rw [two]
  exact List.forall_mem_cons.mpr ⟨first, List.forall_mem_cons.mpr ⟨second,
    fun e he => absurd he List.not_mem_nil⟩⟩

/-- negation exchanges the two masses -/
theorem not {s : Pmf Bool Float} (h : Drifts m s) (hm : 8 * m ≤ 2 ^ 53) : Drifts m s.not := by
  have swapped : exactValue (s.get false) + exactValue (s.get true) = exactMass s.entries := by
    rw [exactMass_bool, add_comm]
  refine pair (by decide) (isMass_get h.masses false) (isMass_get h.masses true) hm ?_ ?_
  · rw [swapped]
    exact h.lower
  · rw [swapped]
    exact h.upper

/-- the complement of a probability is rounded -/
theorem trial {p : Float} (h : 0.0 ≤ p) (h' : p ≤ 1.0) : Drifts 0 (trial p) := by
  obtain ⟨low, high⟩ := exactValue_mem_unit h h'
  have mass : IsMass p := ⟨isFinite_of_between isFinite_zero isFinite_one h h', low⟩
  obtain ⟨rest, value⟩ := IsMass.complement h h'
  obtain ⟨below, above⟩ := abs_le.mp (rounding_error_unit (sub_nonneg.mpr high) (by linarith))
  rw [← value] at below above
  refine pair (by decide) mass rest (Nat.zero_le _) ?_ ?_
  · rw [drift_zero]
    show _ ≤ _ + exactValue (1.0 - p)
    linarith
  · rw [drift_zero]
    show (_ + exactValue (1.0 - p)) * _ ≤ 1
    linarith

/-- what two sums near one tell of their product -/
theorem product_near {x y d e : Rat} (hd : 0 ≤ d) (he : 0 ≤ e) (room : d + e ≤ 1) (hx : 1 - d ≤ x)
    (hy : 1 - e ≤ y) (hx' : x * (1 - d) ≤ 1) (hy' : y * (1 - e) ≤ 1) :
    1 - (d + e) ≤ x * y ∧ x * y * (1 - (d + e)) ≤ 1 := by
  have less : 1 - (d + e) ≤ (1 - d) * (1 - e) := by linarith [mul_nonneg hd he]
  have lower : (1 - d) * (1 - e) ≤ x * y := mul_le_mul hx hy (by linarith) (by linarith)
  have nonneg : 0 ≤ x * y := mul_nonneg (by linarith) (by linarith)
  refine ⟨less.trans lower, ?_⟩
  calc x * y * (1 - (d + e)) ≤ x * y * ((1 - d) * (1 - e)) :=
        mul_le_mul_of_nonneg_left less nonneg
    _ = x * (1 - d) * (y * (1 - e)) := by ring
    _ ≤ 1 := mul_le_one₀ hx' (mul_nonneg (by linarith) (by linarith)) hy'

/-- merging at most four products of masses -/
theorem merged_pairs {l : Pmf α Float} {r : Pmf β Float} (op : α → β → Bool) {x : Rat}
    (masses : ∀ e ∈ l.pairs r, IsMass e.2)
    (products : |exactMass (l.pairs r) - x| ≤ x / 2 ^ 53 + (l.pairs r).length / 2 ^ 60)
    (count : (l.pairs r).length ≤ 4) (low : 1 / 8 ≤ x) (high : x ≤ 8) :
    (∀ e ∈ (l.combine r op).entries, IsMass e.2) ∧
      |exactMass (l.combine r op).entries - x| ≤ 12 / 2 ^ 54 * x := by
  have results := exactMass_map (fun ab : α × β => op ab.1 ab.2) (l.pairs r)
  have length : ((l.pairs r).map fun e => (op e.1.1 e.1.2, e.2)).length = (l.pairs r).length :=
    List.length_map _
  have few : ((l.pairs r).length : Rat) ≤ 4 := by exact_mod_cast count
  have steps : (l.pairs r).length * roundOff (17 / 16 * x) ≤ 4 * roundOff (17 / 16 * x) :=
    mul_le_mul_of_nonneg_right few (roundOff_nonneg (by linarith))
  have step : roundOff (17 / 16 * x) = 17 / 16 * x / 2 ^ 53 + 1 / 2 ^ 60 := rfl
  obtain ⟨below, above⟩ := abs_le.mp products
  obtain ⟨entries, error⟩ := exactMass_ofList (b := 17 / 16 * x)
    (l := (l.pairs r).map fun e => (op e.1.1 e.1.2, e.2))
    (by
      intro e he
      obtain ⟨f, hf, rfl⟩ := List.mem_map.mp he
      exact masses f hf)
    (by linarith) (by linarith) (by rw [results, length]; linarith)
  rw [results, length] at error
  obtain ⟨below', above'⟩ := abs_le.mp error
  refine ⟨entries, abs_le.mpr ⟨?_, ?_⟩⟩
  · show _ ≤ exactMass (ofList _).entries - x
    linarith
  · show exactMass (ofList _).entries - x ≤ _
    linarith

/-- a connective adds to the drift of its operands -/
theorem combine {l : Pmf α Float} {r : Pmf β Float} (op : α → β → Bool) (hl : Drifts m l)
    (hr : Drifts n r) (room : 8 * (m + n + 1) ≤ 2 ^ 53) :
    Drifts (m + n + 1) (l.combine r op) := by
  have total := drift_succ m n
  have most := drift_le room
  have first : drift 1 ≤ drift (m + n + 1) := drift_mono (Nat.le_add_left 1 (m + n))
  have second : drift 1 = 14 / 2 ^ 54 := by norm_num [drift]
  -- the product of the sums
  obtain ⟨lower, upper⟩ := product_near (drift_nonneg m) (drift_nonneg n) (by linarith) hl.lower
    hr.lower hl.upper hr.upper
  have nonneg : 0 ≤ exactMass l.entries * exactMass r.entries :=
    mul_nonneg (exactMass_nonneg hl.masses) (exactMass_nonneg hr.masses)
  have small := le_eight nonneg (by linarith) upper
  -- what rounding makes of it
  obtain ⟨masses, products⟩ := exactMass_pairs hl.masses hr.masses (hl.sum_le (by omega))
    (hr.sum_le (by omega))
  have count : (l.pairs r).length ≤ 4 := by
    rw [length_pairs]
    exact Nat.mul_le_mul hl.short hr.short
  obtain ⟨merged, sums⟩ := merged_pairs op masses products count (by linarith) small
  obtain ⟨below, above⟩ := abs_le.mp sums
  generalize exactMass l.entries * exactMass r.entries = x at *
  have share : 0 ≤ x * (drift m + drift n) :=
    mul_nonneg nonneg (add_nonneg (drift_nonneg m) (drift_nonneg n))
  refine ⟨size_bool_le _, merged, by linarith, ?_⟩
  generalize exactMass (l.combine r op).entries = y at *
  calc y * (1 - drift (m + n + 1)) ≤ (x + 12 / 2 ^ 54 * x) * (1 - drift (m + n + 1)) :=
        mul_le_mul_of_nonneg_right (by linarith) (by linarith)
    _ = (1 + 12 / 2 ^ 54) * (x * (1 - (drift m + drift n)) - 12 / 2 ^ 54 * x) := by
        rw [total]
        ring
    _ ≤ 1 := by linarith

end Drifts

/-! ## Selection -/

namespace Pmf

variable [Outcome α] {u : Float}

theorem nonpositive_iff {p : Float} (hp : IsMass p) :
    Mass.nonpositive p = true ↔ exactValue p ≤ 0 := by
  have compared := le_iff_exactValue hp.finite isFinite_zero
  rw [exactValue_zero] at compared
  exact decide_eq_true_iff.trans compared

omit [Outcome α] in
/-- the walk stops where the rounded total reaches the draw -/
theorem pickFrom_reached (hu : u.isFinite = true) {t p : Float} (ht : IsMass t) (hp : IsMass p)
    (pos : 0 < exactValue p) (small : exactValue t + exactValue p ≤ 64)
    (reached : exactValue u ≤ rounded (exactValue t + exactValue p)) (v : α)
    (rest : List (α × Float)) : pickFrom u t ((v, p) :: rest) = .ok v := by
  obtain ⟨mass, value⟩ := ht.add hp small
  have taken : ¬ Mass.nonpositive p = true := fun skipped =>
    absurd ((nonpositive_iff hp).mp skipped) (not_le_of_gt pos)
  have hit : Mass.le (Mass.ofFloat u) (Mass.add t p) = true :=
    decide_eq_true ((le_iff_exactValue hu mass.finite).mpr (value ▸ reached))
  rw [pickFrom, if_neg taken, if_pos hit]

/-- a draw that is not beyond the rounded sum selects an outcome -/
theorem pick_of_drifts {m : Nat} {s : Pmf α Float} (h : Drifts m s) (hm : 8 * m ≤ 2 ^ 53)
    (hu : u.isFinite = true) (reached : exactValue u ≤ rounded (exactMass s.entries)) :
    ∃ v, s.pick u = .ok v := by
  have some : 0 < exactMass s.entries := by linarith [h.lower, drift_le hm]
  have sum := h.sum_le hm
  obtain ⟨short, masses, -, -⟩ := h
  have nothing : exactValue (0.0 : Float) = 0 := exactValue_zero
  unfold pick
  show ∃ v, pickFrom u 0.0 s.entries = .ok v
  unfold size at short
  generalize s.entries = es at *
  match es with
  | [] => exact absurd some (lt_irrefl 0)
  | [(v, p)] =>
    have mass : IsMass p := masses (v, p) List.mem_cons_self
    rw [exactMass_cons, exactMass_nil, add_zero] at some sum reached
    exact ⟨v, pickFrom_reached hu .zero mass some (by linarith) (by rwa [nothing, zero_add]) v []⟩
  | [(v, p), (w, q)] =>
    have mass : IsMass p := masses (v, p) List.mem_cons_self
    have mass' : IsMass q := masses (w, q) (List.mem_cons_of_mem _ List.mem_cons_self)
    have low := mass.nonneg
    have low' := mass'.nonneg
    rw [exactMass_cons, exactMass_cons, exactMass_nil, add_zero] at some sum reached
    rcases low.eq_or_lt with none | first
    · -- the first entry is passed over
      have skipped : Mass.nonpositive p = true := (nonpositive_iff mass).mpr none.ge
      rw [← none, zero_add] at some reached
      refine ⟨w, ?_⟩
      rw [pickFrom, if_pos skipped]
      exact pickFrom_reached hu .zero mass' some (by linarith) (by rwa [nothing, zero_add]) w []
    · by_cases hit : exactValue u ≤ exactValue p
      · have alone : exactValue u ≤ rounded (exactValue 0.0 + exactValue p) := by
          rwa [nothing, zero_add, mass.rounded_eq]
        exact ⟨v, pickFrom_reached hu .zero mass first (by linarith) alone v _⟩
      · have second : 0 < exactValue q := low'.lt_of_ne fun none => hit (by
          rwa [← none, add_zero, mass.rounded_eq] at reached)
        obtain ⟨total, value⟩ := mass.onto_zero (by linarith)
        have taken : ¬ Mass.nonpositive p = true := fun skipped =>
          absurd ((nonpositive_iff mass).mp skipped) (not_le_of_gt first)
        have missed : ¬ Mass.le (Mass.ofFloat u) (Mass.add Mass.zero p) = true := fun le =>
          hit (value ▸ (le_iff_exactValue hu total.finite).mp (of_decide_eq_true le))
        refine ⟨w, ?_⟩
        show pickFrom u Mass.zero _ = _
        rw [pickFrom, if_neg taken, if_neg missed]
        exact pickFrom_reached hu total mass' second (by linarith) (value.symm ▸ reached) w []
  | _ :: _ :: _ :: _ =>
    simp only [List.length_cons] at short
    omega

end Pmf

/-! ## Draws -/

open Float.Model.Format (binary64) in
open Float.Model.UnpackedFloat in
/-- the draws are the multiples of their least positive one -/
theorem uniformDouble_spec {k : UInt64} (h : k.toNat < 2 ^ 53) :
    (uniformDouble k).isFinite = true ∧ exactValue (uniformDouble k) = k.toNat / 2 ^ 53 := by
  have nonneg : (0 : Rat) ≤ k.toNat := Nat.cast_nonneg _
  have bound : (k.toNat : Rat) < 2 ^ 53 := by exact_mod_cast h
  have number : ((k.toNat : Int) : Rat) * 2 ^ (0 : Int) = k.toNat := by
    rw [Int.cast_natCast, zpow_zero, mul_one]
  have whole := rounded_of_short (e := 0) h (by norm_num)
  rw [zpow_zero, mul_one] at whole
  have place : lastPlace k.toNat ≤ 970 :=
    lastPlace_le_of_small (by rw [abs_of_nonneg nonneg]; exact bound.le)
  have normalized := normalize_spec k.toNat 0 .positive
  rw [number] at normalized
  obtain ⟨finite, value⟩ := spec_of_unpacked (z := k.toFloat) rfl normalized
    (abs_rounded_lt_of_lastPlace place)
  rw [whole] at value
  have unit : exactValue 1.1102230246251565e-16 = 1 / 2 ^ 53 := by decide +kernel
  have power : (2 : Rat) ^ (-53 : Int) = 1 / 2 ^ 53 := by norm_num
  have exact := rounded_of_short (e := -53) h (by norm_num)
  rw [power, mul_one_div] at exact
  have product := mul_spec (y := 1.1102230246251565e-16) finite (by decide)
  rw [value, unit, mul_one_div, exact] at product
  refine product (lastPlace_le_of_small ?_)
  rw [abs_of_nonneg (by positivity)]
  linarith

/-- after as many connectives, a draw below the last few is not beyond the total -/
theorem reached_of_drifts [Outcome α] {m : Nat} {s : Pmf α Float} (h : Drifts m s) {k : UInt64}
    (hk : k.toNat < 2 ^ 53) (room : k.toNat + 8 * m ≤ 2 ^ 53) :
    exactValue (uniformDouble k) ≤ rounded (exactMass s.entries) := by
  obtain ⟨finite, value⟩ := uniformDouble_spec hk
  have lower := h.lower
  rcases m.eq_zero_or_pos with rfl | pos
  · -- half a unit below one is rounded to one
    have near : rounded (1 - 1 / 2 ^ 54) = 1 := by decide +kernel
    rw [drift_zero] at lower
    have top := rounded_mono lower
    have bound : (k.toNat : Rat) < 2 ^ 53 := by exact_mod_cast hk
    rw [near] at top
    rw [value]
    refine le_trans ?_ top
    linarith
  · have more : (1 : Rat) ≤ m := by exact_mod_cast pos
    have bound : (k.toNat + 8 * m : Rat) ≤ 2 ^ 53 := by exact_mod_cast room
    have itself : rounded (exactValue (uniformDouble k)) = exactValue (uniformDouble k) := by
      rw [exactValue_eq]
      exact rounded_numberOf (representable_unpack finite)
    rw [← itself]
    refine rounded_mono (le_trans ?_ lower)
    rw [value]
    unfold drift
    linarith
end Chance
