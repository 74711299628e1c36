import Chance.Proofs.Arithmetic
import Chance.Proofs.Expectation
import Chance.Proofs.Normalisation

/-!
# Double masses

What rounding does to the masses of an enumeration: the products are rounded, and so are the sums
when outcomes are merged.

* `roundOff`, `rounding_error`   how far a number is moved at most;
* `IsMass`                finite and not negative;
* `exactMass`             the sum of double masses without rounding;
* `exactMass_accumulate`, `exactMass_ofList`   what merging adds to it, or takes from it;
* `exactMass_pairs`       and multiplication;
* `exactMass_bool`        the two masses of a truth value.
-/

namespace Chance

variable {α β : Type}

/-! ## Rounding errors -/

/-- what rounding adds to a number of a magnitude, or takes from it, at most -/
def roundOff (x : Rat) : Rat := x / 2 ^ 53 + 1 / 2 ^ 60

theorem roundOff_mono {x y : Rat} (h : x ≤ y) : roundOff x ≤ roundOff y := by
  unfold roundOff
  linarith

theorem roundOff_nonneg {x : Rat} (h : 0 ≤ x) : 0 ≤ roundOff x := by
  unfold roundOff
  positivity

theorem pow_le_inv {e : Int} (n : Nat) (h : e ≤ -n) : (2 : Rat) ^ e ≤ 1 / 2 ^ n := by
  rw [one_div, ← zpow_natCast, ← zpow_neg]
  exact zpow_le_zpow_right₀ (by norm_num) h

theorem inv_le_pow {e : Int} (n : Nat) (h : -n ≤ e) : 1 / 2 ^ n ≤ (2 : Rat) ^ e := by
  rw [one_div, ← zpow_natCast, ← zpow_neg]
  exact zpow_le_zpow_right₀ (by norm_num) h

/-- Half a unit of the last place is a relative error, but for numbers too small to matter. -/
theorem rounding_error (x : Rat) : |rounded x - x| ≤ roundOff |x| := by
  unfold roundOff
  rcases eq_or_ne x 0 with rfl | nonzero
  · rw [rounded_zero, sub_zero, abs_zero]
    norm_num
  · refine (abs_rounded_sub_le x).trans ?_
    rcases (neg_1074_le_lastPlace x).lt_or_eq with normal | least
    · have full := pow_lastPlace_le nonzero normal
      linarith
    · have small : (2 : Rat) ^ lastPlace x ≤ 1 / 2 ^ 60 := pow_le_inv 60 (by omega)
      have magnitude : 0 ≤ |x| := abs_nonneg x
      have positive : (0 : Rat) < 2 ^ lastPlace x := by positivity
      linarith

theorem rounded_one : rounded 1 = 1 := by
  have short := rounded_of_short (m := 1) (e := 0) (by norm_num) (by norm_num)
  rwa [Nat.cast_one, zpow_zero, mul_one] at short

/-- in the unit interval a quarter of a unit of the last place of one is enough -/
theorem rounding_error_unit {x : Rat} (low : 0 ≤ x) (high : x ≤ 1) :
    |rounded x - x| ≤ 1 / 2 ^ 54 := by
  rcases high.lt_or_eq with less | rfl
  · rcases low.eq_or_lt with rfl | pos
    · rw [rounded_zero, sub_zero, abs_zero]
      norm_num
    · have place : lastPlace x < -52 := by
        by_contra large
        have full := pow_lastPlace_le pos.ne' (by omega)
        have least : 1 / 2 ^ 52 ≤ (2 : Rat) ^ lastPlace x := inv_le_pow 52 (by omega)
        rw [abs_of_pos pos] at full
        linarith
      have most : (2 : Rat) ^ lastPlace x ≤ 1 / 2 ^ 53 := pow_le_inv 53 (by omega)
      linarith [abs_rounded_sub_le x]
  · rw [rounded_one, sub_self, abs_zero]
    norm_num

theorem lastPlace_le_of_small {x : Rat} (h : |x| ≤ 2 ^ 53) : lastPlace x ≤ 970 := by
  by_contra high
  have nonzero : x ≠ 0 := by
    rintro rfl
    exact high (by decide +kernel)
  have full := pow_lastPlace_le nonzero (by omega)
  have power : (2 : Rat) ^ (2 : Int) ≤ 2 ^ lastPlace x :=
    zpow_le_zpow_right₀ (by norm_num) (by omega)
  have four : (2 : Rat) ^ (2 : Int) = 4 := by norm_num
  linarith

/-! ## Masses -/

/-- a double that can be a mass: finite and not negative -/
structure IsMass (p : Float) : Prop where
  finite : p.isFinite = true
  nonneg : 0 ≤ exactValue p

namespace IsMass

variable {p q : Float}

theorem add (hp : IsMass p) (hq : IsMass q) (h : exactValue p + exactValue q ≤ 64) :
    IsMass (p + q) ∧ exactValue (p + q) = rounded (exactValue p + exactValue q) := by
  have sum := add_nonneg hp.nonneg hq.nonneg
  obtain ⟨finite, value⟩ := add_spec hp.finite hq.finite
    (lastPlace_le_of_small (by rw [abs_of_nonneg sum]; linarith))
  exact ⟨⟨finite, value ▸ rounded_nonneg sum⟩, value⟩

theorem mul (hp : IsMass p) (hq : IsMass q) (h : exactValue p * exactValue q ≤ 64) :
    IsMass (p * q) ∧ exactValue (p * q) = rounded (exactValue p * exactValue q) := by
  have product := mul_nonneg hp.nonneg hq.nonneg
  obtain ⟨finite, value⟩ := mul_spec hp.finite hq.finite
    (lastPlace_le_of_small (by rw [abs_of_nonneg product]; linarith))
  exact ⟨⟨finite, value ▸ rounded_nonneg product⟩, value⟩

theorem zero : IsMass 0.0 := ⟨isFinite_zero, exactValue_zero.ge⟩

theorem one : IsMass 1.0 := ⟨isFinite_one, exactValue_one ▸ zero_le_one⟩

theorem rounded_eq (hp : IsMass p) : rounded (exactValue p) = exactValue p := by
  rw [exactValue_eq]
  exact rounded_numberOf (representable_unpack hp.finite)

/-- the first mass of an outcome is put onto the mass zero -/
theorem onto_zero (hp : IsMass p) (h : exactValue p ≤ 64) :
    IsMass (0.0 + p) ∧ exactValue (0.0 + p) = exactValue p := by
  obtain ⟨mass, value⟩ := zero.add hp (by rwa [exactValue_zero, zero_add])
  rw [exactValue_zero, zero_add, hp.rounded_eq] at value
  exact ⟨mass, value⟩

/-- what a probability leaves of one -/
theorem complement (h : 0.0 ≤ p) (h' : p ≤ 1.0) :
    IsMass (1.0 - p) ∧ exactValue (1.0 - p) = rounded (1 - exactValue p) := by
  obtain ⟨low, high⟩ := exactValue_mem_unit h h'
  have rest := sub_nonneg.mpr high
  have finite := isFinite_of_between isFinite_zero isFinite_one h h'
  obtain ⟨finite', value⟩ := sub_spec isFinite_one finite
    (lastPlace_le_of_small (by rw [exactValue_one, abs_of_nonneg rest]; linarith))
  rw [exactValue_one] at value
  exact ⟨⟨finite', value ▸ rounded_nonneg rest⟩, value⟩

end IsMass

/-- the sum of double masses, without rounding -/
def exactMass (es : List (α × Float)) : Rat := (es.map fun e => exactValue e.2).sum

theorem exactMass_nil : exactMass ([] : List (α × Float)) = 0 := rfl

theorem exactMass_cons (e : α × Float) (es : List (α × Float)) :
    exactMass (e :: es) = exactValue e.2 + exactMass es := rfl

theorem exactMass_append (es fs : List (α × Float)) :
    exactMass (es ++ fs) = exactMass es + exactMass fs := by
  unfold exactMass
  rw [List.map_append, List.sum_append]

theorem exactMass_map (f : α → β) (es : List (α × Float)) :
    (exactMass (es.map fun e => (f e.1, e.2))) = exactMass es := by
  unfold exactMass
  rw [List.map_map]
  rfl

theorem exactMass_nonneg {es : List (α × Float)} (masses : ∀ e ∈ es, IsMass e.2) :
    0 ≤ exactMass es := by
  induction es with
  | nil => exact le_rfl
  | cons e es ih =>
    obtain ⟨first, rest⟩ := List.forall_mem_cons.mp masses
    rw [exactMass_cons]
    exact add_nonneg first.nonneg (ih rest)

namespace Pmf

variable [Outcome α] [Outcome β]

/-- mass that is put onto an outcome is rounded once -/
theorem exactMass_accumulate (v : α) {p : Float} (hp : IsMass p) {es : List (α × Float)}
    (masses : ∀ e ∈ es, IsMass e.2) {b : Rat} (room : exactMass es + exactValue p ≤ b)
    (hb : b ≤ 64) :
    (∀ e ∈ accumulate v p es, IsMass e.2) ∧
      |exactMass (accumulate v p es) - (exactMass es + exactValue p)| ≤ roundOff b := by
  induction es with
  | nil =>
    rw [exactMass_nil, zero_add] at room ⊢
    obtain ⟨mass, value⟩ := hp.onto_zero (room.trans hb)
    have only : exactMass (accumulate v p []) = exactValue p := by
      show exactMass [(v, 0.0 + p)] = _
      rw [exactMass_cons, exactMass_nil, value, add_zero]
    refine ⟨List.forall_mem_cons.mpr ⟨mass, fun e he => absurd he List.not_mem_nil⟩, ?_⟩
    rw [only, sub_self, abs_zero]
    exact roundOff_nonneg (hp.nonneg.trans room)
  | cons e es ih =>
    obtain ⟨w, q⟩ := e
    obtain ⟨first, rest⟩ := List.forall_mem_cons.mp masses
    have others := exactMass_nonneg rest
    have nonneg := first.nonneg
    rw [exactMass_cons] at room ⊢
    by_cases hw : Outcome.key w = Outcome.key v
    · have merged : accumulate v p ((w, q) :: es) = (w, q + p) :: es := if_pos hw
      have bound : exactValue q + exactValue p ≤ b := by linarith
      obtain ⟨mass, value⟩ := first.add hp (bound.trans hb)
      have error := rounding_error (exactValue q + exactValue p)
      rw [abs_of_nonneg (add_nonneg nonneg hp.nonneg)] at error
      refine ⟨merged ▸ List.forall_mem_cons.mpr ⟨mass, rest⟩, ?_⟩
      have moved : exactMass ((w, q + p) :: es) - (exactValue q + exactMass es + exactValue p) =
          rounded (exactValue q + exactValue p) - (exactValue q + exactValue p) := by
        rw [exactMass_cons, value]
        ring
      rw [merged, moved]
      exact error.trans (roundOff_mono bound)
    · have passed : accumulate v p ((w, q) :: es) = (w, q) :: accumulate v p es := if_neg hw
      obtain ⟨tail, error⟩ := ih rest (by linarith)
      refine ⟨passed ▸ List.forall_mem_cons.mpr ⟨first, tail⟩, ?_⟩
      have moved : exactMass ((w, q) :: accumulate v p es) -
          (exactValue q + exactMass es + exactValue p) =
          exactMass (accumulate v p es) - (exactMass es + exactValue p) := by
        rw [exactMass_cons]
        ring
      rwa [passed, moved]

/-- and a list of masses once for each of them -/
theorem exactMass_ofList {l : List (α × Float)} (masses : ∀ e ∈ l, IsMass e.2) {b : Rat}
    (low : 0 ≤ b) (high : b ≤ 64) (room : exactMass l + l.length * roundOff b ≤ b) :
    (∀ e ∈ (ofList l).entries, IsMass e.2) ∧
      |exactMass (ofList l).entries - exactMass l| ≤ l.length * roundOff b := by
  have step := roundOff_nonneg low
  induction l using List.reverseRecOn with
  | nil =>
    refine ⟨fun e he => absurd he List.not_mem_nil, ?_⟩
    rw [List.length_nil, Nat.cast_zero, zero_mul]
    exact (abs_eq_zero.mpr (sub_self _)).le
  | append_singleton l e ih =>
    have mass : IsMass e.2 := masses e (List.mem_append_right _ (List.mem_singleton.mpr rfl))
    have last := mass.nonneg
    have one : exactMass [e] = exactValue e.2 := by rw [exactMass_cons, exactMass_nil, add_zero]
    rw [exactMass_append, one, List.length_append, List.length_singleton, Nat.cast_add,
      Nat.cast_one, add_mul, one_mul] at room ⊢
    obtain ⟨entries, error⟩ := ih (fun f hf => masses f (List.mem_append_left _ hf)) (by linarith)
    obtain ⟨below, above⟩ := abs_le.mp error
    obtain ⟨entries', error'⟩ := exactMass_accumulate e.1 mass entries (b := b) (by linarith) high
    obtain ⟨below', above'⟩ := abs_le.mp error'
    rw [ofList_concat, entries_add]
    refine ⟨entries', abs_le.mpr ⟨?_, ?_⟩⟩ <;> linarith

omit [Outcome α] [Outcome β] in
/-- one mass times each of a list -/
theorem exactMass_scale (v : α) {q : Float} (hq : IsMass q) {fs : List (β × Float)}
    (masses : ∀ f ∈ fs, IsMass f.2) (small : exactValue q ≤ 8) (small' : exactMass fs ≤ 8) :
    (∀ e ∈ fs.map fun f => ((v, f.1), q * f.2), IsMass e.2) ∧
      |exactMass (fs.map fun f => ((v, f.1), q * f.2)) - exactValue q * exactMass fs| ≤
        exactValue q * exactMass fs / 2 ^ 53 + fs.length / 2 ^ 60 := by
  induction fs with
  | nil =>
    refine ⟨fun e he => absurd he List.not_mem_nil, ?_⟩
    simp [exactMass_nil]
  | cons f fs ih =>
    obtain ⟨first, rest⟩ := List.forall_mem_cons.mp masses
    have others := exactMass_nonneg rest
    have nonneg := first.nonneg
    rw [exactMass_cons] at small' ⊢
    obtain ⟨tail, error⟩ := ih rest (by linarith)
    have bound : exactValue q * exactValue f.2 ≤ 64 :=
      (mul_le_mul small (by linarith : exactValue f.2 ≤ 8) nonneg (by norm_num)).trans_eq
        (by norm_num)
    obtain ⟨mass, value⟩ := hq.mul first bound
    have error' := rounding_error (exactValue q * exactValue f.2)
    rw [abs_of_nonneg (mul_nonneg hq.nonneg nonneg), ← value, roundOff] at error'
    obtain ⟨below, above⟩ := abs_le.mp error
    obtain ⟨below', above'⟩ := abs_le.mp error'
    rw [List.map_cons, exactMass_cons, List.length_cons]
    push_cast
    refine ⟨List.forall_mem_cons.mpr ⟨mass, tail⟩, abs_le.mpr ⟨?_, ?_⟩⟩ <;> linarith

/-- the products of masses are rounded once each -/
theorem exactMass_pairs {l : Pmf α Float} {r : Pmf β Float} (hl : ∀ e ∈ l.entries, IsMass e.2)
    (hr : ∀ f ∈ r.entries, IsMass f.2) (small : exactMass l.entries ≤ 8)
    (small' : exactMass r.entries ≤ 8) :
    (∀ e ∈ l.pairs r, IsMass e.2) ∧
      |exactMass (l.pairs r) - exactMass l.entries * exactMass r.entries| ≤
        exactMass l.entries * exactMass r.entries / 2 ^ 53 + (l.pairs r).length / 2 ^ 60 := by
  have product (p q : Float) : Mass.mul p q = p * q := rfl
  unfold pairs
  simp only [product]
  generalize l.entries = es at *
  generalize r.entries = fs at *
  induction es with
  | nil =>
    refine ⟨fun e he => absurd he List.not_mem_nil, ?_⟩
    simp [exactMass_nil]
  | cons e es ih =>
    obtain ⟨first, rest⟩ := List.forall_mem_cons.mp hl
    have others := exactMass_nonneg rest
    have nonneg := first.nonneg
    rw [exactMass_cons] at small ⊢
    obtain ⟨tail, error⟩ := ih rest (by linarith)
    obtain ⟨row, error'⟩ := exactMass_scale e.1 first hr (by linarith) small'
    obtain ⟨below, above⟩ := abs_le.mp error
    obtain ⟨below', above'⟩ := abs_le.mp error'
    rw [List.flatMap_cons, exactMass_append, List.length_append, List.length_map, add_mul]
    push_cast
    refine ⟨List.forall_mem_append.mpr ⟨row, tail⟩, abs_le.mpr ⟨?_, ?_⟩⟩ <;> linarith

/-- the masses as the numbers that they are -/
def exactly (s : Pmf α Float) : Pmf α Rat where
  entries := s.entries.map fun e => (e.1, exactValue e.2)
  nodup := by
    rw [List.map_map]
    exact s.nodup

theorem massOf_exactly (s : Pmf α Float) : massOf s.exactly.entries = exactMass s.entries := by
  show massOf (s.entries.map fun e => (e.1, exactValue e.2)) = exactMass s.entries
  induction s.entries with
  | nil => rfl
  | cons e es ih => rw [List.map_cons, massOf_cons, ih, exactMass_cons]

theorem get_exactly (s : Pmf α Float) (v : α) : s.exactly.get v = exactValue (s.get v) := by
  show lookup v (s.entries.map fun e => (e.1, exactValue e.2)) = exactValue (lookup v s.entries)
  induction s.entries with
  | nil => exact exactValue_zero.symm
  | cons e es ih =>
    by_cases h : Outcome.key e.1 = Outcome.key v
    · rw [List.map_cons, lookup, lookup, if_pos h, if_pos h]
    · rw [List.map_cons, lookup, lookup, if_neg h, if_neg h, ih]

theorem exactMass_bool (s : Pmf Bool Float) :
    exactMass s.entries = exactValue (s.get true) + exactValue (s.get false) := by
  have both := expect_bool s.exactly fun _ => 1
  rw [one_mul, one_mul, get_exactly, get_exactly] at both
  exact s.massOf_exactly.symm.trans both

theorem isMass_get {s : Pmf α Float} (masses : ∀ e ∈ s.entries, IsMass e.2) (v : α) :
    IsMass (s.get v) := by
  show IsMass (lookup v s.entries)
  generalize s.entries = es at masses
  induction es with
  | nil => exact IsMass.zero
  | cons e es ih =>
    obtain ⟨first, rest⟩ := List.forall_mem_cons.mp masses
    unfold lookup
    split
    · exact first
    · exact ih rest

/-- there are two truth values -/
theorem size_bool_le {M : Type} (s : Pmf Bool M) : s.size ≤ 2 := by
  have keys : s.entries.map (fun e => Outcome.key e.1) ⊆ [Outcome.key true, Outcome.key false] := by
    intro k hk
    obtain ⟨⟨b, p⟩, -, rfl⟩ := List.mem_map.mp hk
    cases b <;> simp
  have short := (List.subperm_of_subset s.nodup keys).length_le
  rwa [List.length_map] at short

end Pmf
end Chance
