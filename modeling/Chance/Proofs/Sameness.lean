import Chance.Proofs.Comparisons
import Chance.Proofs.Histories
import Chance.Value

/-!
# Equality of values

Values are equal if they record the same outcomes with masses of equal value, whatever the order in
which they were recorded, or have parameters of equal value.  Numbers that are no number are equal
to nothing, so equality is symmetric and transitive, but a value with such a mass or parameter is not
equal to itself.

* `beq_iff`, `beq_comm_double`, `beq_trans_double`   equality of doubles by value;
* `Pmf.same_iff_get`      equal mass functions, outcome by outcome;
* `Pmf.same_self_iff`     which of them are equal to themselves;
* `Pmf.same_of_perm`      entries in another order;
* `Value.same_comm`, `Value.same_trans`   equality of values;
* `Value.equal_values`    all of this.
-/

namespace Chance

open Float.Model.UnpackedFloat

/-! ## Doubles -/

section

variable {x y z : Float}

theorem beq_eq_compare (x y : Float) :
    (x == y) = (x.toModel.unpack.compare y.toModel.unpack == some .eq) := rfl

theorem beq_self_iff : (x == x) = true ↔ x.isNaN = false := by
  rw [beq_eq_compare]
  cases none : x.isNaN with
  | true =>
    rw [unpack_of_isNaN none]
    decide
  | false =>
    have compared := compare_extent (packed_unpack none) (packed_unpack none)
    rw [cmp_self_eq_eq] at compared
    rw [compared]
    decide

/-- two doubles are equal by value if they are the same number or both zero -/
theorem beq_iff : (x == y) = true ↔ (x = y ∧ x.isNaN = false) ∨ (IsNull x ∧ IsNull y) := by
  constructor
  · intro h
    rw [beq_eq_compare, beq_iff_eq] at h
    rcases eq_or_zeros_of_compare h with same | ⟨s, t, hx, hy⟩
    · have eq : x = y := by rw [← ofModel_pack_unpack x, same, ofModel_pack_unpack]
      subst eq
      exact .inl ⟨rfl, beq_self_iff.mp (by rw [beq_eq_compare, h]; rfl)⟩
    · exact .inr ⟨isNull_iff.mpr ⟨s, hx⟩, isNull_iff.mpr ⟨t, hy⟩⟩
  · rintro (⟨rfl, number⟩ | ⟨hx, hy⟩)
    · exact beq_self_iff.mpr number
    · obtain ⟨s, hx⟩ := isNull_iff.mp hx
      obtain ⟨t, hy⟩ := isNull_iff.mp hy
      rw [beq_eq_compare, hx, hy]
      rfl

theorem beq_comm_double (x y : Float) : (x == y) = (y == x) := by
  have symm {x y : Float} (h : (x == y) = true) : (y == x) = true := by
    rw [beq_iff] at h ⊢
    rcases h with ⟨rfl, number⟩ | ⟨hx, hy⟩
    · exact .inl ⟨rfl, number⟩
    · exact .inr ⟨hy, hx⟩
  exact Bool.eq_iff_iff.mpr ⟨symm, symm⟩

theorem beq_trans_double (h : (x == y) = true) (h' : (y == z) = true) : (x == z) = true := by
  rw [beq_iff] at h h' ⊢
  rcases h with ⟨rfl, number⟩ | ⟨hx, hy⟩
  · exact h'
  · rcases h' with ⟨rfl, -⟩ | ⟨-, hz⟩
    · exact .inr ⟨hx, hy⟩
    · exact .inr ⟨hx, hz⟩

end

theorem IsNull.isNaN {p : Float} (h : IsNull p) : p.isNaN = false := by
  obtain ⟨s, zero⟩ := isNull_iff.mp h
  show p.toModel.unpack.isNaN = false
  rw [zero]
  rfl

theorem SameMass.isNaN {p q : Float} (h : SameMass p q) : p.isNaN = q.isNaN := by
  rcases h with rfl | ⟨hp, hq⟩
  · rfl
  · rw [IsNull.isNaN hp, IsNull.isNaN hq]

/-! ## Mass functions -/

namespace Pmf

variable {α : Type} [Outcome α] {s t u : Pmf α Float}

/-- mass functions with the same outcomes have the same keys -/
theorem perm_keys_iff (s t : Pmf α Float) :
    (s.entries.map fun e => Outcome.key e.1).Perm (t.entries.map fun e => Outcome.key e.1) ↔
      ∀ v, s.records v = t.records v := by
  rw [List.perm_ext_iff_of_nodup s.nodup t.nodup]
  constructor
  · intro h v
    rw [Bool.eq_iff_iff, records_iff, records_iff]
    exact h _
  · intro h k
    have kept {s t : Pmf α Float} (h : ∀ v, s.records v = t.records v)
        (hk : k ∈ s.entries.map fun e => Outcome.key e.1) :
        k ∈ t.entries.map fun e => Outcome.key e.1 := by
      obtain ⟨e, -, rfl⟩ := List.mem_map.mp hk
      rwa [← records_iff, ← h, records_iff]
    exact ⟨kept h, kept fun v => (h v).symm⟩

/-- **Equal mass functions** record the same outcomes, each with masses of equal value. -/
theorem same_iff_get (s t : Pmf α Float) :
    s.same t = true ↔
      (∀ v, s.records v = t.records v) ∧ ∀ v, (s.get v == t.get v) = true := by
  rw [same_iff, ← perm_keys_iff]
  constructor
  · rintro ⟨size, partners⟩
    have kept : (s.entries.map fun e => Outcome.key e.1) ⊆ t.entries.map fun e => Outcome.key e.1 := by
      intro k hk
      obtain ⟨e, he, rfl⟩ := List.mem_map.mp hk
      obtain ⟨f, hf, key, -⟩ := partners e he
      exact List.mem_map.mpr ⟨f, hf, key⟩
    have keys : (s.entries.map fun e => Outcome.key e.1).Perm
        (t.entries.map fun e => Outcome.key e.1) := by
      refine (List.subperm_of_subset s.nodup kept).perm_of_length_le ?_
      rw [List.length_map, List.length_map]
      exact size.ge
    refine ⟨keys, fun v => ?_⟩
    by_cases recorded : s.records v = true
    · obtain ⟨e, he, key⟩ := List.mem_map.mp (records_iff.mp recorded)
      obtain ⟨f, hf, partner, masses⟩ := partners e he
      rwa [← s.get_congr key, get_of_mem he, ← t.get_congr (partner.trans key), get_of_mem hf]
    · have absent : ¬ t.records v = true := by rwa [← (perm_keys_iff s t).mp keys]
      rw [get_of_not_records recorded, get_of_not_records absent]
      decide
  · rintro ⟨keys, masses⟩
    have size := keys.length_eq
    rw [List.length_map, List.length_map] at size
    refine ⟨size, fun e he => ?_⟩
    obtain ⟨f, hf, key⟩ := List.mem_map.mp (keys.subset (List.mem_map.mpr ⟨e, he, rfl⟩))
    refine ⟨f, hf, key, ?_⟩
    have equal := masses e.1
    rwa [get_of_mem he, ← t.get_congr key, get_of_mem hf] at equal

theorem same_comm (s t : Pmf α Float) : s.same t = t.same s := by
  rw [Bool.eq_iff_iff, same_iff_get, same_iff_get]
  simp only [beq_comm_double (s.get _), eq_comm (a := s.records _)]

theorem same_trans (h : s.same t = true) (h' : t.same u = true) : s.same u = true := by
  rw [same_iff_get] at h h' ⊢
  exact ⟨fun v => (h.1 v).trans (h'.1 v), fun v => beq_trans_double (h.2 v) (h'.2 v)⟩

theorem isNaN_get_iff (s : Pmf α Float) :
    (∀ v, (s.get v).isNaN = false) ↔ ∀ e ∈ s.entries, e.2.isNaN = false := by
  constructor
  · intro numbers e he
    rw [← get_of_mem he]
    exact numbers e.1
  · intro numbers v
    by_cases recorded : s.records v = true
    · obtain ⟨e, he, key⟩ := List.mem_map.mp (records_iff.mp recorded)
      rw [← s.get_congr key, get_of_mem he]
      exact numbers e he
    · rw [get_of_not_records recorded]
      decide

/-- a mass function is equal to itself just if all its masses are numbers -/
theorem same_self_iff (s : Pmf α Float) :
    s.same s = true ↔ ∀ e ∈ s.entries, e.2.isNaN = false := by
  simp only [same_iff_get, implies_true, true_and, beq_self_iff, isNaN_get_iff]

/-! ## Orders of addition -/

/-- entries of different outcomes -/
def Distinct (l : List (α × Float)) : Prop := l.Pairwise fun e f => Outcome.same e.1 f.1 = false

/-- an outcome has at most one entry -/
theorem Distinct.filter_eq {l : List (α × Float)} (h : Distinct l) (v : α) :
    (l.filter fun e => Outcome.same e.1 v) = [] ∨
      ∃ e ∈ l, (l.filter fun e => Outcome.same e.1 v) = [e] := by
  have different := List.Pairwise.filter (fun e => Outcome.same e.1 v) h
  have kept (e : α × Float) (he : e ∈ l.filter fun e => Outcome.same e.1 v) :
      e ∈ l ∧ Outcome.same e.1 v = true := List.mem_filter.mp he
  generalize (l.filter fun e => Outcome.same e.1 v) = es at different kept ⊢
  match es with
  | [] => exact .inl rfl
  | [e] => exact .inr ⟨e, (kept e List.mem_cons_self).1, rfl⟩
  | e :: f :: rest =>
    have first := Outcome.same_iff.mp (kept e List.mem_cons_self).2
    have second := Outcome.same_iff.mp (kept f (List.mem_cons_of_mem e List.mem_cons_self)).2
    have apart := List.rel_of_pairwise_cons different (List.mem_cons_self (a := f))
    exact absurd (Outcome.same_iff.mpr (first.trans second.symm)) (Bool.eq_false_iff.mp apart)

theorem get_of_perm {l l' : List (α × Float)} (h : l.Perm l') (distinct : Distinct l) (v : α) :
    (ofList l).get v = (ofList l').get v := by
  have entries := h.filter fun e => Outcome.same e.1 v
  rw [get_ofList, get_ofList]
  rcases distinct.filter_eq v with none | ⟨e, -, one⟩
  · rw [none, List.nil_perm] at entries
    rw [none, entries]
  · rw [one, List.singleton_perm] at entries
    rw [one, entries]

theorem isNaN_get_ofList {l : List (α × Float)} (distinct : Distinct l)
    (numbers : ∀ e ∈ l, e.2.isNaN = false) (v : α) : ((ofList l).get v).isNaN = false := by
  rw [get_ofList]
  rcases distinct.filter_eq v with none | ⟨e, he, one⟩
  · rw [none]
    show (0.0 : Float).isNaN = false
    decide
  · rw [one]
    show (0.0 + e.2).isNaN = false
    rw [(add_null_left isNull_zero).isNaN]
    exact numbers e he

/-- **Entries in another order** make an equal mass function. -/
theorem same_of_perm {l l' : List (α × Float)} (h : l.Perm l') (distinct : Distinct l)
    (numbers : ∀ e ∈ l, e.2.isNaN = false) : (ofList l).same (ofList l') = true := by
  refine (same_iff_get _ _).mpr ⟨fun v => ?_, fun v => ?_⟩
  · rw [records_ofList, records_ofList]
    exact h.any_eq
  · rw [← get_of_perm h distinct, beq_self_iff]
    exact isNaN_get_ofList distinct numbers v

end Pmf

/-! ## Values -/

theorem Law.same_comm (l k : Law) : l.same k = k.same l := by
  cases l <;> cases k <;> simp only [Law.same, beq_comm_double]

theorem Law.same_trans {l k j : Law} (h : l.same k = true) (h' : k.same j = true) :
    l.same j = true := by
  have both {a b c a' b' c' : Float} (h : (a == b && a' == b') = true)
      (h' : (b == c && b' == c') = true) : (a == c && a' == c') = true := by
    rw [Bool.and_eq_true] at h h' ⊢
    exact ⟨beq_trans_double h.1 h'.1, beq_trans_double h.2 h'.2⟩
  cases l with
  | normal m s => cases k with
    | normal n t => cases j with
      | normal o u => exact both h h'
      | beta a b => cases h'
    | beta a b => cases h
  | beta a b => cases k with
    | normal n t => cases h
    | beta c d => cases j with
      | normal o u => cases h'
      | beta e f => exact both h h'

theorem Distribution.same_comm (d e : Distribution) : d.same e = e.same d := by
  cases d <;> cases e <;> simp only [Distribution.same, beq_comm_double, Law.same_comm]

theorem Distribution.same_trans {d e f : Distribution} (h : d.same e = true)
    (h' : e.same f = true) : d.same f = true := by
  cases d with
  | bernoulli p => cases e with
    | bernoulli q => cases f with
      | bernoulli r => exact beq_trans_double h h'
      | _ => cases h'
    | _ => cases h
  | flip p => cases e with
    | flip q => cases f with
      | flip r => exact beq_trans_double h h'
      | _ => cases h'
    | _ => cases h
  | continuous l => cases e with
    | continuous k => cases f with
      | continuous j => exact Law.same_trans h h'
      | _ => cases h'
    | _ => cases h

theorem Affine.same_comm (x y : Affine) : x.same y = y.same x := by
  simp only [Affine.same, Law.same_comm x.law, beq_comm_double x.offset,
    beq_comm_double x.scale]

theorem Affine.same_trans {x y z : Affine} (h : x.same y = true) (h' : y.same z = true) :
    x.same z = true := by
  simp only [Affine.same, Bool.and_eq_true] at h h' ⊢
  obtain ⟨⟨law, offset⟩, scale⟩ := h
  obtain ⟨⟨law', offset'⟩, scale'⟩ := h'
  exact ⟨⟨Law.same_trans law law', beq_trans_double offset offset'⟩,
    beq_trans_double scale scale'⟩

namespace Value

theorem same_of_kind_ne {v w : Value Float} (h : v.kind ≠ w.kind) : v.same w = false := by
  cases v <;> cases w <;> first | rfl | exact absurd rfl h

theorem kind_eq_of_same {v w : Value Float} (h : v.same w = true) : v.kind = w.kind := by
  by_contra kinds
  rw [same_of_kind_ne kinds] at h
  cases h

theorem same_comm (v w : Value Float) : v.same w = w.same v := by
  by_cases kinds : v.kind = w.kind
  · cases v <;> cases w <;> cases kinds
    · exact Pmf.same_comm _ _
    · exact Pmf.same_comm _ _
    · exact Pmf.same_comm _ _
    · exact Affine.same_comm _ _
    · exact Distribution.same_comm _ _
  · rw [same_of_kind_ne kinds, same_of_kind_ne (Ne.symm kinds)]

theorem same_trans {u v w : Value Float} (h : u.same v = true) (h' : v.same w = true) :
    u.same w = true := by
  have kinds := kind_eq_of_same h
  have kinds' := kind_eq_of_same h'
  cases u <;> cases v <;> cases kinds <;> cases w <;> cases kinds'
  · exact Pmf.same_trans h h'
  · exact Pmf.same_trans h h'
  · exact Pmf.same_trans h h'
  · exact Affine.same_trans h h'
  · exact Distribution.same_trans h h'

/-- **Equality.**  Mass functions are equal just if they record the same outcomes and have masses of
equal value at each of them; outcomes are the same if they are equal, and doubles if their words are
or both are no number.  Equality of values is symmetric and transitive, and values of two kinds are
never equal.  A mass function is equal to itself just if all its masses are numbers.  Entries of
different outcomes whose masses are numbers make equal mass functions in whatever order they are
added. -/
theorem equal_values :
    (∀ (α : Type) [Outcome α] (s t : Pmf α Float), s.same t = true ↔
      (∀ v, s.records v = t.records v) ∧ ∀ v, (s.get v == t.get v) = true) ∧
    (∀ a b : Bool, Outcome.same a b = true ↔ a = b) ∧
    (∀ m n : Int64, Outcome.same m n = true ↔ m = n) ∧
    (∀ x y : Double, Outcome.same x y = true ↔
      x.word = y.word ∨ (x.toFloat.isNaN = true ∧ y.toFloat.isNaN = true)) ∧
    (∀ s t : Pmf Bool Float, (Value.bool s).same (.bool t) = s.same t) ∧
    (∀ s t : Pmf Int64 Float, (Value.int s).same (.int t) = s.same t) ∧
    (∀ s t : Pmf Double Float, (Value.float s).same (.float t) = s.same t) ∧
    (∀ v w : Value Float, v.same w = w.same v) ∧
    (∀ u v w : Value Float, u.same v = true → v.same w = true → u.same w = true) ∧
    (∀ v w : Value Float, v.kind ≠ w.kind → v.same w = false) ∧
    (∀ (α : Type) [Outcome α] (s : Pmf α Float),
      s.same s = true ↔ ∀ e ∈ s.entries, e.2.isNaN = false) ∧
    (∀ (α : Type) [Outcome α] (l l' : List (α × Float)), l.Perm l' →
      (l.Pairwise fun e f => Outcome.same e.1 f.1 = false) → (∀ e ∈ l, e.2.isNaN = false) →
      (Pmf.ofList l).same (Pmf.ofList l') = true) :=
  ⟨fun _ _ => Pmf.same_iff_get, Outcome.same_bool_iff, Outcome.same_int64_iff,
    Double.same_iff_word, fun _ _ => rfl, fun _ _ => rfl, fun _ _ => rfl, same_comm,
    fun _ _ _ => same_trans, fun _ _ => same_of_kind_ne, fun _ _ => Pmf.same_self_iff,
    fun _ _ _ _ => Pmf.same_of_perm⟩

/-! ### The two zeros and what is no number, in three orders -/

def zerosFirst : List (Double × Float) :=
  [(.ofFloat 0.0, 0.25), (.ofFloat (-0.0), 0.25), (.invalid, 0.5)]

def invalidFirst : List (Double × Float) :=
  [(.invalid, 0.5), (.ofFloat (-0.0), 0.25), (.ofFloat 0.0, 0.25)]

def minusZeroFirst : List (Double × Float) :=
  [(.ofFloat (-0.0), 0.25), (.invalid, 0.5), (.ofFloat 0.0, 0.25)]

theorem equal_values_threeOrders :
    (Value.float (.ofList zerosFirst)).same (.float (.ofList minusZeroFirst)) = true ∧
    (Value.float (.ofList zerosFirst)).same (.bool (.ofList [(true, 1.0)])) = false := by
  obtain ⟨-, -, -, -, -, -, -, -, transitive, kinds, -, reordered⟩ := equal_values
  have numbers : ∀ l ∈ [zerosFirst, invalidFirst], ∀ e ∈ l, e.2.isNaN = false := by decide +kernel
  have first := reordered Double zerosFirst invalidFirst (by decide +kernel) (by decide +kernel)
    (numbers _ List.mem_cons_self)
  have second := reordered Double invalidFirst minusZeroFirst (by decide +kernel)
    (by decide +kernel) (numbers _ (List.mem_cons_of_mem _ List.mem_cons_self))
  exact ⟨transitive _ (.float (.ofList invalidFirst)) _ first second, kinds _ _ (by decide)⟩

end Value

end Chance
