import Chance.Proofs.Building
import Chance.Proofs.FloatOutcomes
import Mathlib.Data.Finset.Card
import Mathlib.Data.List.Nodup

/-!
# Histories of additions

A mass function holds all of the list it was built from that matters: which outcomes were added, in
which order for the first time, and for each of them the masses that were added to it.  Later
additions keep what is recorded and only put new outcomes behind it.

* `first_of_foldl_add`    the outcome that is recorded is the first one of its key;
* `values_prefix_add`     what is recorded stays, in its place;
* `size_ofList`           there are as many entries as keys;
* `entry_unique`, `single_eq_some_iff`   the only outcome with mass;
* `additions_recorded`    mass functions of lists.
-/

namespace Chance

/-- words are one outcome if they are equal or both no number -/
theorem Double.same_iff_word (x y : Double) :
    Outcome.same x y = true ↔
      x.word = y.word ∨ (x.toFloat.isNaN = true ∧ y.toFloat.isNaN = true) := by
  have words : x = y ↔ x.word = y.word := by
    cases x
    cases y
    exact Double.mk.injEq _ _ ▸ Iff.rfl
  rw [Outcome.same_iff, ← words]
  exact key_eq_iff x y

theorem Outcome.same_bool_iff (a b : Bool) : Outcome.same a b = true ↔ a = b := by
  rw [same_bool, beq_iff_eq]

theorem Outcome.same_int64_iff (m n : Int64) : Outcome.same m n = true ↔ m = n := by
  rw [same_int64, beq_iff_eq]

namespace Pmf

variable {α M : Type} [Outcome α] [Mass M]

/-! ## First occurrences -/

omit [Mass M] in
theorem records_congr (s : Pmf α M) {v w : α} (h : Outcome.same v w = true) :
    s.records v = s.records w := by
  rw [Bool.eq_iff_iff, records_iff, records_iff, Outcome.same_iff.mp h]

omit [Mass M] in
theorem records_of_mem {s : Pmf α M} {v : α} (h : v ∈ s.values) : s.records v = true :=
  List.any_eq_true.mpr ⟨v, h, Outcome.same_iff.mpr rfl⟩

theorem records_add (s : Pmf α M) (v w : α) (p : M) :
    (s.add v p).records w = (s.records w || Outcome.same v w) := by
  have key := records_congr s (v := v) (w := w)
  unfold records at key ⊢
  rw [values_add]
  split
  · next recorded =>
    unfold records at recorded
    cases same : Outcome.same v w with
    | false => rw [Bool.or_false]
    | true => rw [← key same, recorded, Bool.true_or]
  · rw [List.any_append, List.any_cons, List.any_nil, Bool.or_false]

/-- of the outcomes of one key the first one is recorded -/
theorem first_of_foldl_add (l : List (α × M)) (s : Pmf α M) (v : α) :
    v ∈ (l.foldl (fun s e => s.add e.1 e.2) s).values ↔
      v ∈ s.values ∨
        (s.records v = false ∧ (l.map Prod.fst).find? (fun w => Outcome.same w v) = some v) := by
  induction l generalizing s with
  | nil => simp
  | cons e l ih =>
    rw [List.foldl_cons, ih, records_add, List.map_cons, List.find?_cons, values_add]
    cases same : Outcome.same e.1 v with
    | true =>
      rw [Bool.or_true, ← records_congr s same]
      cases s.records e.1 <;> simp [eq_comm]
    | false =>
      have other : v ≠ e.1 := by
        rintro rfl
        exact absurd (Outcome.same_iff.mpr rfl) (Bool.eq_false_iff.mp same)
      rw [Bool.or_false]
      split <;> simp [other]

theorem first_of_ofList (l : List (α × M)) (v : α) :
    v ∈ (ofList l).values ↔ (l.map Prod.fst).find? (fun w => Outcome.same w v) = some v := by
  rw [ofList_eq_foldl, first_of_foldl_add]
  simp [values, records]

/-- an addition leaves what is recorded in its place -/
theorem values_prefix_add (s : Pmf α M) (v : α) (p : M) : s.values <+: (s.add v p).values := by
  rw [values_add]
  split
  · exact List.prefix_refl _
  · exact List.prefix_append _ _

/-! ## Sizes -/

omit [Mass M] in
/-- there are as many entries as keys -/
theorem size_eq_card (s : Pmf α M) :
    s.size = (s.entries.map fun e => Outcome.key e.1).toFinset.card := by
  rw [List.toFinset_card_of_nodup s.nodup, List.length_map]
  rfl

theorem records_ofList (l : List (α × M)) (v : α) :
    (ofList l).records v = l.any fun e => Outcome.same e.1 v := by
  suffices h : ∀ s : Pmf α M, (l.foldl (fun s e => s.add e.1 e.2) s).records v =
      (s.records v || l.any fun e => Outcome.same e.1 v) by
    rw [ofList_eq_foldl, h]
    rfl
  induction l with
  | nil => exact fun s => (Bool.or_false _).symm
  | cons e l ih =>
    intro s
    rw [List.foldl_cons, ih, records_add, List.any_cons, Bool.or_assoc]

theorem size_ofList (l : List (α × M)) :
    (ofList l).size = (l.map fun e => Outcome.key e.1).toFinset.card := by
  have keys : ((ofList l).entries.map fun e => Outcome.key e.1).toFinset =
      (l.map fun e => Outcome.key e.1).toFinset := by
    ext k
    rw [List.mem_toFinset, List.mem_toFinset]
    constructor
    · intro h
      obtain ⟨e, he, rfl⟩ := List.mem_map.mp h
      have recorded := records_of_mem (List.mem_map_of_mem (f := Prod.fst) he)
      rw [records_ofList, List.any_eq_true] at recorded
      obtain ⟨f, hf, same⟩ := recorded
      exact List.mem_map.mpr ⟨f, hf, Outcome.same_iff.mp same⟩
    · intro h
      obtain ⟨e, he, rfl⟩ := List.mem_map.mp h
      rw [← records_iff, records_ofList]
      exact List.any_eq_true.mpr ⟨e, he, Outcome.same_iff.mpr rfl⟩
  rw [size_eq_card, keys]

/-! ## The only outcome with mass -/

omit [Mass M] in
/-- an outcome has one entry -/
theorem entry_unique (s : Pmf α M) {e f : α × M} (he : e ∈ s.entries) (hf : f ∈ s.entries)
    (h : e.1 = f.1) : e = f :=
  List.inj_on_of_nodup_map s.nodup he hf (congrArg Outcome.key h)

omit [Outcome α] [Mass M] in
/-- just one element is kept -/
theorem filter_eq_singleton_iff {es : List (α × M)} (distinct : es.Nodup) (kept : α × M → Bool)
    (e : α × M) : es.filter kept = [e] ↔ ∀ f, f ∈ es ∧ kept f = true ↔ f = e := by
  have same := List.perm_ext_iff_of_nodup (distinct.filter kept) (List.nodup_singleton e)
  rw [List.perm_singleton] at same
  rw [same]
  exact forall_congr' fun f => by rw [List.mem_filter, List.mem_singleton]

theorem single_eq_some_iff (s : Pmf α M) (v : α) :
    s.single = some v ↔
      v ∈ s.values ∧ ∀ w ∈ s.values, Mass.nonzero (s.get w) = true ↔ w = v := by
  have found : s.single = some v ↔
      ∃ e, e.1 = v ∧ s.entries.filter (fun e => Mass.nonzero e.2) = [e] := by
    unfold single
    split
    · next e kept =>
      rw [kept]
      simp
    · next other => exact iff_of_false nofun fun ⟨e, _, kept⟩ => other e kept
  simp only [found, filter_eq_singleton_iff (List.Nodup.of_map _ s.nodup)]
  constructor
  · rintro ⟨e, rfl, one⟩
    have here := ((one e).mpr rfl).1
    refine ⟨List.mem_map_of_mem here, fun w hw => ?_⟩
    obtain ⟨f, hf, rfl⟩ := List.mem_map.mp hw
    rw [get_of_mem hf]
    exact ⟨fun mass => congrArg Prod.fst ((one f).mp ⟨hf, mass⟩),
      fun same => ((one f).mpr (s.entry_unique hf here same)).2⟩
  · rintro ⟨hv, only⟩
    obtain ⟨e, he, rfl⟩ := List.mem_map.mp hv
    refine ⟨e, rfl, fun f => ?_⟩
    constructor
    · rintro ⟨hf, mass⟩
      rw [← get_of_mem hf, only f.1 (List.mem_map_of_mem hf)] at mass
      exact s.entry_unique hf he mass
    · rintro rfl
      rw [← get_of_mem he]
      exact ⟨he, (only f.1 hv).mpr rfl⟩

/-- what is no number and what is below zero is not zero -/
theorem ne_zero_of_isNaN_or_neg {p : Float} (h : p.isNaN = true ∨ p < 0.0) : (p != 0.0) = true := by
  have compared : (p != 0.0) = !(p.toModel.unpack.compare (.zero .positive) == some .eq) := rfl
  rw [compared]
  rcases h with none | less
  · rw [unpack_of_isNaN none]
    rfl
  · change (decide (p.toModel < (0.0 : Float).toModel) = true) at less
    have below : (p.toModel.unpack.compare (.zero .positive) == some .lt) = true :=
      of_decide_eq_true less
    rw [beq_iff_eq.mp below]
    rfl

/-- **Additions.**  Outcomes that are added one by one, or all at once, are recorded in the order in
which they first occurred, each as it was added first.  The mass of an outcome is the sum from the
left, starting at zero, of just the masses that were added to it.  There are as many entries as
different outcomes, and further additions keep them.  The only outcome with mass is the recorded one
that has a mass other than zero, where all other masses are zero; masses that are no number and
negative ones are other than zero.  Booleans and integers are different outcomes where they differ,
doubles where their words do, unless both are no number. -/
theorem additions_recorded :
    (∀ (α : Type) [Outcome α] (l : List (α × Float)),
      l.foldl (fun s e => s.add e.1 e.2) empty = ofList l ∧
      (ofList l).values = (l.map Prod.fst).eraseDupsBy Outcome.same ∧
      (∀ v, v ∈ (ofList l).values ↔
        (l.map Prod.fst).find? (fun w => Outcome.same w v) = some v) ∧
      (∀ v, (ofList l).get v =
        ((l.filter fun e => Outcome.same e.1 v).map Prod.snd).foldl (· + ·) 0.0) ∧
      (ofList l).size = (l.map fun e => Outcome.key e.1).toFinset.card ∧
      (∀ v p, (ofList l).values <+: ((ofList l).add v p).values ∧
        (ofList l).size ≤ ((ofList l).add v p).size) ∧
      (∀ v, (ofList l).single = some v ↔
        v ∈ (ofList l).values ∧
          ∀ w ∈ (ofList l).values, ((ofList l).get w != 0.0) = true ↔ w = v)) ∧
    (∀ a b : Bool, Outcome.same a b = true ↔ a = b) ∧
    (∀ m n : Int64, Outcome.same m n = true ↔ m = n) ∧
    (∀ x y : Double, Outcome.same x y = true ↔
      x.word = y.word ∨ (x.toFloat.isNaN = true ∧ y.toFloat.isNaN = true)) ∧
    (∀ p : Float, p.isNaN = true ∨ p < 0.0 → (p != 0.0) = true) := by
  refine ⟨fun α _ l => ⟨(ofList_eq_foldl l).symm, values_ofList l, first_of_ofList l, fun v => ?_,
    size_ofList l, fun v p => ?_, fun v => single_eq_some_iff _ v⟩, Outcome.same_bool_iff,
    Outcome.same_int64_iff, Double.same_iff_word, fun p => ne_zero_of_isNaN_or_neg⟩
  · rw [get_ofList, List.foldl_map]
    rfl
  · have kept := values_prefix_add (ofList l) v p
    refine ⟨kept, ?_⟩
    rw [← length_values, ← length_values]
    exact kept.length_le

/-- two words that are no number are recorded as the first of them, the two zeros apart -/
example :
    (ofList [(⟨0xfff8000000000000⟩, 0.25), (.ofFloat 0.0, 0.25), (⟨0x7ff8000000000000⟩, 0.25),
      (.ofFloat (-0.0), 0.25)] : Pmf Double Float).entries =
    [(⟨0xfff8000000000000⟩, 0.5), (.ofFloat 0.0, 0.25), (.ofFloat (-0.0), 0.25)] := by
  decide +kernel

end Pmf
end Chance
