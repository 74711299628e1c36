import Chance.Pmf.Combination
import Mathlib.Data.List.Forall2

/-!
# Building mass functions

What a mass function that was built from a list has of the list: its outcomes are those of the list
without repeats, in the order in which they first occur, and the mass of an outcome is the sum of
the masses that the list gives it, added from the left.  Nothing is assumed of the arithmetic, so
that the order of the additions is part of what is said.

* `values_add`, `get_add`   one addition;
* `values_foldl_add`, `get_foldl_add`   additions one after the other;
* `values_ofList`, `get_ofList`   the whole list;
* `get_of_mem`            the mass of an entry is the mass of its outcome;
* `mapM_eq_ok`, `forall₂_of_mapM`, `mapM_eq_error_iff`, `exists_mapM_error_iff`   results for a
  whole list, or the first fault.
-/

namespace Chance

/-! ## Results for a list -/

section

variable {α β ε : Type} {f : α → Except ε β} {a : α} {b : β} {e : ε}

theorem mapM_cons_error (h : f a = .error e) (as : List α) : (a :: as).mapM f = .error e := by
  rw [List.mapM_cons, h]
  rfl

theorem mapM_cons_ok (h : f a = .ok b) (as : List α) :
    (a :: as).mapM f = (as.mapM f).map (b :: ·) := by
  rw [List.mapM_cons, h]
  cases as.mapM f <;> rfl

theorem mapM_eq_ok {g : α → β} {xs : List α} (h : ∀ x ∈ xs, f x = .ok (g x)) :
    xs.mapM f = .ok (xs.map g) := by
  induction xs with
  | nil => rfl
  | cons x xs ih =>
    obtain ⟨first, rest⟩ := List.forall_mem_cons.mp h
    rw [mapM_cons_ok first, ih rest]
    rfl

/-- the results of a list are those of its elements -/
theorem forall₂_of_mapM {xs : List α} {ys : List β} (h : xs.mapM f = .ok ys) :
    List.Forall₂ (fun x y => f x = .ok y) xs ys := by
  induction xs generalizing ys with
  | nil =>
    cases h
    exact .nil
  | cons x xs ih =>
    cases hx : f x with
    | error e =>
      rw [mapM_cons_error hx] at h
      cases h
    | ok y =>
      rw [mapM_cons_ok hx] at h
      cases hs : xs.mapM f with
      | error e =>
        rw [hs] at h
        cases h
      | ok ys =>
        rw [hs] at h
        cases h
        exact .cons hx (ih hs)

/-- the fault of a list is that of the first element that has one -/
theorem mapM_eq_error_iff {xs : List α} :
    xs.mapM f = .error e ↔ ∃ before x after,
      xs = before ++ x :: after ∧ (∀ y ∈ before, ∃ b, f y = .ok b) ∧ f x = .error e := by
  induction xs with
  | nil =>
    constructor
    · intro h
      cases h
    · rintro ⟨before, x, after, split, -, -⟩
      exact absurd split.symm (List.append_ne_nil_of_right_ne_nil before (List.cons_ne_nil x after))
  | cons a as ih =>
    cases ha : f a with
    | error d =>
      rw [mapM_cons_error ha, Except.error.injEq]
      constructor
      · rintro rfl
        exact ⟨[], a, as, rfl, fun y hy => absurd hy List.not_mem_nil, ha⟩
      · rintro ⟨_ | ⟨c, before⟩, x, after, split, passed, failed⟩
        · cases split
          exact Except.error.inj (ha.symm.trans failed)
        · cases split
          obtain ⟨b, found⟩ := passed a List.mem_cons_self
          cases ha.symm.trans found
    | ok b =>
      have rest : (as.mapM f).map (b :: ·) = .error e ↔ as.mapM f = .error e := by
        cases as.mapM f <;> simp [Except.map]
      rw [mapM_cons_ok ha, rest, ih]
      constructor
      · rintro ⟨before, x, after, rfl, passed, failed⟩
        exact ⟨a :: before, x, after, rfl, List.forall_mem_cons.mpr ⟨⟨b, ha⟩, passed⟩, failed⟩
      · rintro ⟨_ | ⟨c, before⟩, x, after, split, passed, failed⟩
        · cases split
          cases ha.symm.trans failed
        · cases split
          exact ⟨before, x, after, rfl, (List.forall_mem_cons.mp passed).2, failed⟩

/-- a list fails just where an element does -/
theorem exists_mapM_error_iff {xs : List α} :
    (∃ e, xs.mapM f = .error e) ↔ ∃ x ∈ xs, ∃ e, f x = .error e := by
  constructor
  · rintro ⟨e, h⟩
    obtain ⟨before, x, after, rfl, -, failed⟩ := mapM_eq_error_iff.mp h
    exact ⟨x, List.mem_append_right _ List.mem_cons_self, e, failed⟩
  · rintro ⟨x, hx, e, failed⟩
    induction xs with
    | nil => cases hx
    | cons a as ih =>
      cases ha : f a with
      | error d => exact ⟨d, mapM_cons_error ha as⟩
      | ok b =>
        have later : x ∈ as := by
          rcases List.mem_cons.mp hx with rfl | later
          · cases ha.symm.trans failed
          · exact later
        obtain ⟨d, hd⟩ := ih later
        exact ⟨d, by rw [mapM_cons_ok ha, hd]; rfl⟩

end

/-! ## Outcomes -/

section

variable {α : Type} [Outcome α]

theorem Outcome.same_iff {a b : α} : Outcome.same a b = true ↔ Outcome.key a = Outcome.key b :=
  decide_eq_true_iff

theorem Outcome.same_comm (a b : α) : Outcome.same a b = Outcome.same b a :=
  Bool.eq_iff_iff.mpr (by rw [same_iff, same_iff, eq_comm])

end

namespace Pmf

variable {α M : Type} [Outcome α] [Mass M]

/-- is an outcome recorded? -/
def records (s : Pmf α M) (v : α) : Bool := s.values.any fun w => Outcome.same w v

omit [Mass M] in
theorem records_iff {s : Pmf α M} {v : α} :
    s.records v = true ↔ Outcome.key v ∈ s.entries.map fun e => Outcome.key e.1 := by
  unfold records values
  rw [List.any_map, List.any_eq_true, List.mem_map]
  simp only [Function.comp_apply, Outcome.same_iff]

/-! ## One addition -/

theorem values_add (s : Pmf α M) (v : α) (p : M) :
    (s.add v p).values = if s.records v then s.values else s.values ++ [v] := by
  unfold values
  rw [entries_add]
  split
  · next recorded =>
    rw [accumulate_of_mem p s.nodup (records_iff.mp recorded), List.map_map]
    refine List.map_congr_left fun e _ => ?_
    rw [Function.comp_apply]
    split <;> rfl
  · next fresh =>
    rw [accumulate_of_not_mem p fun recorded => fresh (records_iff.mpr recorded), List.map_append]
    rfl

theorem get_add (s : Pmf α M) (v w : α) (p : M) :
    (s.add v p).get w = if Outcome.same v w then Mass.add (s.get w) p else s.get w := by
  split
  · next same => exact s.get_add_same (Outcome.same_iff.mp same) p
  · next other => exact s.get_add_other (fun same => other (Outcome.same_iff.mpr same)) p

/-- an outcome is recorded with its mass -/
theorem get_of_mem {s : Pmf α M} {e : α × M} (h : e ∈ s.entries) : s.get e.1 = e.2 := by
  obtain ⟨es, distinct⟩ := s
  show lookup e.1 es = e.2
  induction es with
  | nil => cases h
  | cons d es ih =>
    rw [List.map_cons, List.nodup_cons] at distinct
    rcases List.mem_cons.mp h with rfl | later
    · exact if_pos rfl
    · have passed : lookup e.1 (d :: es) = lookup e.1 es := by
        refine if_neg fun same => distinct.1 ?_
        rw [same]
        exact List.mem_map_of_mem later
      rw [passed]
      exact ih distinct.2 later

theorem get_congr (s : Pmf α M) {v w : α} (h : Outcome.key v = Outcome.key w) :
    s.get v = s.get w := by
  unfold get
  induction s.entries with
  | nil => rfl
  | cons e es ih => rw [lookup, lookup, h, ih]

theorem get_of_not_records {s : Pmf α M} {v : α} (h : ¬ s.records v = true) :
    s.get v = Mass.zero := by
  rw [records_iff] at h
  unfold get
  generalize s.entries = es at h ⊢
  induction es with
  | nil => rfl
  | cons e es ih =>
    rw [List.map_cons, List.mem_cons, not_or] at h
    exact (if_neg fun same => h.1 same.symm).trans (ih h.2)

/-! ## Lists -/

/-- the outcomes that are new come last, each of them once -/
theorem values_foldl_add (l : List (α × M)) (s : Pmf α M) :
    (l.foldl (fun s e => s.add e.1 e.2) s).values =
      s.values ++ ((l.map Prod.fst).filter fun v => !s.records v).eraseDupsBy Outcome.same := by
  induction l generalizing s with
  | nil => exact (List.append_nil _).symm
  | cons e l ih =>
    rw [List.foldl_cons, ih, values_add, List.map_cons]
    by_cases recorded : s.records e.1 = true
    · have kept (v : α) : (s.add e.1 e.2).records v = s.records v := by
        unfold records
        rw [values_add, if_pos recorded]
      simp only [recorded, if_true, kept, Bool.not_true, Bool.false_eq_true, not_false_eq_true,
        List.filter_cons_of_neg]
    · rw [Bool.not_eq_true] at recorded
      have more (v : α) : (s.add e.1 e.2).records v = (s.records v || Outcome.same e.1 v) := by
        unfold records
        rw [values_add, if_neg (by rw [recorded]; decide), List.any_append, List.any_cons,
          List.any_nil, Bool.or_false]
      have first : (e.1 :: l.map Prod.fst).filter (fun v => !s.records v) =
          e.1 :: (l.map Prod.fst).filter fun v => !s.records v :=
        List.filter_cons_of_pos (by rw [recorded]; rfl)
      rw [recorded, if_neg (by decide), first, List.eraseDupsBy_cons, List.filter_filter,
        List.append_assoc, List.singleton_append]
      congr 3
      refine List.filter_congr fun v _ => ?_
      rw [more, Outcome.same_comm]
      cases s.records v <;> cases Outcome.same v e.1 <;> rfl

/-- what a list adds to a mass is added from the left -/
theorem get_foldl_add (l : List (α × M)) (s : Pmf α M) (w : α) :
    (l.foldl (fun s e => s.add e.1 e.2) s).get w =
      (l.filter fun e => Outcome.same e.1 w).foldl (fun t e => Mass.add t e.2) (s.get w) := by
  induction l generalizing s with
  | nil => rfl
  | cons e l ih =>
    rw [List.foldl_cons, ih, get_add]
    by_cases same : Outcome.same e.1 w = true
    · have kept := List.filter_cons_of_pos (p := fun e : α × M => Outcome.same e.1 w) (l := l) same
      rw [if_pos same, kept, List.foldl_cons]
    · have dropped :=
        List.filter_cons_of_neg (p := fun e : α × M => Outcome.same e.1 w) (l := l) same
      rw [if_neg same, dropped]

theorem values_ofList (l : List (α × M)) :
    (ofList l).values = (l.map Prod.fst).eraseDupsBy Outcome.same := by
  have all : (l.map Prod.fst).filter (fun v => !(empty : Pmf α M).records v) = l.map Prod.fst :=
    List.filter_eq_self.mpr fun _ _ => rfl
  rw [ofList_eq_foldl, values_foldl_add, all]
  rfl

theorem get_ofList (l : List (α × M)) (w : α) :
    (ofList l).get w =
      (l.filter fun e => Outcome.same e.1 w).foldl (fun t e => Mass.add t e.2) Mass.zero := by
  rw [ofList_eq_foldl, get_foldl_add, get_empty]

/-! ## Sizes -/

omit [Mass M] in
theorem length_values (s : Pmf α M) : s.values.length = s.size := List.length_map _

theorem size_foldl_add_le (l : List (α × M)) (s : Pmf α M) :
    (l.foldl (fun s e => s.add e.1 e.2) s).size ≤ s.size + l.length := by
  induction l generalizing s with
  | nil => exact Nat.le_refl _
  | cons e l ih =>
    have one : (s.add e.1 e.2).size ≤ s.size + 1 := by
      rw [← length_values, ← length_values, values_add]
      split
      · exact Nat.le_succ _
      · exact Nat.le_of_eq List.length_append
    have rest := ih (s.add e.1 e.2)
    rw [List.foldl_cons, List.length_cons]
    omega

theorem size_ofList_le (l : List (α × M)) : (ofList l).size ≤ l.length := by
  have all := size_foldl_add_le l empty
  rwa [size_empty, Nat.zero_add, ← ofList_eq_foldl] at all

theorem size_ofList_eq_zero (l : List (α × M)) : (ofList l).size = 0 ↔ l = [] := by
  rw [← length_values, values_ofList, List.length_eq_zero_iff]
  cases l with
  | nil => exact ⟨fun _ => rfl, fun _ => rfl⟩
  | cons e l =>
    rw [List.map_cons, List.eraseDupsBy_cons]
    exact ⟨fun h => (List.cons_ne_nil _ _ h).elim, fun h => (List.cons_ne_nil _ _ h).elim⟩

end Pmf
end Chance
