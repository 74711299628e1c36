import Chance.Proofs.Building
import Mathlib.Data.List.Basic
import Mathlib.Data.List.ProdSigma

/-!
# Combinations as pushforwards

A combination is the image of the pairs of outcomes under an operation, in the order in which the
pairs are enumerated: which outcomes it has and in which order, and for each of them which products
of masses are added, from left to right.  An operation that can fail does so for the first pair that
fails, whatever the masses are.

* `couples`, `joint`      the pairs of outcomes in the order of enumeration, and their masses;
* `pairs_eq`              enumeration goes through these pairs with these masses;
* `combine_eq`, `tryCombine_eq`   combinations as lists of results;
* `tryCombine_of_total`   an operation that has a result for each pair never fails;
* `combine_pushforward`   outcomes, masses and faults of a combination.
-/

namespace Chance
namespace Pmf

variable {α β γ M ε : Type} [Outcome α] [Outcome β] [Outcome γ] [Mass M]

/-! ## Pairs of outcomes -/

/-- the pairs of outcomes, all those of the second operand for each of the first -/
def couples (l : Pmf α M) (r : Pmf β M) : List (α × β) := l.values.product r.values

/-- the product of the masses of a pair -/
def joint (l : Pmf α M) (r : Pmf β M) (p : α × β) : M := Mass.mul (l.get p.1) (r.get p.2)

omit [Mass M] in
theorem length_couples (l : Pmf α M) (r : Pmf β M) : (l.couples r).length = l.size * r.size := by
  have product := List.length_product l.values r.values
  rwa [length_values, length_values] at product

/-- enumeration goes through the pairs of outcomes with the products of their masses -/
theorem pairs_eq (l : Pmf α M) (r : Pmf β M) :
    l.pairs r = (l.couples r).map fun p => (p, l.joint r p) := by
  unfold pairs couples List.product values
  rw [List.flatMap_map, List.map_flatMap]
  refine List.flatMap_congr fun e he => ?_
  rw [List.map_map, List.map_map]
  refine List.map_congr_left fun f hf => ?_
  simp only [Function.comp_apply, joint, get_of_mem he, get_of_mem hf]

/-! ## Combinations as lists of results -/

theorem combine_eq (l : Pmf α M) (r : Pmf β M) (op : α → β → γ) :
    l.combine r op = ofList ((l.couples r).map fun p => (op p.1 p.2, l.joint r p)) := by
  unfold combine
  rw [pairs_eq, List.map_map]
  rfl

theorem values_combine (l : Pmf α M) (r : Pmf β M) (op : α → β → γ) :
    (l.combine r op).values =
      ((l.couples r).map fun p => op p.1 p.2).eraseDupsBy Outcome.same := by
  rw [combine_eq, values_ofList, List.map_map]
  rfl

theorem get_combine (l : Pmf α M) (r : Pmf β M) (op : α → β → γ) (w : γ) :
    (l.combine r op).get w =
      ((l.couples r).filter fun p => Outcome.same (op p.1 p.2) w).foldl
        (fun t p => Mass.add t (l.joint r p)) Mass.zero := by
  rw [combine_eq, get_ofList, List.filter_map, List.foldl_map]
  rfl

theorem size_combine_le (l : Pmf α M) (r : Pmf β M) (op : α → β → γ) :
    (l.combine r op).size ≤ l.size * r.size := by
  have results := size_ofList_le ((l.couples r).map fun p => (op p.1 p.2, l.joint r p))
  rwa [← combine_eq, List.length_map, length_couples] at results

theorem size_combine_eq_zero (l : Pmf α M) (r : Pmf β M) (op : α → β → γ) :
    (l.combine r op).size = 0 ↔ l.size = 0 ∨ r.size = 0 := by
  rw [combine_eq, size_ofList_eq_zero, List.map_eq_nil_iff, ← List.length_eq_zero_iff,
    length_couples, Nat.mul_eq_zero]

/-! ## Operations that can fail -/

omit [Outcome α] [Outcome β] [Outcome γ] [Mass M] in
theorem tryPair_eq_ok {op : α → β → Except ε γ} {p : α × β} {w : γ} (h : op p.1 p.2 = .ok w)
    (q : M) : tryPair op (p, q) = .ok (w, q) := by
  unfold tryPair
  rw [h]

omit [Outcome α] [Outcome β] [Outcome γ] [Mass M] in
theorem tryPair_eq_error_iff {op : α → β → Except ε γ} {p : α × β} {q : M} {f : ε} :
    tryPair op (p, q) = .error f ↔ op p.1 p.2 = .error f := by
  unfold tryPair
  cases op p.1 p.2 <;> simp

omit [Outcome α] [Outcome β] [Outcome γ] [Mass M] in
theorem exists_tryPair_iff {op : α → β → Except ε γ} {p : α × β} {q : M} :
    (∃ e, tryPair op (p, q) = .ok e) ↔ ∃ w, op p.1 p.2 = .ok w := by
  unfold tryPair
  cases op p.1 p.2 <;> simp

theorem tryCombine_eq (l : Pmf α M) (r : Pmf β M) (op : α → β → Except ε γ) :
    l.tryCombine r op =
      ((l.couples r).mapM fun p => tryPair op (p, l.joint r p)).map ofList := by
  unfold tryCombine
  rw [pairs_eq, List.mapM_map]
  rfl

theorem map_ofList_eq_error_iff {x : Except ε (List (γ × M))} {f : ε} :
    x.map ofList = .error f ↔ x = .error f := by
  cases x <;> simp [Except.map]

/-- the fault of a combination is that of the first pair that fails -/
theorem tryCombine_eq_error_iff {l : Pmf α M} {r : Pmf β M} {op : α → β → Except ε γ} {f : ε} :
    l.tryCombine r op = .error f ↔ ∃ before p after, l.couples r = before ++ p :: after ∧
      (∀ q ∈ before, ∃ w, op q.1 q.2 = .ok w) ∧ op p.1 p.2 = .error f := by
  rw [tryCombine_eq, map_ofList_eq_error_iff, mapM_eq_error_iff]
  simp only [exists_tryPair_iff, tryPair_eq_error_iff]

/-- where each pair has a result, the results are combined -/
theorem tryCombine_of_total {l : Pmf α M} {r : Pmf β M} {op : α → β → Except ε γ} {g : α → β → γ}
    (h : ∀ p ∈ l.couples r, op p.1 p.2 = .ok (g p.1 p.2)) :
    l.tryCombine r op = .ok (l.combine r g) := by
  rw [tryCombine_eq, mapM_eq_ok fun p hp => tryPair_eq_ok (h p hp) (l.joint r p), combine_eq]
  rfl

/-- a combination fails just where a pair fails -/
theorem exists_tryCombine_iff {l : Pmf α M} {r : Pmf β M} {op : α → β → Except ε γ} :
    (∃ f, l.tryCombine r op = .error f) ↔ ∃ p ∈ l.couples r, ∃ f, op p.1 p.2 = .error f := by
  simp only [tryCombine_eq, map_ofList_eq_error_iff]
  rw [exists_mapM_error_iff]
  simp only [tryPair_eq_error_iff]

/-- **A combination is the pushforward of the pairs, also in its order.** -/
theorem combine_pushforward (l : Pmf α M) (r : Pmf β M) :
    (∀ op : α → β → γ,
      (l.combine r op).values =
        ((l.couples r).map fun p => op p.1 p.2).eraseDupsBy Outcome.same ∧
      (∀ w, (l.combine r op).get w =
        ((l.couples r).filter fun p => Outcome.same (op p.1 p.2) w).foldl
          (fun t p => Mass.add t (Mass.mul (l.get p.1) (r.get p.2))) Mass.zero) ∧
      (l.combine r op).size ≤ l.size * r.size ∧
      ((l.combine r op).size = 0 ↔ l.size = 0 ∨ r.size = 0)) ∧
    (∀ op : α → β → Except ε γ,
      ((∃ f, l.tryCombine r op = .error f) ↔ ∃ p ∈ l.couples r, ∃ f, op p.1 p.2 = .error f) ∧
      (∀ f, l.tryCombine r op = .error f ↔ ∃ before p after,
        l.couples r = before ++ p :: after ∧ (∀ q ∈ before, ∃ w, op q.1 q.2 = .ok w) ∧
          op p.1 p.2 = .error f) ∧
      (∀ g : α → β → γ, (∀ p ∈ l.couples r, op p.1 p.2 = .ok (g p.1 p.2)) →
        l.tryCombine r op = .ok (l.combine r g))) := by
  refine ⟨fun op => ?_, fun op => ⟨exists_tryCombine_iff, fun f => tryCombine_eq_error_iff, ?_⟩⟩
  · exact ⟨values_combine l r op, get_combine l r op, size_combine_le l r op,
      size_combine_eq_zero l r op⟩
  · intro g h
    exact tryCombine_of_total h

end Pmf
end Chance
