import Chance.Pmf
import Std.Data.TreeMap

/-!
# Equality of mass functions

Two mass functions are the same if they record the same outcomes with masses of equal value, in
whatever order (`same_iff`).  The masses of one side are looked up by the keys of their outcomes.
-/

namespace Chance
namespace Pmf

variable {α M : Type} [Outcome α]

def index (s : Pmf α M) : Std.TreeMap UInt64 M :=
  .ofList (s.entries.map fun e => (Outcome.key e.1, e.2))

theorem getElem?_index_of_mem (s : Pmf α M) {e : α × M} (h : e ∈ s.entries) :
    s.index[Outcome.key e.1]? = some e.2 := by
  refine Std.TreeMap.getElem?_ofList_of_mem (Std.compare_eq_iff_eq.mpr rfl) ?_
    (List.mem_map_of_mem (f := fun e => (Outcome.key e.1, e.2)) h)
  rw [List.pairwise_map]
  exact (List.pairwise_map.mp s.nodup).imp fun ne eq => ne (Std.compare_eq_iff_eq.mp eq)

theorem getElem?_index_iff (s : Pmf α M) (k : UInt64) (p : M) :
    s.index[k]? = some p ↔ ∃ e ∈ s.entries, Outcome.key e.1 = k ∧ e.2 = p := by
  constructor
  · intro h
    have found : k ∈ s.index := by rw [Std.TreeMap.mem_iff_isSome_getElem?, h]; rfl
    rw [index, Std.TreeMap.mem_ofList, List.contains_iff_mem, List.map_map] at found
    obtain ⟨e, he, rfl⟩ := List.mem_map.mp found
    exact ⟨e, he, rfl, Option.some.inj ((s.getElem?_index_of_mem he).symm.trans h)⟩
  · rintro ⟨e, he, rfl, rfl⟩
    exact s.getElem?_index_of_mem he

/-- the same outcomes with masses of equal value -/
def same [Mass M] (s t : Pmf α M) : Bool :=
  let masses := t.index
  s.size == t.size && s.entries.all fun e => masses[Outcome.key e.1]?.any (Mass.eq e.2)

theorem same_iff [Mass M] (s t : Pmf α M) :
    s.same t = true ↔ s.size = t.size ∧
      ∀ e ∈ s.entries, ∃ f ∈ t.entries, Outcome.key f.1 = Outcome.key e.1 ∧
        Mass.eq e.2 f.2 = true := by
  simp only [same, Bool.and_eq_true, beq_iff_eq, List.all_eq_true, Option.any_eq_true,
    getElem?_index_iff]
  refine and_congr_right fun _ => forall₂_congr fun e _ => ⟨?_, ?_⟩
  · rintro ⟨p, ⟨f, hf, hk, rfl⟩, hp⟩
    exact ⟨f, hf, hk, hp⟩
  · rintro ⟨f, hf, hk, hp⟩
    exact ⟨f.2, ⟨f, hf, hk, rfl⟩, hp⟩

end Pmf
end Chance
