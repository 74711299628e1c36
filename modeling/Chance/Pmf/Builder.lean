import Chance.Pmf
import Std.Data.TreeMap

/-!
# Mass functions from lists

`Pmf.add` walks the entries, so a long list of masses is better collected in a `Builder`, which
looks outcomes up by their keys.  A builder stands for the mass function `toPmf`, and `toPmf_add`
says that adding is the same on both sides; hence `ofList`, which goes through a builder, is the
fold of `Pmf.add` (`ofList_eq_foldl`).
-/

namespace Chance
namespace Pmf

variable {α M : Type} [Outcome α]

/-- a mass function under construction -/
structure Builder (α M : Type) [Outcome α] where
  /-- the recorded outcomes, the last one first -/
  outcomes : List α
  /-- the masses by the keys of their outcomes -/
  masses : Std.TreeMap UInt64 M
  nodup : (outcomes.map Outcome.key).Nodup
  mem_masses : ∀ k, k ∈ masses ↔ k ∈ outcomes.map Outcome.key

namespace Builder

def empty : Builder α M where
  outcomes := []
  masses := ∅
  nodup := List.nodup_nil
  mem_masses := by simp

variable [Mass M]

def get (b : Builder α M) (v : α) : M := b.masses.getD (Outcome.key v) Mass.zero

def add (b : Builder α M) (v : α) (p : M) : Builder α M where
  outcomes := if Outcome.key v ∈ b.masses then b.outcomes else v :: b.outcomes
  masses := b.masses.insert (Outcome.key v) (Mass.add (b.get v) p)
  nodup := by
    split
    · exact b.nodup
    · next h => exact List.nodup_cons.mpr ⟨fun m => h ((b.mem_masses _).mpr m), b.nodup⟩
  mem_masses k := by
    rw [Std.TreeMap.mem_insert, Std.compare_eq_iff_eq]
    split
    · next h => exact ⟨fun | .inl e => e ▸ (b.mem_masses _).mp h | .inr m => (b.mem_masses k).mp m,
        fun m => .inr ((b.mem_masses k).mpr m)⟩
    · rw [b.mem_masses, List.map_cons, List.mem_cons, eq_comm]

def entry (b : Builder α M) (v : α) : α × M := (v, b.get v)

theorem map_key_entries (b : Builder α M) :
    (b.outcomes.reverse.map b.entry).map (fun e => Outcome.key e.1) =
      (b.outcomes.map Outcome.key).reverse := by
  rw [List.map_map, ← List.map_reverse]
  rfl

/-- the mass function that was built -/
def toPmf (b : Builder α M) : Pmf α M where
  entries := b.outcomes.reverse.map b.entry
  nodup := by
    rw [b.map_key_entries]
    exact (List.reverse_perm _).nodup_iff.mpr b.nodup

theorem entries_toPmf (b : Builder α M) :
    b.toPmf.entries = b.outcomes.reverse.map b.entry := rfl

theorem get_add (b : Builder α M) (v w : α) (p : M) :
    (b.add v p).get w =
      if Outcome.key w = Outcome.key v then Mass.add (b.get w) p else b.get w := by
  simp only [get, add, Std.TreeMap.getD_insert, Std.compare_eq_iff_eq]
  by_cases h : Outcome.key w = Outcome.key v
  · simp only [h, if_true]
  · simp only [h, Ne.symm h, if_false]

theorem entry_add (b : Builder α M) (v w : α) (p : M) :
    (b.add v p).entry w =
      if Outcome.key w = Outcome.key v then (w, Mass.add (b.get w) p) else b.entry w := by
  rw [entry, get_add]
  split <;> rfl

/-- adding to a builder is adding to what it stands for -/
theorem toPmf_add (b : Builder α M) (v : α) (p : M) :
    (b.add v p).toPmf = b.toPmf.add v p := by
  apply ext_entries
  have recorded : Outcome.key v ∈ b.toPmf.entries.map (fun e => Outcome.key e.1) ↔
      Outcome.key v ∈ b.masses := by
    rw [entries_toPmf, b.map_key_entries, List.mem_reverse, b.mem_masses]
  rw [entries_add, entries_toPmf]
  by_cases h : Outcome.key v ∈ b.masses
  · have outcomes : (b.add v p).outcomes = b.outcomes := if_pos h
    rw [accumulate_of_mem p b.toPmf.nodup (recorded.mpr h), outcomes, entries_toPmf, List.map_map]
    exact List.map_congr_left fun w _ => entry_add b v w p
  · have outcomes : (b.add v p).outcomes = v :: b.outcomes := if_neg h
    have fresh : b.get v = Mass.zero := Std.TreeMap.getD_eq_fallback h
    rw [accumulate_of_not_mem p (fun m => h (recorded.mp m)), outcomes, List.reverse_cons,
      List.map_append, List.map_cons, List.map_nil, entry_add, if_pos rfl, fresh, entries_toPmf]
    congr 1
    refine List.map_congr_left fun w hw => ?_
    rw [entry_add, if_neg]
    exact fun k => h ((b.mem_masses _).mpr
      (k ▸ List.mem_map_of_mem (List.mem_reverse.mp hw)))

end Builder

/-- masses put onto outcomes one after the other -/
def ofList [Mass M] (l : List (α × M)) : Pmf α M :=
  (l.foldl (fun (b : Builder α M) e => b.add e.1 e.2) .empty).toPmf

theorem ofList_eq_foldl [Mass M] (l : List (α × M)) :
    ofList l = l.foldl (fun s e => s.add e.1 e.2) empty := by
  suffices h : ∀ b : Builder α M, (l.foldl (fun b e => b.add e.1 e.2) b).toPmf =
      l.foldl (fun s e => s.add e.1 e.2) b.toPmf from h .empty
  induction l with
  | nil => exact fun _ => rfl
  | cons e l ih => exact fun b => by rw [List.foldl_cons, List.foldl_cons, ih, Builder.toPmf_add]

theorem ofList_concat [Mass M] (l : List (α × M)) (e : α × M) :
    ofList (l ++ [e]) = (ofList l).add e.1 e.2 := by
  simp [ofList_eq_foldl, List.foldl_append]

end Pmf
end Chance
