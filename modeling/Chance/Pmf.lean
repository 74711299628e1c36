import Chance.Mass
import Chance.Outcome

/-!
# Mass functions

A `Pmf` records outcomes with their masses in the order in which they first occurred, each outcome
once.  `add` is the only way to put mass in: onto the outcome's entry if there is one, else as a
new last entry.
-/

namespace Chance

variable {α M : Type} [Outcome α]

/-- a mass function: recorded outcomes with their masses, no outcome twice -/
structure Pmf (α M : Type) [Outcome α] where
  entries : List (α × M)
  nodup : (entries.map fun e => Outcome.key e.1).Nodup

namespace Pmf

theorem ext_entries {s t : Pmf α M} (h : s.entries = t.entries) : s = t := by
  cases s; cases t; cases h; rfl

variable [Mass M]

/-- put mass onto an outcome among entries -/
def accumulate (v : α) (p : M) : List (α × M) → List (α × M)
  | [] => [(v, Mass.add Mass.zero p)]
  | (w, q) :: rest =>
    if Outcome.key w = Outcome.key v then (w, Mass.add q p) :: rest
    else (w, q) :: accumulate v p rest

/-- the keys after `accumulate`: a new one goes last -/
theorem map_key_accumulate (v : α) (p : M) (es : List (α × M)) :
    (accumulate v p es).map (fun e => Outcome.key e.1) =
      if Outcome.key v ∈ es.map (fun e => Outcome.key e.1) then es.map (fun e => Outcome.key e.1)
      else es.map (fun e => Outcome.key e.1) ++ [Outcome.key v] := by
  induction es with
  | nil => rfl
  | cons e es ih =>
    obtain ⟨w, q⟩ := e
    by_cases h : Outcome.key w = Outcome.key v
    · simp [accumulate, h]
    · have h' : ¬ Outcome.key v = Outcome.key w := fun e => h e.symm
      simp only [accumulate, h, if_false, List.map_cons, ih, List.mem_cons, h', false_or]
      split <;> rfl

/-- where the outcome is among distinct ones, its entry alone is raised -/
theorem accumulate_of_mem {v : α} (p : M) {es : List (α × M)}
    (nodup : (es.map fun e => Outcome.key e.1).Nodup)
    (h : Outcome.key v ∈ es.map fun e => Outcome.key e.1) :
    accumulate v p es =
      es.map fun e => if Outcome.key e.1 = Outcome.key v then (e.1, Mass.add e.2 p) else e := by
  induction es with
  | nil => simp at h
  | cons e es ih =>
    obtain ⟨w, q⟩ := e
    simp only [List.map_cons, List.nodup_cons] at nodup
    by_cases hw : Outcome.key w = Outcome.key v
    · simp only [accumulate, hw, if_true, List.map_cons]
      have others : ∀ e ∈ es, (if Outcome.key e.1 = Outcome.key v then (e.1, Mass.add e.2 p)
          else e) = e := by
        intro e he
        rw [if_neg]
        exact fun k => nodup.1 (hw ▸ k ▸ List.mem_map.mpr ⟨e, he, rfl⟩)
      rw [List.map_congr_left others, List.map_id']
    · have h' : Outcome.key v ∈ es.map fun e => Outcome.key e.1 := by
        rcases List.mem_cons.mp h with e | e
        · exact absurd e.symm hw
        · exact e
      simp only [accumulate, hw, if_false, List.map_cons, ih nodup.2 h']

/-- where it is not, it is a new last entry -/
theorem accumulate_of_not_mem {v : α} (p : M) {es : List (α × M)}
    (h : Outcome.key v ∉ es.map fun e => Outcome.key e.1) :
    accumulate v p es = es ++ [(v, Mass.add Mass.zero p)] := by
  induction es with
  | nil => rfl
  | cons e es ih =>
    simp only [List.map_cons, List.mem_cons, not_or] at h
    simp only [accumulate, Ne.symm h.1, if_false, ih h.2, List.cons_append]

theorem nodup_accumulate (v : α) (p : M) {es : List (α × M)}
    (h : (es.map fun e => Outcome.key e.1).Nodup) :
    ((accumulate v p es).map fun e => Outcome.key e.1).Nodup := by
  rw [map_key_accumulate]
  split
  · exact h
  · next hv =>
    refine List.nodup_append.mpr ⟨h, by simp, ?_⟩
    intro a ha b hb
    rw [List.mem_singleton] at hb
    exact fun e => hv (hb ▸ e ▸ ha)

def empty : Pmf α M := ⟨[], List.nodup_nil⟩

/-- put mass onto an outcome -/
def add (s : Pmf α M) (v : α) (p : M) : Pmf α M :=
  ⟨accumulate v p s.entries, nodup_accumulate v p s.nodup⟩

/-- certainty of one outcome -/
def certain (v : α) : Pmf α M := empty.add v Mass.one

/-- the mass of an outcome among entries -/
def lookup (v : α) : List (α × M) → M
  | [] => Mass.zero
  | (w, q) :: rest => if Outcome.key w = Outcome.key v then q else lookup v rest

/-- the mass of an outcome, zero if it is not recorded -/
def get (s : Pmf α M) (v : α) : M := lookup v s.entries

/-- the recorded outcomes in order of first occurrence -/
def values (s : Pmf α M) : List α := s.entries.map Prod.fst

def size (s : Pmf α M) : Nat := s.entries.length

/-- the sum of all masses, in the order of the entries -/
def total (s : Pmf α M) : M := Mass.total (s.entries.map Prod.snd)

/-- the only outcome with a mass other than zero, if there is exactly one -/
def single (s : Pmf α M) : Option α :=
  match s.entries.filter (fun e => Mass.nonzero e.2) with
  | [e] => some e.1
  | _ => none

omit [Mass M] in
@[simp] theorem entries_empty : (empty : Pmf α M).entries = [] := rfl

@[simp] theorem entries_add (s : Pmf α M) (v : α) (p : M) :
    (s.add v p).entries = accumulate v p s.entries := rfl

omit [Mass M] in
@[simp] theorem size_empty : (empty : Pmf α M).size = 0 := rfl

@[simp] theorem get_empty (v : α) : (empty : Pmf α M).get v = Mass.zero := rfl

@[simp] theorem entries_certain (v : α) :
    (certain v : Pmf α M).entries = [(v, Mass.add Mass.zero Mass.one)] := rfl

theorem lookup_accumulate_same {v w : α} (h : Outcome.key v = Outcome.key w) (p : M)
    (es : List (α × M)) : lookup w (accumulate v p es) = Mass.add (lookup w es) p := by
  induction es with
  | nil => simp [accumulate, lookup, h]
  | cons e es ih =>
    obtain ⟨u, q⟩ := e
    by_cases hu : Outcome.key u = Outcome.key w
    · simp [accumulate, lookup, hu, h]
    · simp [accumulate, lookup, hu, h, ih]

theorem lookup_accumulate_other {v w : α} (h : Outcome.key v ≠ Outcome.key w) (p : M)
    (es : List (α × M)) : lookup w (accumulate v p es) = lookup w es := by
  induction es with
  | nil => simp [accumulate, lookup, h]
  | cons e es ih =>
    obtain ⟨u, q⟩ := e
    by_cases hu : Outcome.key u = Outcome.key v
    · simp [accumulate, lookup, hu, h]
    · simp [accumulate, lookup, hu, ih]

/-- the mass of an outcome after mass was put onto it -/
theorem get_add_same (s : Pmf α M) {v w : α} (h : Outcome.key v = Outcome.key w) (p : M) :
    (s.add v p).get w = Mass.add (s.get w) p := lookup_accumulate_same h p s.entries

theorem get_add_other (s : Pmf α M) {v w : α} (h : Outcome.key v ≠ Outcome.key w) (p : M) :
    (s.add v p).get w = s.get w := lookup_accumulate_other h p s.entries

end Pmf
end Chance
