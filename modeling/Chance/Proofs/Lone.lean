import Chance.Pmf.Selection
import Chance.Proofs.Building
import Chance.Proofs.Kinds
import Mathlib.Data.List.Nodup

/-!
# Mass functions of one outcome

A mass function in doubles on which one outcome has the mass one and every other one, recorded or
not, the mass zero.  Such mass functions are more than the certainties of one outcome: a negation
leaves an outcome without mass behind, and every later enumeration goes through it.  The masses stay
exact, since only zero and one are ever added and multiplied.

* `Pmf.Only`              one outcome has all the mass;
* `Blank`, `Lone`         lists of entries without mass, and with the mass one in one of them;
* `lone_pairs`, `only_ofList`   enumeration, and the results collected;
* `only_combine`, `only_not`    operations;
* `lone_of_only`          the entries of such a mass function;
* `single_of_lone`, `pick_of_lone`   what is read off: the outcome, whatever the draw.
-/

namespace Chance

variable {α β γ : Type}

/-! ## Lists of entries -/

/-- no entry has mass -/
def Blank (es : List (α × Float)) : Prop := ∀ e ∈ es, e.2 = 0.0

/-- one entry has the mass one, all others have none -/
inductive Lone (v : α) : List (α × Float) → Prop
  | here {es : List (α × Float)} : Blank es → Lone v ((v, 1.0) :: es)
  | there {w : α} {es : List (α × Float)} : Lone v es → Lone v ((w, 0.0) :: es)

theorem Blank.append {es fs : List (α × Float)} (he : Blank es) (hf : Blank fs) :
    Blank (es ++ fs) := List.forall_mem_append.mpr ⟨he, hf⟩

namespace Lone

variable {v : α} {es fs : List (α × Float)}

/-- all masses are zero or one -/
theorem unit (h : Lone v es) : ∀ e ∈ es, e.2 = 0.0 ∨ e.2 = 1.0 := by
  induction h with
  | here blank => exact List.forall_mem_cons.mpr ⟨.inr rfl, fun e he => .inl (blank e he)⟩
  | there _ ih => exact List.forall_mem_cons.mpr ⟨.inl rfl, ih⟩

theorem append (h : Lone v es) (hf : Blank fs) : Lone v (es ++ fs) := by
  induction h with
  | here blank => exact .here (blank.append hf)
  | there _ ih => exact .there ih

theorem append_left (h : Lone v es) (hf : Blank fs) : Lone v (fs ++ es) := by
  induction fs with
  | nil => exact h
  | cons f fs ih =>
    obtain ⟨first, rest⟩ := List.forall_mem_cons.mp hf
    have entry : f = (f.1, 0.0) := Prod.ext rfl first
    rw [List.cons_append, entry]
    exact .there (ih rest)

theorem map (h : Lone v es) (f : α → β) : Lone (f v) (es.map fun e => (f e.1, e.2)) := by
  induction h with
  | here blank => exact .here (List.forall_mem_map.mpr blank)
  | there _ ih => exact .there ih

end Lone

/-! ## Enumeration -/

/-- the pairs of one entry with those of a list -/
def row (e : α × Float) (r : List (β × Float)) : List ((α × β) × Float) :=
  r.map fun f => ((e.1, f.1), Mass.mul e.2 f.2)

theorem blank_row (a : α) {b : β} {r : List (β × Float)} (h : Lone b r) :
    Blank (row (a, 0.0) r) := by
  refine List.forall_mem_map.mpr fun f hf => ?_
  show (0.0 : Float) * f.2 = 0.0
  rcases h.unit f hf with zero | one
  · rw [zero]
    decide
  · rw [one]
    decide

theorem lone_row (a : α) {b : β} {r : List (β × Float)} (h : Lone b r) :
    Lone (a, b) (row (a, 1.0) r) := by
  have one : Mass.mul (1.0 : Float) 1.0 = 1.0 := by decide
  have zero : Mass.mul (1.0 : Float) 0.0 = 0.0 := by decide
  induction h with
  | @here es blank =>
    have first : row (a, 1.0) ((b, 1.0) :: es) = ((a, b), 1.0) :: row (a, 1.0) es := by
      rw [row, List.map_cons, one]
      rfl
    rw [first]
    refine .here (List.forall_mem_map.mpr fun f hf => ?_)
    rw [blank f hf, zero]
  | @there w es _ ih =>
    have first : row (a, 1.0) ((w, 0.0) :: es) = ((a, w), 0.0) :: row (a, 1.0) es := by
      rw [row, List.map_cons, zero]
      rfl
    rw [first]
    exact .there ih

theorem lone_pairs {a : α} {b : β} {l : List (α × Float)} {r : List (β × Float)} (hl : Lone a l)
    (hr : Lone b r) : Lone (a, b) (l.flatMap fun e => row e r) := by
  induction hl with
  | here blank =>
    rw [List.flatMap_cons]
    refine (lone_row a hr).append fun p hp => ?_
    obtain ⟨e, he, hp⟩ := List.mem_flatMap.mp hp
    have entry : e = (e.1, 0.0) := Prod.ext rfl (blank e he)
    rw [entry] at hp
    exact blank_row e.1 hr p hp
  | there _ ih =>
    rw [List.flatMap_cons]
    exact ih.append_left (blank_row _ hr)

/-! ## Sums -/

theorem foldl_add_blank {es : List (α × Float)} (h : Blank es) {t : Float}
    (unit : t = 0.0 ∨ t = 1.0) : es.foldl (fun t e => Mass.add t e.2) t = t := by
  induction es with
  | nil => rfl
  | cons e es ih =>
    obtain ⟨first, rest⟩ := List.forall_mem_cons.mp h
    have same : Mass.add t e.2 = t := by
      rw [first]
      rcases unit with rfl | rfl <;> decide
    rw [List.foldl_cons, same, ih rest]

/-- the sum over a part of the entries -/
theorem foldl_add_lone {v : α} {es : List (α × Float)} (h : Lone v es) (kept : α → Bool) :
    (es.filter fun e => kept e.1).foldl (fun t e => Mass.add t e.2) 0.0 =
      if kept v then 1.0 else 0.0 := by
  have one : Mass.add (0.0 : Float) 1.0 = 1.0 := by decide
  have zero : Mass.add (0.0 : Float) 0.0 = 0.0 := by decide
  induction h with
  | @here es blank =>
    have rest : Blank (es.filter fun e => kept e.1) := fun e he =>
      blank e (List.mem_of_mem_filter he)
    rw [List.filter_cons]
    split
    · rw [List.foldl_cons, one, foldl_add_blank rest (.inr rfl)]
    · exact foldl_add_blank rest (.inl rfl)
  | there _ ih =>
    rw [List.filter_cons]
    split
    · rw [List.foldl_cons, zero, ih]
    · exact ih

namespace Pmf

variable [Outcome α] [Outcome β] [Outcome γ] {s : Pmf α Float} {v : α}

/-- one outcome has all the mass -/
def Only (s : Pmf α Float) (v : α) : Prop :=
  ∀ w, s.get w = if Outcome.same v w then 1.0 else 0.0

theorem only_ofList {l : List (α × Float)} (h : Lone v l) : (ofList l).Only v := fun w => by
  rw [get_ofList]
  exact foldl_add_lone h fun a => Outcome.same a w

theorem only_certain (v : α) : (certain v : Pmf α Float).Only v := fun w => by
  have one : Mass.add (Mass.zero : Float) Mass.one = 1.0 := by decide
  rw [certain, get_add, get_empty, one]
  rfl

theorem lone_certain (v : α) : Lone v (certain v : Pmf α Float).entries := by
  rw [entries_certain_one]
  exact .here fun _ h => absurd h List.not_mem_nil

/-- where one outcome has all the mass, it is recorded, and the other entries have none -/
theorem lone_of_only (h : s.Only v) : ∃ w, Outcome.same v w = true ∧ Lone w s.entries := by
  have recorded : s.records v = true := by
    refine Decidable.byContradiction fun fresh => ?_
    have nothing : s.get v = 0.0 := get_of_not_records fresh
    rw [h v, if_pos (Outcome.same_iff.mpr rfl)] at nothing
    exact absurd nothing (by decide)
  obtain ⟨e, he, key⟩ := List.mem_map.mp (records_iff.mp recorded)
  have same : Outcome.same v e.1 = true := Outcome.same_iff.mpr key.symm
  have one : e = (e.1, 1.0) := by
    have mass := h e.1
    rw [if_pos same, get_of_mem he] at mass
    exact Prod.ext rfl mass
  -- an entry with another key has no mass
  have other {f : α × Float} (hf : f ∈ s.entries) (differ : Outcome.key e.1 ≠ Outcome.key f.1) :
      f.2 = 0.0 := by
    rw [← get_of_mem hf, h f.1, if_neg fun same => differ (key.trans (Outcome.same_iff.mp same))]
  obtain ⟨before, after, split⟩ := List.append_of_mem he
  have distinct := s.nodup
  rw [split, List.map_append, List.map_cons, List.nodup_middle, List.nodup_cons,
    ← List.map_append] at distinct
  have blank (es : List (α × Float)) (sub : ∀ f ∈ es, f ∈ before ++ after) : Blank es := by
    intro f hf
    have mem := sub f hf
    refine other ?_ fun key => distinct.1 (key ▸ List.mem_map_of_mem mem)
    rw [split]
    exact List.mem_append.mpr ((List.mem_append.mp mem).imp_right (List.mem_cons_of_mem e))
  refine ⟨e.1, same, ?_⟩
  rw [split, one]
  exact (Lone.here (blank after fun f => List.mem_append_right before)).append_left
    (blank before fun f => List.mem_append_left after)

theorem lone_of_only_bool {s : Pmf Bool Float} {b : Bool} (h : s.Only b) : Lone b s.entries := by
  obtain ⟨c, same, lone⟩ := lone_of_only h
  rw [Outcome.same_bool, beq_iff_eq] at same
  rwa [same]

theorem only_combine {a : α} {b : β} {l : Pmf α Float} {r : Pmf β Float} (hl : Lone a l.entries)
    (hr : Lone b r.entries) (op : α → β → γ) : (l.combine r op).Only (op a b) :=
  only_ofList ((lone_pairs hl hr).map fun p => op p.1 p.2)

theorem only_not {s : Pmf Bool Float} {b : Bool} (h : s.Only b) : s.not.Only (!b) := by
  intro w
  rw [Pmf.not, get_add, get_add, get_empty, h, h]
  cases b <;> cases w <;> decide

/-! ## What is read off -/

/-- entries without mass are passed over, and the total of one is reached by every draw -/
theorem pick_of_lone (h : Lone v s.entries) {u : Float} (hu : u ≤ 1.0) : s.pick u = .ok v := by
  have reached : Mass.le (Mass.ofFloat u) (Mass.add (Mass.zero : Float) 1.0) = true := by
    have one : Mass.add (Mass.zero : Float) 1.0 = 1.0 := by decide
    rw [one]
    exact decide_eq_true hu
  unfold pick
  generalize s.entries = es at h
  induction h with
  | here _ => rw [pickFrom, if_neg (by decide), if_pos reached]
  | there _ ih => rw [pickFrom, if_pos (by decide), ih]

end Pmf
end Chance
