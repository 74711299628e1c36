import Chance.Pmf.Selection
import Chance.Proofs.Building
import Chance.Proofs.Evaluation
import Chance.Proofs.Extents

/-!
# Selection by running totals

The walk of a selection, for masses that are any doubles.  An entry is live if its mass is not at
most zero, which is also so of a mass that is no number; the running total up to an entry is the
double sum of the live masses up to it.  A draw selects the first live entry whose running total
reaches it.

* `Live`, `runningTotal`   the entries that count, and their sums;
* `Reached`, `Stop`        the places at which a draw is reached, and the first of them;
* `pickFrom_stop`          the walk behind entries that do not reach the draw;
* `pick_cases`             the walk over all entries;
* `pick_eq_ok_iff`, `pick_eq_error_iff`   what it gives;
* `Reached.mono`, `exists_stop`   a smaller draw is reached no later;
* `first_reached`          what a draw selects.
-/

namespace Chance

theorem le_trans_double {x y z : Float} (h : x ≤ y) (h' : y ≤ z) : x ≤ z :=
  (le_iff_extent (isNaN_of_le h).1 (isNaN_of_le h').2).mpr ((extent_mono h).trans (extent_mono h'))

namespace Pmf

variable {α : Type}

/-! ## Running totals -/

/-- a mass that is added and can be selected -/
def Live (e : α × Float) : Prop := ¬ e.2 ≤ 0.0

instance (e : α × Float) : Decidable (Live e) := inferInstanceAs (Decidable (¬ e.2 ≤ 0.0))

/-- the double sum of the live masses, from zero and in order -/
def runningTotal (es : List (α × Float)) : Float :=
  (es.filter fun e => decide (Live e)).foldl (fun t e => t + e.2) 0.0

theorem runningTotal_concat (es : List (α × Float)) (e : α × Float) :
    runningTotal (es ++ [e]) = if Live e then runningTotal es + e.2 else runningTotal es := by
  unfold runningTotal
  rw [List.filter_append]
  split
  · next live =>
    have kept := List.filter_cons_of_pos (p := fun e : α × Float => decide (Live e)) (l := [])
      (decide_eq_true live)
    rw [kept, List.filter_nil, List.foldl_append]
    rfl
  · next dead =>
    have dropped := List.filter_cons_of_neg (p := fun e : α × Float => decide (Live e)) (l := [])
      (decide_eq_true_iff.not.mpr dead)
    rw [dropped, List.filter_nil, List.append_nil]

/-- the entry at a place is live, and the running total up to it reaches the draw -/
def Reached (u : Float) (es : List (α × Float)) (i : Nat) : Prop :=
  ∃ e, es[i]? = some e ∧ Live e ∧ u ≤ runningTotal (es.take (i + 1))

/-- the first place at which the draw is reached -/
structure Stop (u : Float) (es : List (α × Float)) (i : Nat) : Prop where
  reached : Reached u es i
  first : ∀ j < i, ¬ Reached u es j

section

variable {u u' : Float} {es : List (α × Float)} {i j : Nat}

theorem Stop.unique (h : Stop u es i) (h' : Stop u es j) : i = j := by
  rcases Nat.lt_trichotomy i j with less | same | more
  · exact absurd h.reached (h'.first i less)
  · exact same
  · exact absurd h'.reached (h.first j more)

theorem exists_stop (h : Reached u es j) : ∃ i ≤ j, Stop u es i := by
  classical
  have some : ∃ i, Reached u es i := ⟨j, h⟩
  exact ⟨Nat.find some, Nat.find_min' some h, Nat.find_spec some, fun _ => Nat.find_min some⟩

theorem Reached.mono (h : Reached u' es i) (le : u ≤ u') : Reached u es i := by
  obtain ⟨e, place, live, enough⟩ := h
  exact ⟨e, place, live, le_trans_double le enough⟩

/-- a draw below one that stops stops there or earlier -/
theorem Stop.mono (h : Stop u' es j) (le : u ≤ u') : ∃ i ≤ j, Stop u es i :=
  exists_stop (h.reached.mono le)

/-- what is asked of the place behind some entries -/
theorem reached_length (u : Float) (before rest : List (α × Float)) (e : α × Float) :
    Reached u (before ++ e :: rest) before.length ↔
      Live e ∧ u ≤ runningTotal before + e.2 := by
  have place : (before ++ e :: rest)[before.length]? = some e := by
    rw [List.getElem?_append_right (Nat.le_refl _), Nat.sub_self, List.getElem?_cons_zero]
  have front : (before ++ e :: rest).take (before.length + 1) = before ++ [e] := by
    rw [List.take_length_add_append, List.take_succ_cons, List.take_zero]
  unfold Reached
  rw [place, front, runningTotal_concat]
  constructor
  · rintro ⟨f, same, live, enough⟩
    cases same
    rw [if_pos live] at enough
    exact ⟨live, enough⟩
  · rintro ⟨live, enough⟩
    exact ⟨e, rfl, live, by rwa [if_pos live]⟩

end

/-! ## The walk -/

variable {u : Float}

/-- The walk behind entries that do not reach the draw, from their running total. -/
theorem pickFrom_stop {before rest : List (α × Float)}
    (passed : ∀ j < before.length, ¬ Reached u (before ++ rest) j) :
    (∃ i e, Stop u (before ++ rest) i ∧ (before ++ rest)[i]? = some e ∧
      pickFrom u (runningTotal before) rest = .ok e.1) ∨
    (∀ i, ¬ Reached u (before ++ rest) i) ∧
      pickFrom u (runningTotal before) rest = .error (runningTotal (before ++ rest)) := by
  induction rest generalizing before with
  | nil =>
    rw [List.append_nil] at passed ⊢
    refine .inr ⟨fun i => ?_, rfl⟩
    by_cases within : i < before.length
    · exact passed i within
    · rintro ⟨e, place, -⟩
      rw [List.getElem?_eq_none (Nat.le_of_not_lt within)] at place
      cases place
  | cons e rest ih =>
    obtain ⟨v, p⟩ := e
    have here := reached_length u before rest (v, p)
    -- the walk goes on behind the entry, from the running total up to it
    have go_on (missed : ¬ Reached u (before ++ (v, p) :: rest) before.length) :
        ∀ j < (before ++ [(v, p)]).length, ¬ Reached u (before ++ [(v, p)] ++ rest) j := by
      intro j hj
      rw [List.append_assoc, List.singleton_append]
      rw [List.length_append, List.length_singleton] at hj
      rcases Nat.lt_succ_iff_lt_or_eq.mp hj with less | same
      · exact passed j less
      · exact same ▸ missed
    have joined : before ++ [(v, p)] ++ rest = before ++ (v, p) :: rest := by
      rw [List.append_assoc, List.singleton_append]
    rw [pickFrom]
    split
    · next dead =>
      have out : ¬ Live (v, p) := fun live => live (of_decide_eq_true dead)
      have later := ih (go_on fun reached => out (here.mp reached).1)
      rwa [joined, runningTotal_concat, if_neg out] at later
    · next alive =>
      have live : Live (v, p) := fun none => alive (decide_eq_true none)
      split
      · next enough =>
        have reached := here.mpr ⟨live, of_decide_eq_true enough⟩
        refine .inl ⟨before.length, (v, p), ⟨reached, passed⟩, ?_, rfl⟩
        rw [List.getElem?_append_right (Nat.le_refl _), Nat.sub_self, List.getElem?_cons_zero]
      · next short =>
        have later := ih (go_on fun reached => short (decide_eq_true (here.mp reached).2))
        rwa [joined, runningTotal_concat, if_pos live] at later

variable [Outcome α]

/-- the walk over all entries -/
theorem pick_cases (s : Pmf α Float) (u : Float) :
    (∃ i e, Stop u s.entries i ∧ s.entries[i]? = some e ∧ s.pick u = .ok e.1) ∨
    (∀ i, ¬ Reached u s.entries i) ∧ s.pick u = .error (runningTotal s.entries) :=
  @pickFrom_stop _ u [] s.entries fun _ none => absurd none (Nat.not_lt_zero _)

/-- what is selected stands at the first place that is reached -/
theorem pick_eq_ok_iff {s : Pmf α Float} {u : Float} {v : α} :
    s.pick u = .ok v ↔ ∃ i e, Stop u s.entries i ∧ s.entries[i]? = some e ∧ e.1 = v := by
  rcases s.pick_cases u with ⟨i, e, stop, place, found⟩ | ⟨none, failed⟩
  · rw [found, Except.ok.injEq]
    constructor
    · rintro rfl
      exact ⟨i, e, stop, place, rfl⟩
    · rintro ⟨j, f, stop', place', rfl⟩
      cases stop.unique stop'
      cases place.symm.trans place'
      rfl
  · rw [failed]
    refine iff_of_false nofun ?_
    rintro ⟨i, e, stop, -⟩
    exact none i stop.reached

/-- without such a place the total is told -/
theorem pick_eq_error_iff {s : Pmf α Float} {u t : Float} :
    s.pick u = .error t ↔ (∀ i, ¬ Reached u s.entries i) ∧ t = runningTotal s.entries := by
  rcases s.pick_cases u with ⟨i, e, stop, place, found⟩ | ⟨none, failed⟩
  · rw [found]
    exact iff_of_false nofun fun none => none.1 i stop.reached
  · rw [failed, Except.error.injEq, eq_comm, and_iff_right none]

/-- an observation is exhausted where its draw is -/
theorem observe_exhausted_iff {σ : Type} [Source σ] {c : Pmf Bool Float} {r : Value Float}
    {source : σ} {t : Float} :
    ((Value.bool c).observe r source).1 = .error (.selectionExhausted t) ↔
      c.pick (Source.next source).1 = .error t := by
  unfold Value.observe
  dsimp only
  cases c.pick (Source.next source).1 with
  | ok b => cases b <;> exact iff_of_false nofun nofun
  | error m =>
    constructor
    · rintro ⟨⟩
      rfl
    · rintro ⟨⟩
      rfl

/-- **Selection by running totals.**  A draw selects the outcome of the first live entry whose
running total reaches it, and if there is none, the total over all live entries is told.  So what is
selected has mass, and a draw that is not greater selects the same entry or an earlier one. -/
theorem first_reached (s : Pmf α Float) (u : Float) :
    (∀ v, s.pick u = .ok v ↔ ∃ i e, Stop u s.entries i ∧ s.entries[i]? = some e ∧ e.1 = v) ∧
    (∀ t, s.pick u = .error t ↔
      (∀ i, ¬ Reached u s.entries i) ∧ t = runningTotal s.entries) ∧
    (∀ v, s.pick u = .ok v → ¬ s.get v ≤ 0.0) ∧
    (∀ u' w, u ≤ u' → s.pick u' = .ok w → ∃ i j e f, i ≤ j ∧
      Stop u s.entries i ∧ s.entries[i]? = some e ∧ s.pick u = .ok e.1 ∧
      Stop u' s.entries j ∧ s.entries[j]? = some f ∧ w = f.1) ∧
    (∀ {σ : Type} [Source σ] (c : Pmf Bool Float) (r : Value Float) (source : σ) (t : Float),
      ((Value.bool c).observe r source).1 = .error (.selectionExhausted t) ↔
        (∀ i, ¬ Reached (Source.next source).1 c.entries i) ∧ t = runningTotal c.entries) := by
  refine ⟨fun v => pick_eq_ok_iff, fun t => pick_eq_error_iff, ?_, ?_, ?_⟩
  · intro v found
    obtain ⟨i, e, stop, place, rfl⟩ := pick_eq_ok_iff.mp found
    obtain ⟨f, place', live, -⟩ := stop.reached
    cases place.symm.trans place'
    rw [get_of_mem (List.mem_of_getElem? place)]
    exact live
  · intro u' w le found
    obtain ⟨j, f, stop, place, rfl⟩ := pick_eq_ok_iff.mp found
    obtain ⟨i, before, stop'⟩ := stop.mono le
    obtain ⟨e, place', -, -⟩ := stop'.reached
    exact ⟨i, j, e, f, before, stop', place', pick_eq_ok_iff.mpr ⟨i, e, stop', place', rfl⟩,
      stop, place, rfl⟩
  · intro σ _ c r source t
    exact observe_exhausted_iff.trans pick_eq_error_iff

/-! ### Masses of every sort -/

/-- a mass below zero, two masses that can be selected, none, and one that is no number -/
def mixed : Pmf Int64 Float :=
  ((((empty.add 1 (-0.5)).add 2 0.25).add 3 0.0).add 4 0.5).add 5 (Float.ofBits 0x7ff8000000000000)

/-- a quarter and a half select the two, and beyond them no total is reached -/
theorem first_reached_mixed :
    (0.25 : Float) ≤ 0.5 ∧ mixed.pick 0.5 = .ok 4 ∧ ¬ mixed.get 4 ≤ 0.0 ∧
    (∃ i j e f, i ≤ j ∧ Stop 0.25 mixed.entries i ∧ mixed.entries[i]? = some e ∧
      mixed.pick 0.25 = .ok e.1 ∧ Stop 0.5 mixed.entries j ∧ mixed.entries[j]? = some f ∧
      4 = f.1) ∧
    mixed.pick 0.875 = .error (runningTotal mixed.entries) ∧
    (runningTotal mixed.entries).isNaN = true := by
  have less : (0.25 : Float) ≤ 0.5 := by decide
  have half : mixed.pick 0.5 = .ok 4 := by rfl
  have beyond : mixed.pick 0.875 = .error (Float.ofBits 0x7ff8000000000000) := by rfl
  obtain ⟨-, -, massive, -⟩ := first_reached mixed 0.5
  obtain ⟨-, -, -, earlier, -⟩ := first_reached mixed 0.25
  obtain ⟨-, exhausted, -⟩ := first_reached mixed 0.875
  have total := ((exhausted _).mp beyond).2
  exact ⟨less, half, massive 4 half, earlier 0.5 4 less half, total ▸ beyond, total ▸ by decide⟩

end Pmf
end Chance
