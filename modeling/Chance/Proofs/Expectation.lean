import Chance.Proofs.Building
import Mathlib.Algebra.BigOperators.Ring.List
import Mathlib.Algebra.Ring.Rat
import Mathlib.Data.List.Induction
import Mathlib.Tactic.Ring

/-!
# Expectations

Exact mass functions through the expectations that they give.  Enumeration merges equal results,
which no expectation takes notice of, so the expectation of a combination is a double sum and the
mass of an outcome is the expectation of its indicator.

* `expect`                the sum of a function over outcomes with masses;
* `expect_accumulate`, `expect_ofList`   merging keeps every expectation;
* `expect_tryCombine`     the expectation of a combination is a double sum over the operands;
* `mem_tryCombine`        its outcomes are the results of pairs of outcomes;
* `get_eq_expect`         a mass is the expectation of an indicator.
-/

namespace Chance

variable {α β γ ε : Type}

/-- the sum of a function over outcomes with their masses -/
def expect (es : List (α × Rat)) (g : α → Rat) : Rat := (es.map fun e => g e.1 * e.2).sum

/-- the value of a function at a result, nothing if there is none -/
def payoff (g : α → Rat) : Except ε α → Rat
  | .ok a => g a
  | .error _ => 0

theorem expect_nil (g : α → Rat) : expect [] g = 0 := rfl

theorem expect_cons (e : α × Rat) (es : List (α × Rat)) (g : α → Rat) :
    expect (e :: es) g = g e.1 * e.2 + expect es g := by
  unfold expect
  rw [List.map_cons, List.sum_cons]

theorem expect_append (es fs : List (α × Rat)) (g : α → Rat) :
    expect (es ++ fs) g = expect es g + expect fs g := by
  unfold expect
  rw [List.map_append, List.sum_append]

theorem expect_map (f : α → β) (es : List (α × Rat)) (g : β → Rat) :
    expect (es.map fun e => (f e.1, e.2)) g = expect es fun a => g (f a) := by
  unfold expect
  rw [List.map_map]
  rfl

theorem expect_congr {es : List (α × Rat)} {g h : α → Rat}
    (same : ∀ a ∈ es.map Prod.fst, g a = h a) : expect es g = expect es h := by
  unfold expect
  have terms : es.map (fun e => g e.1 * e.2) = es.map fun e => h e.1 * e.2 := by
    refine List.map_congr_left fun e he => ?_
    rw [same e.1 (List.mem_map_of_mem he)]
  rw [terms]

theorem expect_scale (p : Rat) (f : β → α) (es : List (β × Rat)) (g : α → Rat) :
    expect (es.map fun e => (f e.1, p * e.2)) g = (expect es fun b => g (f b)) * p := by
  induction es with
  | nil =>
    rw [List.map_nil, expect_nil, expect_nil]
    ring
  | cons e es ih =>
    rw [List.map_cons, expect_cons, expect_cons, ih]
    ring

/-- an outcome whose key is its own: equal keys, equal outcomes -/
class Outcome.Exact (α : Type) [Outcome α] : Prop where
  eq_of_key : ∀ {a b : α}, Outcome.key a = Outcome.key b → a = b

theorem Outcome.Exact.respects [Outcome α] [Outcome.Exact α] (g : α → Rat) (a b : α)
    (h : Outcome.key a = Outcome.key b) : g a = g b := congrArg g (eq_of_key h)

instance : Outcome.Exact Bool where
  eq_of_key {a b} h := by
    have same : Outcome.same a b = true := decide_eq_true h
    rw [Outcome.same_bool] at same
    exact beq_iff_eq.mp same

instance : Outcome.Exact Int64 where
  eq_of_key {a b} h := by
    have same : Outcome.same a b = true := decide_eq_true h
    rw [Outcome.same_int64] at same
    exact beq_iff_eq.mp same

namespace Pmf

variable [Outcome α] [Outcome β] [Outcome γ]

/-! ## Merging -/

section

variable {g : α → Rat} (respects : ∀ a b, Outcome.key a = Outcome.key b → g a = g b)

include respects

theorem expect_accumulate (v : α) (p : Rat) (es : List (α × Rat)) :
    expect (accumulate v p es) g = expect es g + g v * p := by
  induction es with
  | nil =>
    show expect [(v, (0 : Rat) + p)] g = _
    rw [expect_cons, expect_nil]
    ring
  | cons e es ih =>
    obtain ⟨w, q⟩ := e
    by_cases h : Outcome.key w = Outcome.key v
    · have merged : accumulate v p ((w, q) :: es) = (w, q + p) :: es := if_pos h
      rw [merged, expect_cons, expect_cons, respects w v h]
      ring
    · have passed : accumulate v p ((w, q) :: es) = (w, q) :: accumulate v p es := if_neg h
      rw [passed, expect_cons, expect_cons, ih]
      ring

theorem expect_ofList (l : List (α × Rat)) : expect (ofList l).entries g = expect l g := by
  induction l using List.reverseRecOn with
  | nil => rfl
  | append_singleton l e ih =>
    rw [ofList_concat, entries_add, expect_accumulate respects, ih, expect_append, expect_cons,
      expect_nil]
    ring

end

section

variable [Outcome.Exact α]

theorem mem_accumulate (v a : α) (p : Rat) (es : List (α × Rat)) :
    a ∈ (accumulate v p es).map Prod.fst ↔ a ∈ es.map Prod.fst ∨ a = v := by
  induction es with
  | nil =>
    show a ∈ [v] ↔ _
    simp
  | cons e es ih =>
    obtain ⟨w, q⟩ := e
    by_cases h : Outcome.key w = Outcome.key v
    · have merged : accumulate v p ((w, q) :: es) = (w, Mass.add q p) :: es := if_pos h
      have same : w = v := Outcome.Exact.eq_of_key h
      rw [merged, List.map_cons, List.map_cons]
      constructor
      · exact .inl
      · rintro (old | rfl)
        · exact old
        · exact List.mem_cons.mpr (.inl same.symm)
    · have passed : accumulate v p ((w, q) :: es) = (w, q) :: accumulate v p es := if_neg h
      rw [passed, List.map_cons, List.map_cons, List.mem_cons, List.mem_cons, ih, or_assoc]

theorem mem_values_ofList (l : List (α × Rat)) (a : α) :
    a ∈ (ofList l).values ↔ a ∈ l.map Prod.fst := by
  induction l using List.reverseRecOn with
  | nil => rfl
  | append_singleton l e ih =>
    unfold values at ih ⊢
    rw [ofList_concat, entries_add, mem_accumulate, ih, List.map_append, List.mem_append]
    simp

end

/-! ## Combinations -/

theorem expect_pairs (l : Pmf α Rat) (r : Pmf β Rat) (g : α × β → Rat) :
    expect (l.pairs r) g = expect l.entries fun a => expect r.entries fun b => g (a, b) := by
  unfold pairs
  induction l.entries with
  | nil => rfl
  | cons e es ih =>
    rw [List.flatMap_cons, expect_append, ih, expect_cons]
    congr 1
    exact expect_scale e.2 (fun b => (e.1, b)) r.entries g

theorem mem_pairs (l : Pmf α Rat) (r : Pmf β Rat) (a : α) (b : β) :
    (a, b) ∈ (l.pairs r).map Prod.fst ↔ a ∈ l.values ∧ b ∈ r.values := by
  unfold pairs values
  simp only [List.mem_map, List.mem_flatMap, Prod.exists, exists_and_right, exists_eq_right]
  constructor
  · rintro ⟨q, a', p, hl, b', p', hr, he⟩
    cases he
    exact ⟨⟨p, hl⟩, ⟨p', hr⟩⟩
  · rintro ⟨⟨p, hl⟩, ⟨p', hr⟩⟩
    exact ⟨_, a, p, hl, b, p', hr, rfl⟩

theorem tryCombine_eq_ok {l : Pmf α Rat} {r : Pmf β Rat} {op : α → β → Except ε γ} {s : Pmf γ Rat}
    (h : tryCombine l r op = .ok s) :
    ∃ es, s = ofList es ∧ List.Forall₂ (fun e f => tryPair op e = .ok f) (l.pairs r) es := by
  unfold tryCombine at h
  cases hm : (l.pairs r).mapM (tryPair op) with
  | error f =>
    rw [hm] at h
    cases h
  | ok es =>
    rw [hm] at h
    cases h
    exact ⟨es, rfl, forall₂_of_mapM hm⟩

omit [Outcome α] [Outcome β] [Outcome γ] in
theorem op_of_tryPair {op : α → β → Except ε γ} {e : (α × β) × Rat} {f : γ × Rat}
    (h : tryPair op e = .ok f) : op e.1.1 e.1.2 = .ok f.1 ∧ f.2 = e.2 := by
  unfold tryPair at h
  split at h
  · cases h
  · next hw =>
    cases h
    exact ⟨hw, rfl⟩

section

variable [Outcome.Exact γ] {l : Pmf α Rat} {r : Pmf β Rat} {op : α → β → Except ε γ} {s : Pmf γ Rat}

/-- **the expectation of a combination** -/
theorem expect_tryCombine (h : tryCombine l r op = .ok s) (g : γ → Rat) :
    expect s.entries g =
      expect l.entries fun a => expect r.entries fun b => payoff g (op a b) := by
  obtain ⟨es, rfl, results⟩ := tryCombine_eq_ok h
  rw [expect_ofList (Outcome.Exact.respects g),
    ← expect_pairs l r fun ab => payoff g (op ab.1 ab.2)]
  generalize l.pairs r = pairs at results
  clear h
  induction results with
  | nil => rfl
  | cons first _ ih =>
    obtain ⟨value, mass⟩ := op_of_tryPair first
    rw [expect_cons, expect_cons, ih, value, mass]
    rfl

/-- its outcomes are the results of the pairs of outcomes -/
theorem mem_tryCombine (h : tryCombine l r op = .ok s) (c : γ) :
    c ∈ s.values ↔ ∃ a ∈ l.values, ∃ b ∈ r.values, op a b = .ok c := by
  obtain ⟨es, rfl, results⟩ := tryCombine_eq_ok h
  have pairs : c ∈ es.map Prod.fst ↔ ∃ ab ∈ (l.pairs r).map Prod.fst, op ab.1 ab.2 = .ok c := by
    generalize l.pairs r = pairs at results
    clear h
    induction results with
    | nil => simp
    | cons first _ ih =>
      obtain ⟨value, -⟩ := op_of_tryPair first
      rw [List.map_cons, List.map_cons, List.mem_cons, ih]
      simp only [List.mem_cons, exists_eq_or_imp, value, Except.ok.injEq, eq_comm]
  rw [mem_values_ofList, pairs]
  constructor
  · rintro ⟨⟨a, b⟩, hab, hc⟩
    obtain ⟨ha, hb⟩ := (mem_pairs l r a b).mp hab
    exact ⟨a, ha, b, hb, hc⟩
  · rintro ⟨a, ha, b, hb, hc⟩
    exact ⟨(a, b), (mem_pairs l r a b).mpr ⟨ha, hb⟩, hc⟩

end

theorem ok_of_tryCombine {l : Pmf α Rat} {r : Pmf β Rat} {op : α → β → Except ε γ} {s : Pmf γ Rat}
    (h : tryCombine l r op = .ok s) {a : α} {b : β} (ha : a ∈ l.values) (hb : b ∈ r.values) :
    ∃ c, op a b = .ok c := by
  obtain ⟨es, -, results⟩ := tryCombine_eq_ok h
  have pair := (mem_pairs l r a b).mpr ⟨ha, hb⟩
  generalize l.pairs r = pairs at results pair
  clear h
  induction results with
  | nil => cases pair
  | cons first _ ih =>
    rcases List.mem_cons.mp pair with e | rest
    · obtain ⟨value, -⟩ := op_of_tryPair first
      rw [← e] at value
      exact ⟨_, value⟩
    · exact ih rest

theorem error_of_tryCombine {l : Pmf α Rat} {r : Pmf β Rat} {op : α → β → Except ε γ} {f : ε}
    (h : tryCombine l r op = .error f) : ∃ a ∈ l.values, ∃ b ∈ r.values, op a b = .error f := by
  unfold tryCombine at h
  cases hm : (l.pairs r).mapM (tryPair op) with
  | ok es =>
    rw [hm] at h
    cases h
  | error g =>
    rw [hm] at h
    cases h
    obtain ⟨before, ⟨⟨a, b⟩, p⟩, after, split, -, failed⟩ := mapM_eq_error_iff.mp hm
    have he : ((a, b), p) ∈ l.pairs r := split ▸ List.mem_append_right before List.mem_cons_self
    obtain ⟨ha, hb⟩ := (mem_pairs l r a b).mp (List.mem_map_of_mem he)
    refine ⟨a, ha, b, hb, ?_⟩
    unfold tryPair at failed
    split at failed
    · next hw =>
      cases failed
      exact hw
    · cases failed

/-! ## Masses -/

theorem lookup_of_not_mem {w : α} {es : List (α × Rat)}
    (h : Outcome.key w ∉ es.map fun e => Outcome.key e.1) : lookup w es = 0 := by
  induction es with
  | nil => rfl
  | cons e es ih =>
    rw [List.map_cons, List.mem_cons, not_or] at h
    have passed : lookup w (e :: es) = lookup w es := if_neg (Ne.symm h.1)
    rw [passed, ih h.2]

/-- the mass of an outcome is the expectation of its indicator -/
theorem get_eq_expect (s : Pmf α Rat) (w : α) :
    s.get w = expect s.entries fun a => if Outcome.same a w then 1 else 0 := by
  obtain ⟨es, distinct⟩ := s
  show lookup w es = expect es _
  induction es with
  | nil => rfl
  | cons e es ih =>
    obtain ⟨v, p⟩ := e
    rw [List.map_cons, List.nodup_cons] at distinct
    rw [expect_cons, ← ih distinct.2]
    by_cases h : Outcome.key v = Outcome.key w
    · have found : lookup w ((v, p) :: es) = p := if_pos h
      have absent : lookup w es = 0 := lookup_of_not_mem (h ▸ distinct.1)
      have same : Outcome.same v w = true := decide_eq_true h
      rw [found, absent, if_pos same]
      ring
    · have passed : lookup w ((v, p) :: es) = lookup w es := if_neg h
      have other : ¬ Outcome.same v w = true := by
        rw [Outcome.same, decide_eq_true_iff]
        exact h
      rw [passed, if_neg other]
      ring

theorem entries_add_add {a b : α} (h : Outcome.key a ≠ Outcome.key b) (p q : Rat) :
    ((empty.add a p).add b q).entries = [(a, p), (b, q)] := by
  show accumulate b q [(a, (0 : Rat) + p)] = _
  have passed : accumulate b q [(a, (0 : Rat) + p)] = (a, 0 + p) :: [(b, (0 : Rat) + q)] := if_neg h
  rw [passed, zero_add, zero_add]

theorem entries_not (s : Pmf Bool Rat) :
    s.not.entries = [(true, s.get false), (false, s.get true)] :=
  entries_add_add (by decide) _ _

theorem expect_bool (s : Pmf Bool Rat) (g : Bool → Rat) :
    expect s.entries g = g true * s.get true + g false * s.get false := by
  rw [get_eq_expect, get_eq_expect]
  induction s.entries with
  | nil =>
    rw [expect_nil, expect_nil, expect_nil]
    ring
  | cons e es ih =>
    obtain ⟨b, p⟩ := e
    rw [expect_cons, expect_cons, expect_cons, ih]
    cases b with
    | true =>
      show g true * p + _ = g true * ((if true then (1 : Rat) else 0) * p + _) +
        g false * ((if false then (1 : Rat) else 0) * p + _)
      rw [if_pos rfl, if_neg (by decide)]
      ring
    | false =>
      show g false * p + _ = g true * ((if false then (1 : Rat) else 0) * p + _) +
        g false * ((if true then (1 : Rat) else 0) * p + _)
      rw [if_pos rfl, if_neg (by decide)]
      ring

/-- a negation by the outcomes of its operand -/
theorem expect_not (s : Pmf Bool Rat) (g : Bool → Rat) :
    expect s.not.entries g = expect s.entries fun b => g !b := by
  rw [entries_not, expect_cons, expect_cons, expect_nil, expect_bool]
  show _ = g false * s.get true + g true * s.get false
  ring

end Pmf
end Chance
