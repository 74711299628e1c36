import Chance.Proofs.Normalisation

/-!
# The order of operands

Operands of a combination are enumerated from left to right, and results that occur again are merged
where they occurred first, so that exchanging or regrouping operands gives other lists of entries.
The masses are the same, in exact arithmetic: they are expectations, expectations of combinations
are sums over the operands, and sums can be exchanged.  Regrouping can make checked arithmetic fail,
but exchanging two operands cannot.

* `SameMasses`, `sameMasses_of_expect`   equal masses at each outcome, by equal expectations;
* `expect_comm`           sums over two lists are exchanged;
* `expect_exchanged`, `expect_regrouped`   combinations with operands exchanged or regrouped;
* `exists_arith_comm`     checked arithmetic fails for both orders of its operands or for none;
* `operands_reordered`    all operations of which the order of operands does not matter.
-/

namespace Chance

variable {α β γ ε ε' : Type}

/-! ## Sums -/

theorem expect_mul_add (es : List (α × Rat)) (p : Rat) (g h : α → Rat) :
    (expect es fun a => g a * p + h a) = expect es g * p + expect es h := by
  induction es with
  | nil => simp [expect_nil]
  | cons e es ih =>
    rw [expect_cons, expect_cons, expect_cons, ih]
    ring

/-- sums over two lists can be exchanged -/
theorem expect_comm (es : List (α × Rat)) (fs : List (β × Rat)) (g : α → β → Rat) :
    (expect es fun a => expect fs fun b => g a b) =
      expect fs fun b => expect es fun a => g a b := by
  induction es with
  | nil => exact ((expect_const 0 fs).trans (zero_mul _)).symm
  | cons e es ih =>
    simp only [expect_cons]
    rw [expect_mul_add, ih]

/-- what a function makes of a result depends on the result alone, not on the fault -/
theorem payoff_congr {x : Except ε α} {y : Except ε' α} (h : x.toOption = y.toOption)
    (g : α → Rat) : payoff g x = payoff g y := by
  cases x <;> cases y <;> simp_all [Except.toOption, payoff]

theorem exists_ok_iff {x : Except ε α} : (∃ a, x = .ok a) ↔ x.toOption.isSome = true := by
  cases x <;> simp [Except.toOption]

/-! ## Combinations -/

namespace Pmf

/-- the masses are equal at each outcome, recorded or not -/
def SameMasses {M : Type} [Outcome α] [Mass M] (s t : Pmf α M) : Prop := ∀ w, s.get w = t.get w

/-- masses are expectations -/
theorem sameMasses_of_expect [Outcome α] {s t : Pmf α Rat}
    (h : ∀ g, expect s.entries g = expect t.entries g) : s.SameMasses t := by
  intro w
  rw [get_eq_expect, get_eq_expect, h]

variable [Outcome α] [Outcome β] [Outcome γ]

/-- a combination succeeds where each pair of recorded outcomes has a result -/
theorem exists_tryCombine_eq_ok_iff {l : Pmf α Rat} {r : Pmf β Rat} {op : α → β → Except ε γ} :
    (∃ s, l.tryCombine r op = .ok s) ↔ ∀ a ∈ l.values, ∀ b ∈ r.values, ∃ c, op a b = .ok c := by
  constructor
  · rintro ⟨s, h⟩ a ha b hb
    exact ok_of_tryCombine h ha hb
  · intro total
    cases h : l.tryCombine r op with
    | ok s => exact ⟨s, rfl⟩
    | error f =>
      obtain ⟨a, ha, b, hb, failed⟩ := error_of_tryCombine h
      obtain ⟨c, hc⟩ := total a ha b hb
      rw [failed] at hc
      cases hc

variable [Outcome.Exact γ]

theorem expect_combine (l : Pmf α Rat) (r : Pmf β Rat) (op : α → β → γ) (g : γ → Rat) :
    expect (l.combine r op).entries g =
      expect l.entries fun a => expect r.entries fun b => g (op a b) :=
  expect_tryCombine (tryCombine_ok (ε := Empty) l r op) g

/-- a combination with its operands exchanged -/
theorem expect_exchanged {l : Pmf α Rat} {r : Pmf β Rat} {op : α → β → Except ε γ}
    {op' : β → α → Except ε γ} {s t : Pmf γ Rat} (hs : l.tryCombine r op = .ok s)
    (ht : r.tryCombine l op' = .ok t) (comm : ∀ a b, (op a b).toOption = (op' b a).toOption)
    (g : γ → Rat) : expect s.entries g = expect t.entries g := by
  rw [expect_tryCombine hs, expect_tryCombine ht, expect_comm]
  refine expect_congr fun b _ => expect_congr fun a _ => ?_
  exact payoff_congr (comm a b) g

/-- a combination of three operands with the other two of them combined first -/
theorem expect_regrouped {op : γ → γ → Except ε γ} {l m r lm mr s t : Pmf γ Rat}
    (hlm : l.tryCombine m op = .ok lm) (hs : lm.tryCombine r op = .ok s)
    (hmr : m.tryCombine r op = .ok mr) (ht : l.tryCombine mr op = .ok t)
    (assoc : ∀ {a b c ab bc abc abc' : γ}, op a b = .ok ab → op ab c = .ok abc →
      op b c = .ok bc → op a bc = .ok abc' → abc = abc') (g : γ → Rat) :
    expect s.entries g = expect t.entries g := by
  rw [expect_tryCombine hs, expect_tryCombine hlm, expect_tryCombine ht]
  refine expect_congr fun a ha => ?_
  rw [expect_tryCombine hmr]
  refine expect_congr fun b hb => ?_
  obtain ⟨ab, hab⟩ := ok_of_tryCombine hlm ha hb
  rw [hab]
  show (expect r.entries fun c => payoff g (op ab c)) = _
  refine expect_congr fun c hc => ?_
  obtain ⟨bc, hbc⟩ := ok_of_tryCombine hmr hb hc
  -- the two results are recorded in the combinations of two of the operands
  obtain ⟨abc, habc⟩ :=
    ok_of_tryCombine hs ((mem_tryCombine hlm ab).mpr ⟨a, ha, b, hb, hab⟩) hc
  obtain ⟨abc', habc'⟩ :=
    ok_of_tryCombine ht ha ((mem_tryCombine hmr bc).mpr ⟨b, hb, c, hc, hbc⟩)
  rw [hbc, habc]
  show g abc = payoff g (op a bc)
  rw [habc', assoc hab habc hbc habc']
  rfl

/-! ## Booleans -/

theorem combine_exchanged (l : Pmf α Rat) (r : Pmf β Rat) {op : α → β → γ} {op' : β → α → γ}
    (comm : ∀ a b, op a b = op' b a) : (l.combine r op).SameMasses (r.combine l op') := by
  refine sameMasses_of_expect fun g => ?_
  refine expect_exchanged (tryCombine_ok (ε := Empty) l r op) (tryCombine_ok r l op') ?_ g
  intro a b
  rw [comm]

theorem combine_regrouped (l m r : Pmf γ Rat) {op : γ → γ → γ}
    (assoc : ∀ a b c, op (op a b) c = op a (op b c)) :
    ((l.combine m op).combine r op).SameMasses (l.combine (m.combine r op) op) := by
  refine sameMasses_of_expect fun g => ?_
  refine expect_regrouped (tryCombine_ok (ε := Empty) l m op) (tryCombine_ok _ r op)
    (tryCombine_ok m r op) (tryCombine_ok l _ op) ?_ g
  intro a b c ab bc abc abc' hab habc hbc habc'
  cases hab
  cases hbc
  cases habc
  cases habc'
  exact assoc a b c

/-- the negation of a combination combines the negations of its operands -/
theorem not_combine (l r : Pmf Bool Rat) {op op' : Bool → Bool → Bool}
    (dual : ∀ a b, (!op a b) = op' (!a) (!b)) :
    (l.combine r op).not.SameMasses (l.not.combine r.not op') := by
  refine sameMasses_of_expect fun g => ?_
  rw [expect_not, expect_combine, expect_combine, expect_not]
  refine expect_congr fun a _ => ?_
  rw [expect_not]
  refine expect_congr fun b _ => ?_
  rw [dual]

theorem not_not (s : Pmf Bool Rat) : s.not.not.SameMasses s := by
  refine sameMasses_of_expect fun g => ?_
  rw [expect_not, expect_not]
  refine expect_congr fun b _ => ?_
  rw [Bool.not_not]

end Pmf

/-! ## Integers -/

namespace Arith

variable {op : Arith}

/-- checked arithmetic has the result of the exact one -/
theorem toInt_of_checked {a b c : Int64} (h : op.checked a b = .ok c) :
    c.toInt = op.onInt a.toInt b.toInt := by
  unfold checked at h
  split at h
  · cases h
  · split at h
    · next found =>
      cases h
      exact int64?_eq_some_iff.mp found
    · cases h

theorem checked_comm (free : op = .add ∨ op = .multiply) (a b : Int64) :
    (op.checked a b).toOption = (op.checked b a).toOption := by
  have exact (a b : Int64) : (op.checked a b).toOption = int64? (op.onInt a.toInt b.toInt) := by
    unfold checked
    rw [if_neg fun zero => by rcases free with rfl | rfl <;> cases zero.1]
    cases int64? (op.onInt a.toInt b.toInt) <;> rfl
  rw [exact, exact]
  rcases free with rfl | rfl
  · exact congrArg int64? (Int.add_comm _ _)
  · exact congrArg int64? (Int.mul_comm _ _)

/-- where all results have 64 bits -/
theorem checked_assoc (free : op = .add ∨ op = .multiply) {a b c ab bc abc abc' : Int64}
    (hab : op.checked a b = .ok ab) (habc : op.checked ab c = .ok abc)
    (hbc : op.checked b c = .ok bc) (habc' : op.checked a bc = .ok abc') : abc = abc' := by
  refine Int64.toInt_inj.mp ?_
  rw [toInt_of_checked habc, toInt_of_checked hab, toInt_of_checked habc', toInt_of_checked hbc]
  rcases free with rfl | rfl
  · exact Int.add_assoc _ _ _
  · exact Int.mul_assoc _ _ _

end Arith

namespace Pmf

variable {op : Arith} {l m r s t : Pmf Int64 Rat}

/-- checked arithmetic fails for both orders of its operands or for none -/
theorem exists_arith_comm (free : op = .add ∨ op = .multiply) (l r : Pmf Int64 Rat) :
    (∃ s, l.arith op r = .ok s) ↔ ∃ s, r.arith op l = .ok s := by
  have pair (a b : Int64) : (∃ c, op.checked a b = .ok c) ↔ ∃ c, op.checked b a = .ok c := by
    rw [exists_ok_iff, exists_ok_iff, Arith.checked_comm free]
  show (∃ s, l.tryCombine r op.checked = .ok s) ↔ ∃ s, r.tryCombine l op.checked = .ok s
  rw [exists_tryCombine_eq_ok_iff, exists_tryCombine_eq_ok_iff]
  constructor
  · intro total b hb a ha
    exact (pair a b).mp (total a ha b hb)
  · intro total a ha b hb
    exact (pair a b).mpr (total b hb a ha)

theorem arith_exchanged (free : op = .add ∨ op = .multiply) (hs : l.arith op r = .ok s)
    (ht : r.arith op l = .ok t) : s.SameMasses t :=
  sameMasses_of_expect (expect_exchanged hs ht (Arith.checked_comm free))

theorem bind_eq_ok {α β : Type} {ε : Type} {x : Except ε α} {f : α → Except ε β} {b : β}
    (h : x.bind f = .ok b) : ∃ a, x = .ok a ∧ f a = .ok b := by
  cases x with
  | error e => cases h
  | ok a => exact ⟨a, rfl, h⟩

theorem arith_regrouped (free : op = .add ∨ op = .multiply)
    (hs : ((l.arith op m).bind fun lm => lm.arith op r) = .ok s)
    (ht : ((m.arith op r).bind fun mr => l.arith op mr) = .ok t) : s.SameMasses t := by
  obtain ⟨lm, hlm, hs⟩ := bind_eq_ok hs
  obtain ⟨mr, hmr, ht⟩ := bind_eq_ok ht
  exact sameMasses_of_expect (expect_regrouped hlm hs hmr ht (Arith.checked_assoc free))

/-- **Operands can be exchanged and regrouped.** -/
theorem operands_reordered :
    (∀ l r : Pmf Bool Rat,
      (l.and r).SameMasses (r.and l) ∧ (l.or r).SameMasses (r.or l) ∧
      (l.and r).not.SameMasses (l.not.or r.not) ∧ (l.or r).not.SameMasses (l.not.and r.not)) ∧
    (∀ l m r : Pmf Bool Rat,
      ((l.and m).and r).SameMasses (l.and (m.and r)) ∧
      ((l.or m).or r).SameMasses (l.or (m.or r))) ∧
    (∀ s : Pmf Bool Rat, s.not.not.SameMasses s) ∧
    (∀ op, op = .add ∨ op = .multiply →
      (∀ l r : Pmf Int64 Rat,
        ((∃ s, l.arith op r = .ok s) ↔ ∃ s, r.arith op l = .ok s) ∧
        ∀ s t, l.arith op r = .ok s → r.arith op l = .ok t → s.SameMasses t) ∧
      ∀ l m r s t : Pmf Int64 Rat, ((l.arith op m).bind fun lm => lm.arith op r) = .ok s →
        ((m.arith op r).bind fun mr => l.arith op mr) = .ok t → s.SameMasses t) ∧
    (∀ l r : Pmf Bool Rat, (l.equal r).SameMasses (r.equal l)) ∧
    (∀ l r : Pmf Int64 Rat, (l.equal r).SameMasses (r.equal l)) ∧
    ∀ l r : Pmf Double Rat, (l.equal r).SameMasses (r.equal l) := by
  refine ⟨fun l r => ⟨?_, ?_, ?_, ?_⟩, fun l m r => ⟨?_, ?_⟩, not_not,
    fun op free => ⟨fun l r => ?_, ?_⟩, ?_, ?_, ?_⟩
  · exact combine_exchanged l r Bool.and_comm
  · exact combine_exchanged l r Bool.or_comm
  · exact not_combine l r Bool.not_and
  · exact not_combine l r Bool.not_or
  · exact combine_regrouped l m r Bool.and_assoc
  · exact combine_regrouped l m r Bool.or_assoc
  · exact ⟨exists_arith_comm free l r, fun s t => arith_exchanged free⟩
  · exact fun l m r s t => arith_regrouped free
  · exact fun l r => combine_exchanged l r Outcome.same_comm
  · exact fun l r => combine_exchanged l r Outcome.same_comm
  · exact fun l r => combine_exchanged l r Outcome.same_comm

/-- two outcomes of opposite sign -/
def opposites (n : Int64) : Pmf Int64 Rat := (empty.add n (1 / 3)).add (-n) (2 / 3)

/-- sums that cancel, merged at different places in the two groupings -/
theorem operands_reordered_opposites :
    ∃ s t, (((opposites 1).arith .add (opposites 2)).bind fun lm => lm.arith .add (opposites 3))
        = .ok s ∧
      (((opposites 2).arith .add (opposites 3)).bind fun mr => (opposites 1).arith .add mr)
        = .ok t ∧
      s.get 0 = 2 / 9 ∧ s.SameMasses t := by
  obtain ⟨-, -, -, integers, -⟩ := operands_reordered
  refine ⟨_, _, rfl, rfl, by decide +kernel, ?_⟩
  exact (integers .add (.inl rfl)).2 (opposites 1) (opposites 2) (opposites 3) _ _ rfl rfl

end Pmf
end Chance
