import Chance.Proofs.Drift

/-!
# Sessions of coins

Truth values that are built from coins and constants by negation, conjunction, disjunction and
equality.  The drift of a value is told by the number of connectives that it was built with, an
operand counted as often as it is used.

* `Value.Near`            a value that drifts no farther than after a number of connectives;
* `Operation.tracked_apply`   one application;
* `Session.connectives`   the numbers of connectives of the values of a session;
* `Session.counted_step`, `counted_run`   one call, and a session;
* `draws_select`          the draws that select an outcome.
-/

namespace Chance

/-! ## Applications -/

/-- the operations that build truth values from coins -/
def Operation.ofCoins : List Operation := [.flip, .sample, .not, .and, .or, .equal]

/-- the operations that multiply masses -/
def Operation.connectives : Operation → Nat
  | .and | .or | .equal => 1
  | _ => 0

namespace Value

variable {F : Cumulative} {m n : Nat} {l r v w : Value Float}

/-- a value that drifts no farther than after a number of connectives -/
def Near (m : Nat) : Value Float → Prop
  | .bool s => Drifts m s
  | .int s => Drifts m s
  | .float s => Drifts m s
  | .distribution (.flip p) => 0.0 ≤ p ∧ p ≤ 1.0
  | _ => False

theorem near_literal (l : Literal) : (l.toValue : Value Float).Near 0 := by
  cases l <;> exact Drifts.certain _

theorem near_flip (proper : Proper F (.flip, [w])) (h : w.flip = .ok v) : v.Near m := by
  obtain ⟨s, p, rfl, taken, rfl⟩ := ofParameter_eq_ok h
  exact proper p taken

theorem near_sample (hw : w.Near m) (h : w.sample = .ok v) : v.Near m := by
  cases w with
  | distribution d => cases d with
    | flip p =>
      cases h
      exact (Drifts.trial hw.1 hw.2).mono (Nat.zero_le m)
    | _ => exact hw.elim
  | _ => cases h

theorem near_not (hm : 8 * m ≤ 2 ^ 53) (hw : w.Near m) (h : w.not = .ok v) : v.Near m := by
  obtain ⟨s, rfl, rfl⟩ := not_eq_ok h
  exact Drifts.not hw hm

section

variable (room : 8 * (m + n + 1) ≤ 2 ^ 53) (hl : l.Near m) (hr : r.Near n)

include room hl hr

theorem near_connective {op : Operation} {f : Bool → Bool → Bool}
    (h : connective op (fun s t => s.combine t f) l r = .ok v) : v.Near (m + n + 1) := by
  obtain ⟨s, t, rfl, rfl, rfl⟩ := connective_eq_ok h
  exact Drifts.combine _ hl hr room

theorem near_equal (h : l.equal r = .ok v) : v.Near (m + n + 1) := by
  unfold Value.equal at h
  split at h <;> cases h
  · exact Drifts.combine _ hl hr room
  · exact Drifts.combine _ hl hr room
  · exact Drifts.combine _ hl hr room
  · exact hr.elim
  · exact hl.elim

end

end Value

/-- a value with the number of connectives that it was built with, near one unless that is large -/
def Tracked (v : Value Float) (m : Nat) : Prop := 8 * m ≤ 2 ^ 53 → v.Near m

section

variable {l r w : Value Float} {ms : List Nat}

theorem near_one (h : List.Forall₂ Tracked [w] ms) (room : 8 * ms.sum ≤ 2 ^ 53) :
    w.Near ms.sum := by
  cases h with
  | cons first rest =>
    cases rest
    exact first room

theorem near_two (h : List.Forall₂ Tracked [l, r] ms) (room : 8 * ms.sum ≤ 2 ^ 53) :
    ∃ m n, ms.sum = m + n ∧ l.Near m ∧ r.Near n := by
  cases h with
  | cons first rest =>
    rw [List.sum_cons] at room ⊢
    exact ⟨_, _, rfl, first (by omega), near_one rest (by omega)⟩

end

/-- one application -/
theorem Operation.tracked_apply {σ : Type} [Source σ] {F : Cumulative} {op : Operation}
    (coin : op ∈ ofCoins) {vs : List (Value Float)} {ms : List Nat} {s : σ} {v : Value Float}
    (proper : Proper F (op, vs)) (operands : List.Forall₂ Tracked vs ms)
    (h : (op.apply F vs s).1 = .ok v) : Tracked v (ms.sum + op.connectives) := by
  intro room
  unfold apply at h
  split at h
  case h_1 => -- not
    exact Value.near_not room (near_one operands room) h
  case h_3 => -- flip
    exact Value.near_flip proper h
  case h_4 => -- sample
    exact Value.near_sample (near_one operands room) h
  case h_9 => -- and
    obtain ⟨m, n, sum, left, right⟩ := near_two operands (by omega)
    rw [sum] at room ⊢
    exact Value.near_connective room left right h
  case h_10 => -- or
    obtain ⟨m, n, sum, left, right⟩ := near_two operands (by omega)
    rw [sum] at room ⊢
    exact Value.near_connective room left right h
  case h_11 => -- equal
    obtain ⟨m, n, sum, left, right⟩ := near_two operands (by omega)
    rw [sum] at room ⊢
    exact Value.near_equal room left right h
  case h_17 => cases h
  all_goals exact absurd coin (by decide)

/-! ## Sessions -/

/-- the number of connectives that the answer to a call is built with, told those of the answers
before: an operand that is used twice counts twice -/
def Call.connectives (ms : List Nat) : Call → Nat
  | .constant _ => 0
  | .apply op ks => (ks.map fun k => ms.getD k 0).sum + op.connectives

namespace Session

variable {σ : Type} [Source σ] {F : Cumulative}

/-- the numbers for all answers of a session -/
def connectives : List Call → List Nat → List Nat
  | [], ms => ms
  | c :: calls, ms => connectives calls (ms ++ [c.connectives ms])

/-- every value of a session is tracked -/
def Counted (t : Session Float σ) (ms : List Nat) : Prop :=
  List.Forall₂ (fun a m => ∀ v, a.value? = some v → Tracked v m) t.answers ms

omit [Source σ] in
theorem tracked_operand {t : Session Float σ} {ms : List Nat} (h : t.Counted ms) {k : Nat}
    {v : Value Float} (operand : t.operand? k = some v) : Tracked v (ms.getD k 0) := by
  obtain ⟨answers, s⟩ := t
  unfold operand? at operand
  unfold Counted at h
  dsimp only at operand h
  induction h generalizing k with
  | nil => cases operand
  | cons first _ ih => cases k with
    | zero => exact first v operand
    | succ k => exact ih operand

omit [Source σ] in
theorem tracked_operands {t : Session Float σ} {ms : List Nat} (h : t.Counted ms) {ks : List Nat}
    {vs : List (Value Float)} (operands : ks.mapM t.operand? = some vs) :
    List.Forall₂ Tracked vs (ks.map fun k => ms.getD k 0) := by
  induction ks generalizing vs with
  | nil =>
    cases operands
    exact .nil
  | cons k ks ih =>
    rw [List.mapM_cons] at operands
    obtain ⟨w, hw, rest⟩ := Option.bind_eq_some_iff.mp operands
    obtain ⟨ws, hws, all⟩ := Option.bind_eq_some_iff.mp rest
    cases all
    exact .cons (tracked_operand h hw) (ih hws)

/-- one call -/
theorem counted_step {t : Session Float σ} {ms : List Nat} (h : t.Counted ms) {c : Call}
    (coin : ∀ op ks, c = .apply op ks → op ∈ Operation.ofCoins)
    (proper : ∀ a ∈ t.application? c, Proper F a) :
    (t.step F c).Counted (ms ++ [c.connectives ms]) := by
  have answered : ∀ v, (t.answer F c).1.value? = some v → Tracked v (c.connectives ms) := by
    intro v hv
    cases c with
    | constant l =>
      cases hv
      exact fun _ => Value.near_literal l
    | apply op ks =>
      cases ha : t.application? (.apply op ks) with
      | none =>
        rw [answer, ha] at hv
        cases hv
      | some a =>
        obtain ⟨vs, operands, rfl⟩ := Option.map_eq_some_iff.mp ha
        rw [answer_of_application? ha] at hv
        exact Operation.tracked_apply (coin op ks rfl) (proper _ ha) (tracked_operands h operands)
          (Answer.value?_ofResult.mp hv)
  have answers : (t.step F c).answers = t.answers ++ [(t.answer F c).1] := rfl
  unfold Counted
  rw [answers]
  exact List.rel_append h (.cons answered .nil)

/-- a list of calls -/
theorem counted_run (calls : List Call) {t : Session Float σ} {ms : List Nat} (h : t.Counted ms)
    (coins : ∀ op ks, .apply op ks ∈ calls → op ∈ Operation.ofCoins)
    (proper : ∀ a ∈ applications F calls t, Proper F a) :
    (run F calls t).Counted (connectives calls ms) := by
  induction calls generalizing t ms with
  | nil => exact h
  | cons c calls ih =>
    refine ih (counted_step h ?_ ?_) ?_ ?_
    · rintro op ks rfl
      exact coins op ks List.mem_cons_self
    · exact fun a ha => proper a (List.mem_append_left _ (Option.mem_toList.mpr ha))
    · exact fun op ks hc => coins op ks (List.mem_cons_of_mem c hc)
    · exact fun a ha => proper a (List.mem_append_right _ ha)

end Session

section

variable {σ : Type} [Source σ]

/-- **Selection within the drift.**  Take a session that builds truth values from constants and
from coins with parameters of the unit interval, by negation, conjunction, disjunction and
equality, and a truth value of it that was built with `m` connectives, an operand that is used
twice counted twice.  A draw selects one of the two outcomes, unless it is among the last `8 * m`
ones below one.  Where there is no connective every draw does. -/
theorem draws_select {F : Cumulative} {calls : List Call} {start : σ}
    (coins : ∀ op ks, .apply op ks ∈ calls → op ∈ Operation.ofCoins)
    (proper : ∀ a ∈ Session.applications F calls (.start start : Session Float σ), Proper F a)
    {i m : Nat} {s : Pmf Bool Float}
    (value : (Session.run F calls (.start start) : Session Float σ).answers[i]? =
      some (.value (.bool s)))
    (count : (Session.connectives calls [])[i]? = some m) {k : UInt64} (draw : k.toNat < 2 ^ 53)
    (room : k.toNat + 8 * m ≤ 2 ^ 53) : ∃ b, s.pick (uniformDouble k) = .ok b := by
  have counted : (Session.run F calls (.start start) : Session Float σ).Counted
      (Session.connectives calls []) := Session.counted_run calls .nil coins proper
  have operand : (Session.run F calls (.start start) : Session Float σ).operand? i =
      some (.bool s) := by
    unfold Session.operand?
    rw [value]
    rfl
  have tracked := Session.tracked_operand counted operand
  have number : (Session.connectives calls []).getD i 0 = m := by
    rw [List.getD_eq_getElem?_getD, count, Option.getD_some]
  rw [number] at tracked
  have drifts : Drifts m s := tracked (by omega)
  exact Pmf.pick_of_drifts drifts (by omega) (uniformDouble_spec draw).1
    (reached_of_drifts drifts draw room)

/-- whether two tosses of one coin agree, although the coin is used as if it were two -/
def coinWithItself : List Call :=
  [.constant (.float 0.16), .apply .flip [0], .apply .sample [1], .apply .equal [2, 2]]

/-- its calls are those of coins, and the parameter is a number of the unit interval -/
theorem coinWithItself_ofCoins :
    (∀ op ks, .apply op ks ∈ coinWithItself → op ∈ Operation.ofCoins) ∧
    ∀ a ∈ Session.applications Law.cumulative coinWithItself
      (.start ⟨fun _ => 0.0, 0⟩ : Session Float Sequence), Proper Law.cumulative a := by
  constructor
  · intro op ks h
    simp only [coinWithItself, List.mem_cons, List.not_mem_nil, or_false, Call.apply.injEq,
      reduceCtorEq, false_or] at h
    rcases h with ⟨rfl, -⟩ | ⟨rfl, -⟩ | ⟨rfl, -⟩ <;> decide
  · unfold Proper
    decide +kernel

theorem draws_select_coinWithItself :
    ∃ s : Pmf Bool Float, (Session.run Law.cumulative coinWithItself (.start ⟨fun _ => 0.0, 0⟩) :
        Session Float Sequence).answers[3]? = some (.value (.bool s)) ∧
      ∀ k : UInt64, k.toNat + 8 ≤ 2 ^ 53 → ∃ b, s.pick (uniformDouble k) = .ok b := by
  refine ⟨_, rfl, fun k hk => ?_⟩
  exact draws_select (i := 3) (m := 1) coinWithItself_ofCoins.1 coinWithItself_ofCoins.2 rfl rfl
    (by omega) hk

/-- but the very last draw finds no outcome: the total of this value is less -/
theorem coinWithItself_exhausted :
    (∀ op ks, .apply op ks ∈ coinWithItself → op ∈ Operation.ofCoins) ∧
    (∀ a ∈ Session.applications Law.cumulative coinWithItself
      (.start ⟨fun _ => 0.0, 0⟩ : Session Float Sequence), Proper Law.cumulative a) ∧
    ∃ s : Pmf Bool Float, (Session.run Law.cumulative coinWithItself (.start ⟨fun _ => 0.0, 0⟩) :
        Session Float Sequence).answers[3]? = some (.value (.bool s)) ∧
      s.pick (uniformDouble 0x1fffffffffffff) = .error 0.9999999999999998 := by
  refine ⟨coinWithItself_ofCoins.1, coinWithItself_ofCoins.2, _, rfl, ?_⟩
  decide +kernel

end

end Chance
