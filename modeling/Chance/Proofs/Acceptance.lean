import Chance.Proofs.Evaluation
import Mathlib.Data.List.Forall2

/-!
# Values without draws

What a draw decides is whether a run goes on, never what it computes: a run is the run in which
every observation passes, cut short at the first observation that does not.

* `Program.accepted`      the result of the run in which every observation passes;
* `eval_accepted`         each run ends as that one does, or fails for a draw;
* `Program.unobserved`    a program without its observations, each replaced by its second operand;
* `steady_unobserved`     it has the value of the program, on every source and without a draw;
* `eval_undrawn`          all of this as a statement about any two runs.
-/

namespace Chance

variable {M σ τ : Type} [Mass M] [Source σ] [Source τ]

def Sequence.zeros : Sequence := ⟨fun _ => 0.0, 0⟩

/-- An application in which an observation of a truth value passes without a draw.  No other one
takes notice of the source (`apply_of_not_draws`), so it may be any. -/
def Operation.accepted (F : Cumulative) (op : Operation) (vs : List (Value M)) :
    Except (Fault M) (Value M) :=
  match op, vs with
  | .observe, [.bool _, r] => .ok r
  | op, vs => (op.apply F vs Sequence.zeros).1

namespace Operation

theorem accepted_observe (F : Cumulative) (c : Pmf Bool M) (r : Value M) :
    observe.accepted F [.bool c, r] = .ok r := rfl

theorem accepted_of_not_draws (F : Cumulative) {op : Operation} {vs : List (Value M)}
    (h : op.draws vs = false) (s : σ) : op.apply F vs s = (op.accepted F vs, s) := by
  have same : op.accepted F vs = (op.apply F vs Sequence.zeros).1 := by
    unfold accepted
    split
    · cases h
    · rfl
  rw [same]
  exact apply_of_not_draws F h s Sequence.zeros

/-- an application ends as the accepted one, or fails for its draw -/
theorem apply_accepted (F : Cumulative) (op : Operation) (vs : List (Value M)) (s : σ) :
    (op.apply F vs s).1 = op.accepted F vs ∨
      ∃ f, (op.apply F vs s).1 = .error f ∧ f.ofDraw = true := by
  cases h : op.draws vs with
  | false =>
    rw [accepted_of_not_draws F h s]
    exact .inl rfl
  | true =>
    obtain ⟨c, r, rfl, rfl⟩ := eq_of_draws h
    rw [apply_observe, accepted_observe]
    unfold Value.observe
    dsimp only
    split
    · exact .inl rfl
    · exact .inr ⟨_, rfl, rfl⟩
    · exact .inr ⟨_, rfl, rfl⟩

end Operation

namespace Program

mutual

/-- the result of a program all of whose observations of a truth value pass -/
def accepted (F : Cumulative) : Program → Except (Fault M) (Value M)
  | .const v => Value.constant v
  | .call op args =>
    match acceptedAll F args with
    | .error f => .error f
    | .ok vs => op.accepted F vs

def acceptedAll (F : Cumulative) : List Program → Except (Fault M) (List (Value M))
  | [] => .ok []
  | a :: as =>
    match accepted F a with
    | .error f => .error f
    | .ok v =>
      match acceptedAll F as with
      | .error f => .error f
      | .ok vs => .ok (v :: vs)

end

/-- a call, which for an observation of two operands is the second one -/
def unobservedCall : Operation → List Program → Program
  | .observe, [_, r] => r
  | op, args => .call op args

theorem unobservedCall_of_ne {op : Operation} (h : op ≠ .observe) (args : List Program) :
    unobservedCall op args = .call op args := by
  unfold unobservedCall
  split
  · exact absurd rfl h
  · rfl

mutual

/-- a program with each observation of two operands replaced by the second one -/
def unobserved : Program → Program
  | .const v => .const v
  | .call op args => unobservedCall op (unobservedAll args)

def unobservedAll : List Program → List Program
  | [] => []
  | a :: as => unobserved a :: unobservedAll as

end

/-! ## A run and the accepted run -/

mutual

/-- a run ends as the accepted run does, or fails for a draw -/
theorem eval_accepted (F : Cumulative) : ∀ (p : Program) (s : σ),
    (p.eval F s).1 = (p.accepted F : Except (Fault M) (Value M)) ∨
      ∃ f : Fault M, (p.eval F s).1 = .error f ∧ f.ofDraw = true
  | .const v, s => by
    rw [eval_const, accepted]
    exact .inl rfl
  | .call op args, s => by
    rw [accepted]
    rcases h : (evalAll F args s : Evaluated M σ (List (Value M))) with ⟨r, t⟩
    rcases evalAll_accepted F args s with same | ⟨f, failed, hf⟩
    · rw [h] at same
      rw [← same]
      cases r with
      | error f =>
        rw [eval_call_error h]
        exact .inl rfl
      | ok vs =>
        rw [eval_call_ok h]
        exact Operation.apply_accepted F op vs t
    · rw [h] at failed
      cases failed
      rw [eval_call_error h]
      exact .inr ⟨f, rfl, hf⟩

theorem evalAll_accepted (F : Cumulative) : ∀ (ps : List Program) (s : σ),
    (evalAll F ps s).1 = (acceptedAll F ps : Except (Fault M) (List (Value M))) ∨
      ∃ f : Fault M, (evalAll F ps s).1 = .error f ∧ f.ofDraw = true
  | [], s => by
    rw [evalAll_nil, acceptedAll]
    exact .inl rfl
  | a :: as, s => by
    rw [acceptedAll]
    rcases h : (eval F a s : Evaluated M σ (Value M)) with ⟨r, t⟩
    rcases eval_accepted F a s with same | ⟨f, failed, hf⟩
    · rw [h] at same
      rw [← same]
      cases r with
      | error f =>
        rw [evalAll_cons_error h]
        exact .inl rfl
      | ok v =>
        rcases hs : (evalAll F as t : Evaluated M σ (List (Value M))) with ⟨q, u⟩
        rcases evalAll_accepted F as t with sameTail | ⟨f, failed, hf⟩
        · rw [hs] at sameTail
          dsimp only
          rw [← sameTail]
          cases q with
          | error f =>
            rw [evalAll_cons_tail h hs]
            exact .inl rfl
          | ok vs =>
            rw [evalAll_cons_ok h hs]
            exact .inl rfl
        · rw [hs] at failed
          cases failed
          rw [evalAll_cons_tail h hs]
          exact .inr ⟨f, rfl, hf⟩
    · rw [h] at failed
      cases failed
      rw [evalAll_cons_error h]
      exact .inr ⟨f, rfl, hf⟩

end

theorem accepted_of_ok {F : Cumulative} {p : Program} {s : σ} {v : Value M}
    (h : (p.eval F s).1 = .ok v) : p.accepted F = .ok v := by
  rcases eval_accepted (M := M) F p s with same | ⟨f, failed, -⟩
  · exact same.symm.trans h
  · rw [h] at failed
    cases failed

theorem accepted_of_error {F : Cumulative} {p : Program} {s : σ} {f : Fault M}
    (h : (p.eval F s).1 = .error f) (hf : f.ofDraw = false) : p.accepted F = .error f := by
  rcases eval_accepted (M := M) F p s with same | ⟨g, failed, hg⟩
  · exact same.symm.trans h
  · rw [h] at failed
    cases failed
    rw [hf] at hg
    cases hg

/-! ## The program without its observations -/

/-- a program that has a value on every source and draws nothing for it -/
def Steady (τ : Type) [Source τ] (F : Cumulative) (p : Program) (v : Value M) : Prop :=
  ∀ t : τ, p.eval F t = (.ok v, t)

theorem evalAll_of_steady {F : Cumulative} {ps : List Program} {vs : List (Value M)}
    (h : List.Forall₂ (Steady τ F) ps vs) (t : τ) : evalAll F ps t = (.ok vs, t) := by
  induction h with
  | nil => exact evalAll_nil F t
  | cons first _ ih => exact evalAll_cons_ok (first t) ih

mutual

/-- the accepted value is that of the program without its observations -/
theorem steady_unobserved {F : Cumulative} : ∀ {p : Program} {v : Value M},
    p.accepted F = .ok v → Steady τ F p.unobserved v
  | .const j, v, h => by
    intro t
    rw [accepted] at h
    rw [unobserved, eval_const, h]
  | .call op args, v, h => by
    rw [accepted] at h
    split at h
    · cases h
    · next vs hvs =>
      have all := steady_unobservedAll hvs
      rw [unobserved]
      cases hd : op.draws vs with
      | true =>
        -- an observation of two operands: its value is that of the second
        obtain ⟨c, r, rfl, rfl⟩ := Operation.eq_of_draws hd
        cases h
        generalize unobservedAll args = ps at all
        cases all with
        | cons _ rest => cases rest with
          | cons second rest => cases rest with
            | nil => exact second
      | false =>
        intro t
        have applied : op.apply F vs t = (.ok v, t) := by
          rw [Operation.accepted_of_not_draws F hd t, h]
        have other : op ≠ .observe := by
          rintro rfl
          have drew := Operation.draws_of_apply_observe (congrArg Prod.fst applied)
          rw [hd] at drew
          cases drew
        rw [unobservedCall_of_ne other, eval_call_ok (evalAll_of_steady all t), applied]

theorem steady_unobservedAll {F : Cumulative} : ∀ {ps : List Program} {vs : List (Value M)},
    acceptedAll F ps = .ok vs → List.Forall₂ (Steady τ F) (unobservedAll ps) vs
  | [], vs, h => by
    rw [acceptedAll] at h
    cases h
    rw [unobservedAll]
    exact .nil
  | a :: as, vs, h => by
    rw [acceptedAll] at h
    split at h
    · cases h
    · next v hv =>
      split at h
      · cases h
      · next ws hws =>
        cases h
        rw [unobservedAll]
        exact .cons (steady_unobserved hv) (steady_unobservedAll hws)

end

/-! ## Any two runs -/

/-- how a run can end beside a given result -/
def EndsAs (r r' : Except (Fault M) (Value M)) : Prop :=
  r' = r ∨ r' = .error .observationFailed ∨ ∃ m, r' = .error (.selectionExhausted m)

theorem endsAs_accepted (F : Cumulative) (p : Program) (s : σ) :
    EndsAs (p.accepted F : Except (Fault M) (Value M)) (p.eval F s).1 := by
  rcases eval_accepted (M := M) F p s with same | ⟨f, failed, hf⟩
  · exact .inl same
  · obtain rfl | ⟨m, rfl⟩ := Fault.eq_of_ofDraw hf
    · exact .inr (.inl failed)
    · exact .inr (.inr ⟨m, failed⟩)

/-- **A value does not depend on the draws.**  Every run ends as the accepted one, or is rejected,
or exhausts a condition.  Hence all values of a program are one value, which is also that of the
program without its observations, and a fault that is not of a draw excludes values and all other
such faults on every source. -/
theorem eval_undrawn (F : Cumulative) (p : Program) :
    (∀ s : σ, EndsAs (p.accepted F : Except (Fault M) (Value M)) (p.eval F s).1) ∧
    (∀ (s : σ) (t : τ) (v w : Value M), (p.eval F s).1 = .ok v → (p.eval F t).1 = .ok w → v = w) ∧
    (∀ (s : σ) (t : τ) (v : Value M), (p.eval F s).1 = .ok v → p.unobserved.eval F t = (.ok v, t)) ∧
    (∀ (s : σ) (t : τ) (f : Fault M), (p.eval F s).1 = .error f → f.ofDraw = false →
      EndsAs (.error f) (p.eval F t).1) := by
  refine ⟨endsAs_accepted F p, ?_, ?_, ?_⟩
  · intro s t v w hv hw
    have one := (accepted_of_ok hv).symm.trans (accepted_of_ok hw)
    exact Except.ok.inj one
  · intro s t v hv
    exact steady_unobserved (accepted_of_ok hv) t
  · intro s t f hs hf
    rw [← accepted_of_error hs hf]
    exact endsAs_accepted F p t

end Program
end Chance
