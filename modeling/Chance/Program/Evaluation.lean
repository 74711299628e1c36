import Chance.Program
import Chance.Value.Primitives

/-!
# Evaluation

Operands are evaluated from left to right, the first fault ends the evaluation, and an operation
is applied, its number of operands checked, after all of them have values.
-/

namespace Chance

variable {M σ : Type} [Mass M] [Source σ]

/-- what an evaluation ends with, and the source it leaves -/
abbrev Evaluated (M σ α : Type) := Except (Fault M) α × σ

/-- an operation applied to evaluated operands -/
def Operation.apply (F : Cumulative) (op : Operation) (args : List (Value M)) (s : σ) :
    Evaluated M σ (Value M) :=
  match op, args with
  | .not, [v] => (v.not, s)
  | .bernoulli, [p] => (p.bernoulli, s)
  | .flip, [p] => (p.flip, s)
  | .sample, [d] => (d.sample, s)
  | .add, [l, r] => (l.arith .add r, s)
  | .subtract, [l, r] => (l.arith .subtract r, s)
  | .multiply, [l, r] => (l.arith .multiply r, s)
  | .divide, [l, r] => (l.arith .divide r, s)
  | .and, [l, r] => (l.and r, s)
  | .or, [l, r] => (l.or r, s)
  | .equal, [l, r] => (l.equal r, s)
  | .lessThan, [l, r] => (l.lessThan F r, s)
  | .greaterThan, [l, r] => (l.greaterThan F r, s)
  | .beta, [a, b] => (a.beta b, s)
  | .normal, [mean, sd] => (mean.normal sd, s)
  | .observe, [c, r] => c.observe r s
  | op, args => (.error (.arity op args.length), s)

namespace Program

mutual

/-- the value of a program -/
def eval (F : Cumulative) : Program → σ → Evaluated M σ (Value M)
  | .const v, s => (Value.constant v, s)
  | .call op args, s =>
    match evalAll F args s with
    | (.error f, s) => (.error f, s)
    | (.ok vs, s) => op.apply F vs s

/-- the values of operands, from left to right -/
def evalAll (F : Cumulative) : List Program → σ → Evaluated M σ (List (Value M))
  | [], s => (.ok [], s)
  | a :: as, s =>
    match eval F a s with
    | (.error f, s) => (.error f, s)
    | (.ok v, s) =>
      match evalAll F as s with
      | (.error f, s) => (.error f, s)
      | (.ok vs, s) => (.ok (v :: vs), s)

end

end Program

/-! ## Endings -/

/-- how a run of a program ends -/
inductive Ending (M : Type) where
  | value (v : Value M)
  /-- the run was rejected by an observation -/
  | rejected
  /-- the program or its data are at fault -/
  | fault (f : Fault M)

/-- the ending of an evaluation -/
def Ending.ofResult : Except (Fault M) (Value M) → Ending M
  | .ok v => .value v
  | .error .observationFailed => .rejected
  | .error f => .fault f

/-- one run of a program -/
def Program.run (F : Cumulative) (p : Program) (s : σ) : Ending M × σ :=
  match p.eval F s with
  | (r, s) => (.ofResult r, s)

/-- runs of a program one after the other on one source -/
def Program.runs (F : Cumulative) (p : Program) : Nat → σ → List (Ending M)
  | 0, _ => []
  | n + 1, s =>
    match (p.run F s : Ending M × σ) with
    | (e, s) => e :: p.runs F n s

end Chance
