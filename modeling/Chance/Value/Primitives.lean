import Chance.Pmf.Selection
import Chance.Random.Source
import Chance.Value.Fault

/-!
# Primitives

One function per operation.  Operands of one discrete kind come first, then a certain double with
a continuous sample on either side; every other combination is a mismatch.  Only `observe` draws.
-/

namespace Chance
namespace Value

variable {M : Type} [Mass M]

/-- the certain value of a JSON constant -/
def constant (v : Json) : Except (Fault M) (Value M) :=
  match Literal.ofJson v with
  | .ok l => .ok l.toValue
  | .error why => .error (.unsupportedConstant why)

def mismatch (op : Operation) (l r : Value M) : Except (Fault M) (Value M) :=
  .error (.typeMismatch op [l.kind, r.kind])

def mismatchOne (op : Operation) (v : Value M) : Except (Fault M) (Value M) :=
  .error (.typeMismatch op [v.kind])

/-! ## Arithmetic -/

/-- a certain double and a continuous sample, in either order -/
def numberWithSample? : Value M → Value M → Option (Float × Affine)
  | .float s, .continuous x => s.single.map fun v => (v.toFloat, x)
  | .continuous x, .float s => s.single.map fun v => (v.toFloat, x)
  | _, _ => none

def operationOf : Arith → Operation
  | .add => .add
  | .subtract => .subtract
  | .multiply => .multiply
  | .divide => .divide

def ofArith {α : Type} (wrap : α → Value M) : Except ArithFault α → Except (Fault M) (Value M)
  | .ok s => .ok (wrap s)
  | .error why => .error (.arithmetic why)

def arith (op : Arith) (l r : Value M) : Except (Fault M) (Value M) :=
  match l, r with
  | .int s, .int t => ofArith .int (s.arith op t)
  | .float s, .float t => ofArith .float (s.arith op t)
  | l, r =>
    match numberWithSample? l r with
    | some (x, s) => .ok (.continuous (s.arith op x))
    | none => mismatch (operationOf op) l r

/-! ## Booleans -/

/-- a connective of two samples of truth values -/
def connective (op : Operation) (f : Pmf Bool M → Pmf Bool M → Pmf Bool M) (l r : Value M) :
    Except (Fault M) (Value M) :=
  match l, r with
  | .bool s, .bool t => .ok (.bool (f s t))
  | l, r => mismatch op l r

def and (l r : Value M) : Except (Fault M) (Value M) := connective .and Pmf.and l r

def or (l r : Value M) : Except (Fault M) (Value M) := connective .or Pmf.or l r

def not (v : Value M) : Except (Fault M) (Value M) :=
  match v with
  | .bool s => .ok (.bool s.not)
  | v => mismatchOne .not v

/-! ## Comparisons -/

/-- Equality.  A continuous sample is certain to differ from every double. -/
def equal (l r : Value M) : Except (Fault M) (Value M) :=
  match l, r with
  | .int s, .int t => .ok (.bool (s.equal t))
  | .float s, .float t => .ok (.bool (s.equal t))
  | .bool s, .bool t => .ok (.bool (s.equal t))
  | .float _, .continuous _ | .continuous _, .float _ =>
    .ok (.bool ((Pmf.empty.add false Mass.one).add true Mass.zero))
  | l, r => mismatch .equal l r

def ofComparison (law : Law) : Except Float (Pmf Bool M) → Except (Fault M) (Value M)
  | .ok s => .ok (.bool s)
  | .error x => .error (.noCumulative law x)

/-- A comparison of two samples of numbers, or of doubles with a continuous sample: `left` and
`right` are for a continuous sample on that side. -/
def comparison (op : Operation) (ints : Pmf Int64 M → Pmf Int64 M → Pmf Bool M)
    (doubles : Pmf Double M → Pmf Double M → Pmf Bool M)
    (left right : Affine → Pmf Double M → Except Float (Pmf Bool M)) (l r : Value M) :
    Except (Fault M) (Value M) :=
  match l, r with
  | .int s, .int t => .ok (.bool (ints s t))
  | .float s, .float t => .ok (.bool (doubles s t))
  | .continuous x, .float s => ofComparison x.law (left x s)
  | .float s, .continuous x => ofComparison x.law (right x s)
  | l, r => mismatch op l r

def lessThan (F : Cumulative) (l r : Value M) : Except (Fault M) (Value M) :=
  comparison .lessThan Pmf.lessThan Pmf.lessThan (Pmf.below F) (Pmf.above F) l r

def greaterThan (F : Cumulative) (l r : Value M) : Except (Fault M) (Value M) :=
  comparison .greaterThan Pmf.greaterThan Pmf.greaterThan (Pmf.above F) (Pmf.below F) l r

/-! ## Distributions -/

/-- a parameter of a distribution: a certain double -/
def parameter (family : Family) (name : String) : Value M → Except (Fault M) Float
  | .float s =>
    match s.single with
    | some v => .ok v.toFloat
    | none => .error (.parameter family name (.spread s.size))
  | v => .error (.parameter family name (.kind v.kind))

/-- a distribution with one parameter -/
def ofParameter (family : Family) (name : String) (build : Float → Distribution) (v : Value M) :
    Except (Fault M) (Value M) :=
  match parameter family name v with
  | .error f => .error f
  | .ok x => .ok (.distribution (build x))

/-- a law with two parameters, the first one looked at first -/
def ofParameters (family : Family) (first second : String) (build : Float → Float → Law)
    (v w : Value M) : Except (Fault M) (Value M) :=
  match parameter family first v with
  | .error f => .error f
  | .ok x =>
    match parameter family second w with
    | .error f => .error f
    | .ok y => .ok (.distribution (.continuous (build x y)))

def bernoulli (p : Value M) : Except (Fault M) (Value M) := ofParameter .bernoulli "p" .bernoulli p

def flip (p : Value M) : Except (Fault M) (Value M) := ofParameter .flip "p" .flip p

def normal (mean sd : Value M) : Except (Fault M) (Value M) :=
  ofParameters .normal "mean" "sd" .normal mean sd

def beta (a b : Value M) : Except (Fault M) (Value M) := ofParameters .beta "a" "b" .beta a b

/-- a sample as the value of the shape that was declared for it -/
def ofSample (declared : SampleKind) (s : Sample M) : Except (Fault M) (Value M) :=
  match declared, s with
  | .discreteInt, .int s => .ok (.int s)
  | .discreteBool, .bool s => .ok (.bool s)
  | .continuous, .continuous s => .ok (.continuous s)
  | declared, s => .error (.typeMismatch .sample [declared.kind, s.kind.kind])

def sample : Value M → Except (Fault M) (Value M)
  | .distribution d => ofSample d.declares d.sample
  | v => mismatchOne .sample v

/-! ## Observation -/

variable {σ : Type} [Source σ]

/-- One draw from a condition: `true` lets the result pass, `false` fails the evaluation. -/
def observe (condition result : Value M) (source : σ) : Except (Fault M) (Value M) × σ :=
  match condition with
  | .bool s =>
    let drawn := Source.next source
    match s.pick drawn.1 with
    | .ok true => (.ok result, drawn.2)
    | .ok false => (.error .observationFailed, drawn.2)
    | .error total => (.error (.selectionExhausted total), drawn.2)
  | condition => (mismatch .observe condition result, source)

end Value
end Chance
