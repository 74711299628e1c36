import Chance.Affine
import Chance.Pmf.Equality

/-!
# Values

What a program computes with: mass functions of booleans, integers or doubles, continuous samples,
and distributions that have not been sampled.  Values are generic in the arithmetic of masses.
-/

namespace Chance

inductive Value (M : Type) where
  | bool (s : Pmf Bool M)
  | int (s : Pmf Int64 M)
  | float (s : Pmf Double M)
  | continuous (s : Affine)
  | distribution (d : Distribution)

inductive Kind where
  | bool
  | int
  | float
  | continuous
  | distribution
deriving DecidableEq, Repr

def Kind.text : Kind → String
  | .bool => "bool sample"
  | .int => "int sample"
  | .float => "float sample"
  | .continuous => "continuous sample"
  | .distribution => "distribution"

namespace Value

variable {M : Type}

def kind : Value M → Kind
  | .bool _ => .bool
  | .int _ => .int
  | .float _ => .float
  | .continuous _ => .continuous
  | .distribution _ => .distribution

/-- Values are the same if they are of one kind and record the same outcomes with equal masses, or
have equal parameters. -/
def same [Mass M] : Value M → Value M → Bool
  | .bool s, .bool t => s.same t
  | .int s, .int t => s.same t
  | .float s, .float t => s.same t
  | .continuous s, .continuous t => s.same t
  | .distribution d, .distribution e => d.same e
  | _, _ => false

end Value

/-! ## Literals -/

/-- a constant of a program -/
inductive Literal where
  | bool (b : Bool)
  | int (n : Int64)
  | float (x : Float)
deriving DecidableEq

/-- the certain value of a literal -/
def Literal.toValue {M : Type} [Mass M] : Literal → Value M
  | .bool b => .bool (Pmf.certain b)
  | .int n => .int (Pmf.certain n)
  | .float x => .float (Pmf.certain (Double.ofFloat x))

/-! ## Samples -/

/-- the shape of what sampling a distribution gives -/
inductive SampleKind where
  | discreteInt
  | discreteBool
  | continuous
deriving DecidableEq, Repr

namespace SampleKind

def name : SampleKind → String
  | .discreteInt => "discrete_int"
  | .discreteBool => "discrete_bool"
  | .continuous => "continuous"

def all : List SampleKind := [.discreteInt, .discreteBool, .continuous]

def ofName? (name : String) : Option SampleKind := all.find? fun k => k.name == name

def kind : SampleKind → Kind
  | .discreteInt => .int
  | .discreteBool => .bool
  | .continuous => .continuous

end SampleKind

inductive Sample (M : Type) where
  | int (s : Pmf Int64 M)
  | bool (s : Pmf Bool M)
  | continuous (s : Affine)

def Sample.kind {M : Type} : Sample M → SampleKind
  | .int _ => .discreteInt
  | .bool _ => .discreteBool
  | .continuous _ => .continuous

namespace Distribution

/-- the shape that the family declares for its samples -/
def declares : Distribution → SampleKind
  | .bernoulli _ => .discreteInt
  | .flip _ => .discreteBool
  | .continuous _ => .continuous

/-- the whole mass function of a discrete family, the untransformed sample of a law -/
def sample {M : Type} [Mass M] : Distribution → Sample M
  | .bernoulli p =>
    let p : M := Mass.ofFloat p
    .int ((Pmf.empty.add 1 p).add 0 (Mass.complement p))
  | .flip p => .bool (Pmf.trial (Mass.ofFloat p))
  | .continuous law => .continuous (.ofLaw law)

end Distribution
end Chance
