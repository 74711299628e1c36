/-!
# Masses

The arithmetic in which probability masses are added and multiplied.  Programs are run in doubles;
the same definitions over the rationals say what the doubles approximate.
-/

namespace Chance

/-- what enumeration and selection need of a mass -/
class Mass (M : Type) where
  /-- the mass of an outcome that is not recorded -/
  zero : M
  /-- the mass of certainty -/
  one : M
  /-- the total of no masses at all, neutral for `add` -/
  neutral : M
  add : M → M → M
  mul : M → M → M
  /-- what a mass leaves of `one` -/
  complement : M → M
  /-- equality by value -/
  eq : M → M → Bool
  le : M → M → Bool
  /-- a double taken as a mass -/
  ofFloat : Float → M

/-- Masses in double arithmetic.  Adding the negative zero changes no double, so it is the total
of no masses. -/
instance Mass.ofDoubles : Mass Float where
  zero := 0.0
  one := 1.0
  neutral := -0.0
  add p q := p + q
  mul p q := p * q
  complement p := 1.0 - p
  eq p q := p == q
  le p q := decide (p ≤ q)
  ofFloat x := x

/-- the number that a finite double is; zero for the others -/
def exactValue (x : Float) : Rat :=
  match x.toModel.unpack with
  | .finite .positive mantissa exponent _ => mantissa * (2 : Rat) ^ exponent
  | .finite .negative mantissa exponent _ => -(mantissa * (2 : Rat) ^ exponent)
  | _ => 0

/-- masses in exact arithmetic -/
instance Mass.exact : Mass Rat where
  zero := 0
  one := 1
  neutral := 0
  add p q := p + q
  mul p q := p * q
  complement p := 1 - p
  eq p q := decide (p = q)
  le p q := decide (p ≤ q)
  ofFloat := exactValue

namespace Mass

variable {M : Type} [Mass M]

/-- the total of a list of masses, added from left to right -/
def total (ps : List M) : M := ps.foldl add neutral

def nonzero (p : M) : Bool := !eq p zero

def nonpositive (p : M) : Bool := le p zero

end Mass
end Chance
