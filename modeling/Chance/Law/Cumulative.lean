import Chance.Law
import Chance.Special.ErrorFunction
import Chance.Special.IncompleteBeta

/-!
# Cumulative probabilities

The cumulative functions of the two continuous families.  Parameters without a law give a result
that is no number.  A beta law other than the uniform one has no cumulative probability at a point
that is no number.
-/

namespace Chance

/-- the result where there is no law -/
def noNumber : Float := Float.ofBits 0x7ff8000000000000

def normalCumulative (mean sd x : Float) : Float :=
  if mean.isNaN || sd.isNaN || sd ≤ 0.0 then noNumber
  else 0.5 * erfc ((mean - x) / (sd * 1.4142135623730951))

def isShape (a : Float) : Bool := a.isFinite && 0.0 < a

/-- The cumulative probability of a beta law.  With both shapes about one the law is taken for the
uniform one, whose cumulative probability is the point itself. -/
def betaCumulative? (a b x : Float) : Option Float :=
  if !isShape a || !isShape b then some noNumber
  else if x < 0.0 then some 0.0
  else if 1.0 ≤ x then some 1.0
  else if isAboutOne a && isAboutOne b then some x
  else if x.isNaN then none
  else some (incompleteBeta x a b)

def Law.cumulative : Cumulative
  | .normal mean sd, x => some (normalCumulative mean sd x)
  | .beta a b, x => betaCumulative? a b x

end Chance
