/-!
# The regularised incomplete beta function

`I x a b` by its continued fraction, taken on the side of the line where that converges quickly.
The factor in front, `x^a (1-x)^b / B(a, b)`, comes from the logarithm of gamma, which is a sum
of fractions with poles at zero and the negative integers.
-/

namespace Chance

/-! ## The logarithm of gamma -/

/-- the distance of the expansion from its poles -/
def gammaShift : Float := 10.900511

/-- the constant term of the expansion -/
def gammaBase : Float := 2.4857408913875355e-5

/-- the residues of the expansion, from the pole at zero downwards -/
def gammaResidues : List Float := [
  1.0514237858172197, -3.4568709722201625, 4.512277094668948, -2.9828522532357664,
  1.056397115771267, -0.19542877319164587, 0.01709705434044412, -0.0005719261174043057,
  4.633994733599057e-6, -2.7199490848860772e-9]

/-- the base of the natural logarithm -/
def eulersNumber : Float := 2.718281828459045

/-- the ratio of the circle -/
def circleRatio : Float := 3.141592653589793

/-- the logarithm of `2 √(e/π)` -/
def logGammaScale : Float := 0.6207822376352452

/-- the sum of the expansion, the `i`-th residue divided by `place i` -/
def gammaSum (place : Float → Float) : Float :=
  (gammaResidues.foldl (fun (s, i) r => (s + r / place i, i + 1.0)) (gammaBase, 1.0)).1

/-- The logarithm of gamma; below a half by reflection at that point. -/
def logGamma (x : Float) : Float :=
  if x < 0.5 then
    1.1447298858494002 - Float.log (Float.sin (circleRatio * x))
      - Float.log (gammaSum (fun i => i - x)) - logGammaScale
      - (0.5 - x) * Float.log ((0.5 - x + gammaShift) / eulersNumber)
  else
    Float.log (gammaSum (fun i => x + i - 1.0)) + logGammaScale
      + (x - 0.5) * Float.log ((x - 0.5 + gammaShift) / eulersNumber)

/-! ## The factor -/

/-- is the number one, up to four units in the last place? -/
def isAboutOne (x : Float) : Bool :=
  0x3feffffffffffffc ≤ x.toBits && x.toBits ≤ 0x3ff0000000000004

/-- is the point an end of the unit interval?  Around zero the doubles lie so close together that
only zero itself is the end. -/
def isEnd (x : Float) : Bool := x == 0.0 || isAboutOne x

/-- `x^a (1-x)^b / B(a, b)` -/
def betaFactor (x a b : Float) : Float :=
  if isEnd x then 0.0
  else Float.exp (logGamma (a + b) - logGamma a - logGamma b + a * Float.log x
    + b * Float.log (1.0 - x))

/-! ## The continued fraction -/

/-- half the distance from one to the next double -/
def halfUlp : Float := 1.1102230246251565e-16

/-- the number, or a tiny one in place of one that is nearly zero -/
def awayFromZero (t : Float) : Float :=
  let tiny : Float := 2.2250738585072014e-308 / halfUlp
  if t.abs < tiny then tiny else t

/-- The continued fraction by forward steps, two coefficients a step, until a step changes nothing:
`h` is the value so far, `c` and `d` the ratios of successive numerators and denominators. -/
def betaFraction (x a b : Float) : Nat → Float → Float → Float → Float → Float
  | 0, _, _, _, h => h
  | steps + 1, m, c, d, h =>
    let m2 := m * 2.0
    let even := m * (b - m) * x / ((a - 1.0 + m2) * (a + m2))
    let d := 1.0 / awayFromZero (1.0 + even * d)
    let c := awayFromZero (1.0 + even / c)
    let h := h * d * c
    let odd := -(a + m) * (a + b + m) * x / ((a + m2) * (a + 1.0 + m2))
    let d := 1.0 / awayFromZero (1.0 + odd * d)
    let c := awayFromZero (1.0 + odd / c)
    let change := d * c
    let h := h * change
    if (change - 1.0).abs ≤ halfUlp then h else betaFraction x a b steps (m + 1.0) c d h

/-- the value of the continued fraction, after 140 steps at most -/
def betaFractionAt (x a b : Float) : Float :=
  let d := 1.0 / awayFromZero (1.0 - (a + b) * x / (a + 1.0))
  betaFraction x a b 140 1.0 1.0 d d

/-- the regularised incomplete beta function between zero and one -/
def incompleteBeta (x a b : Float) : Float :=
  let factor := betaFactor x a b
  if (a + 1.0) / (a + b + 2.0) ≤ x then
    1.0 - factor * betaFractionAt (1.0 - x) b a / b
  else factor * betaFractionAt x a b / a

end Chance
