import Chance.Json.Writer
import Chance.Pmf.Combination

/-!
# Continuous laws and distributions

A continuous law is known by its cumulative probability only.  A `Distribution` is a law or one of
the two discrete families; sampling a discrete one gives its whole mass function.
-/

namespace Chance

inductive Law where
  | normal (mean sd : Float)
  | beta (a b : Float)
deriving DecidableEq

/-- The cumulative probability of a law at a point, where it has one. -/
abbrev Cumulative := Law → Float → Option Float

namespace Law

def name : Law → String
  | .normal _ _ => "Normal"
  | .beta _ _ => "Beta"

def parameterText (name : String) (x : Float) : String := name ++ "=" ++ FloatLayout.plain.text x

def text : Law → String
  | .normal mean sd =>
    "Normal\x7b" ++ parameterText "mean" mean ++ " " ++ parameterText "sd" sd ++ "\x7d"
  | .beta a b => "Beta\x7b" ++ parameterText "a" a ++ " " ++ parameterText "b" b ++ "\x7d"

/-- the same family with parameters of equal value -/
def same : Law → Law → Bool
  | .normal m s, .normal n t => m == n && s == t
  | .beta a b, .beta c d => a == c && b == d
  | _, _ => false

def toJson : Law → Json
  | .normal mean sd => .object
    [("family", .string "normal"), ("mean", .number (.float mean)), ("sd", .number (.float sd))]
  | .beta a b => .object
    [("family", .string "beta"), ("a", .number (.float a)), ("b", .number (.float b))]

end Law

inductive Distribution where
  /-- one with probability `p`, else zero -/
  | bernoulli (p : Float)
  /-- true with probability `p`, else false -/
  | flip (p : Float)
  | continuous (law : Law)
deriving DecidableEq

namespace Distribution

def name : Distribution → String
  | .bernoulli _ => "Bernoulli"
  | .flip _ => "Flip"
  | .continuous law => law.name

def text : Distribution → String
  | .bernoulli p => "Bernoulli\x7b" ++ Law.parameterText "p" p ++ "\x7d"
  | .flip p => "Flip\x7b" ++ Law.parameterText "p" p ++ "\x7d"
  | .continuous law => law.text

/-- the same family with parameters of equal value -/
def same : Distribution → Distribution → Bool
  | .bernoulli p, .bernoulli q => p == q
  | .flip p, .flip q => p == q
  | .continuous l, .continuous k => l.same k
  | _, _ => false

end Distribution
end Chance
