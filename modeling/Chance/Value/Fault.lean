import Chance.Operation
import Chance.Value

/-!
# Faults of an evaluation

Each fault is a cause with what is needed to tell it; `message` is the only place with wording.
-/

namespace Chance

/-- why a JSON value is no literal -/
inductive LiteralFault where
  /-- an integer that does not have 64 bits -/
  | outOfRange (n : Int)
  /-- neither a boolean nor a number -/
  | notScalar (v : Json)

def LiteralFault.message : LiteralFault → String
  | .outOfRange n => "integer out of range: " ++ intText n
  | .notScalar v => v.compact

inductive Family where
  | bernoulli
  | flip
  | normal
  | beta
deriving DecidableEq, Repr

def Family.name : Family → String
  | .bernoulli => "Bernoulli"
  | .flip => "Flip"
  | .normal => "Normal"
  | .beta => "Beta"

/-- why a value cannot be a parameter of a distribution -/
inductive ParameterFault where
  /-- it is not certain -/
  | spread (outcomes : Nat)
  /-- it is no mass function of doubles -/
  | kind (k : Kind)
deriving DecidableEq

def ParameterFault.message : ParameterFault → String
  | .spread n => " must be deterministic, got " ++ intText n ++ " possible values"
  | .kind k => " must be a float sample, got " ++ k.text

inductive Fault (M : Type) where
  /-- an operation has no rule for operands of these kinds -/
  | typeMismatch (op : Operation) (operands : List Kind)
  | arity (op : Operation) (got : Nat)
  | unsupportedConstant (why : LiteralFault)
  | parameter (family : Family) (name : String) (why : ParameterFault)
  /-- the draw of an observation came out false -/
  | observationFailed
  /-- a draw lies beyond the total mass -/
  | selectionExhausted (total : M)
  | arithmetic (why : ArithFault)
  /-- a law has no cumulative probability at the point -/
  | noCumulative (law : Law) (point : Float)

namespace Fault

def message : Fault Float → String
  | .typeMismatch op operands =>
    op.name ++ ": incompatible operand types ("
      ++ String.intercalate ", " (operands.map Kind.text) ++ ")"
  | .arity op got =>
    op.name ++ ": expected " ++ intText op.arity ++ " operand(s), got " ++ intText got
  | .unsupportedConstant why => "Incompatible constant: " ++ why.message
  | .parameter family name why =>
    "Unable to create " ++ family.name ++ " distribution: " ++ name ++ why.message
  | .observationFailed => "Observation failed"
  | .selectionExhausted total =>
    "Failed to select a value from sample (total mass " ++ FloatLayout.plain.text total ++ ")"
  | .arithmetic why => "Arithmetic error: " ++ why.message
  | .noCumulative law x =>
    "No cumulative probability of " ++ law.text ++ " at " ++ FloatLayout.plain.text x

end Fault

/-- the literal of a JSON value: integers of 64 bits stay integers, all other numbers that are
written with a fraction or an exponent or are out of every integer range are doubles -/
def Literal.ofJson : Json → Except LiteralFault Literal
  | .bool b => .ok (.bool b)
  | .number (.float x) => .ok (.float x)
  | .number (.integer n) =>
    match int64? n with
    | some n => .ok (.int n)
    | none => .error (.outOfRange n)
  | v => .error (.notScalar v)

end Chance
