import Chance.Decimal

/-!
# JSON values

A number keeps whether it was written as an integer, and an object keeps its members in order
with repeated keys.  `plain` is the value an object stands for when it is data: sorted by key,
the last of repeated members kept.
-/

namespace Chance

/-- a JSON number: an integer between `-2^63` and `2^64 - 1`, or a double -/
inductive Json.Number where
  | integer (n : Int)
  | float (x : Float)
deriving DecidableEq

/-- a JSON value -/
inductive Json where
  | null
  | bool (b : Bool)
  | number (n : Json.Number)
  | string (s : String)
  | array (items : List Json)
  | object (members : List (String × Json))

namespace Json

def floatOfInt (n : Int) : Float :=
  let magnitude := Decimal.toFloat ⟨n.natAbs, 0⟩
  if n < 0 then -magnitude else magnitude

def Number.toFloat : Number → Float
  | .integer n => floatOfInt n
  | .float x => x

/-- Numbers agree if both are the same integer or both are doubles of equal value. -/
def Number.same : Number → Number → Bool
  | .integer m, .integer n => m == n
  | .float x, .float y => x == y
  | _, _ => false

mutual

/-- equality of values, doubles compared by value -/
def same : Json → Json → Bool
  | .null, .null => true
  | .bool a, .bool b => a == b
  | .number m, .number n => m.same n
  | .string s, .string t => s == t
  | .array xs, .array ys => sameItems xs ys
  | .object xs, .object ys => sameMembers xs ys
  | _, _ => false

def sameItems : List Json → List Json → Bool
  | [], [] => true
  | x :: xs, y :: ys => same x y && sameItems xs ys
  | _, _ => false

def sameMembers : List (String × Json) → List (String × Json) → Bool
  | [], [] => true
  | (j, x) :: xs, (k, y) :: ys => j == k && same x y && sameMembers xs ys
  | _, _ => false

end

/-- put a member into a list sorted by key, in place of one with the same key -/
def insertMember (key : String) (value : Json) : List (String × Json) → List (String × Json)
  | [] => [(key, value)]
  | (k, v) :: rest =>
    if key = k then (key, value) :: rest
    else if key < k then (key, value) :: (k, v) :: rest
    else (k, v) :: insertMember key value rest

mutual

/-- the value with every object sorted by key, the last of repeated members kept -/
def plain : Json → Json
  | .array items => .array (plainItems items)
  | .object members => .object (plainMembers members [])
  | .null => .null
  | .bool b => .bool b
  | .number n => .number n
  | .string s => .string s

def plainItems : List Json → List Json
  | [] => []
  | x :: xs => plain x :: plainItems xs

def plainMembers : List (String × Json) → List (String × Json) → List (String × Json)
  | [], sorted => sorted
  | (k, v) :: rest, sorted => plainMembers rest (insertMember k (plain v) sorted)

end

inductive Fault where
  /-- the text ends inside a value -/
  | truncated
  /-- the text is no JSON -/
  | malformed
  /-- the text is JSON of a shape that was not asked for -/
  | misshapen
deriving DecidableEq, Repr

end Json
end Chance
