import Chance.Json.Writer
import Chance.Operation

/-!
# Programs

A program is an expression tree: constants, which may be any JSON value, and operations on the
results of other programs.
-/

namespace Chance

inductive Program where
  | const (value : Json)
  | call (op : Operation) (args : List Program)

namespace Program

mutual

def size : Program → Nat
  | .const _ => 1
  | .call _ args => 1 + sizeAll args

def sizeAll : List Program → Nat
  | [] => 0
  | a :: as => size a + sizeAll as

end

mutual

/-- equality, numbers in constants compared by value -/
def same : Program → Program → Bool
  | .const v, .const w => v.same w
  | .call op as, .call op' bs => op == op' && sameAll as bs
  | _, _ => false

def sameAll : List Program → List Program → Bool
  | [], [] => true
  | a :: as, b :: bs => same a b && sameAll as bs
  | _, _ => false

end

mutual

def toJson : Program → Json
  | .const v => .object [("const", v)]
  | .call op args => .object [("op", .string op.name), ("args", .array (toJsonAll args))]

def toJsonAll : List Program → List Json
  | [] => []
  | a :: as => toJson a :: toJsonAll as

end

end Program
end Chance
