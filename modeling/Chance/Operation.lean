/-!
# Operations

The sixteen primitives a program is built from, with their names and numbers of operands.
-/

namespace Chance

inductive Operation where
  | add
  | subtract
  | multiply
  | divide
  | and
  | or
  | not
  | equal
  | lessThan
  | greaterThan
  | bernoulli
  | beta
  | normal
  | flip
  | sample
  | observe
deriving DecidableEq, Repr

namespace Operation

def name : Operation → String
  | .add => "add"
  | .subtract => "subtract"
  | .multiply => "multiply"
  | .divide => "divide"
  | .and => "and"
  | .or => "or"
  | .not => "not"
  | .equal => "equal"
  | .lessThan => "less_than"
  | .greaterThan => "greater_than"
  | .bernoulli => "bernoulli"
  | .beta => "beta"
  | .normal => "normal"
  | .flip => "flip"
  | .sample => "sample"
  | .observe => "observe"

def all : List Operation :=
  [.add, .subtract, .multiply, .divide, .and, .or, .not, .equal, .lessThan, .greaterThan,
    .bernoulli, .beta, .normal, .flip, .sample, .observe]

def ofName? (name : String) : Option Operation := all.find? fun op => op.name == name

theorem ofName?_name (op : Operation) : ofName? op.name = some op := by cases op <;> decide

def arity : Operation → Nat
  | .not | .bernoulli | .flip | .sample => 1
  | _ => 2

end Operation
end Chance
