import Chance.Pmf.Builder

/-!
# Combinations of mass functions

A binary operation on outcomes acts on mass functions by enumeration: every pair of outcomes
contributes the product of its masses to the result of the pair.  The operands are independent,
also where they are the same mass function.
-/

namespace Chance
namespace Pmf

variable {α β γ M ε : Type} [Outcome α] [Outcome β] [Outcome γ] [Mass M]

/-- all pairs of outcomes with the product of their masses, the left operand outermost -/
def pairs (l : Pmf α M) (r : Pmf β M) : List ((α × β) × M) :=
  l.entries.flatMap fun e => r.entries.map fun f => ((e.1, f.1), Mass.mul e.2 f.2)

theorem length_pairs (l : Pmf α M) (r : Pmf β M) :
    (l.pairs r).length = l.size * r.size := by
  simp only [pairs, size, List.length_flatMap, List.length_map, List.map_const',
    List.sum_replicate_nat]

/-- the results of an operation on all pairs -/
def combine (l : Pmf α M) (r : Pmf β M) (op : α → β → γ) : Pmf γ M :=
  ofList ((l.pairs r).map fun e => (op e.1.1 e.1.2, e.2))

def tryPair (op : α → β → Except ε γ) (e : (α × β) × M) : Except ε (γ × M) :=
  match op e.1.1 e.1.2 with
  | .error f => .error f
  | .ok w => .ok (w, e.2)

/-- the results of an operation that may fail; the first failing pair decides -/
def tryCombine (l : Pmf α M) (r : Pmf β M) (op : α → β → Except ε γ) : Except ε (Pmf γ M) :=
  ((l.pairs r).mapM (tryPair op)).map ofList

/-- an operation that never fails is enumerated in full -/
theorem tryCombine_ok (l : Pmf α M) (r : Pmf β M) (op : α → β → γ) :
    tryCombine (ε := ε) l r (fun a b => .ok (op a b)) = .ok (l.combine r op) := by
  have h : tryPair (M := M) (ε := ε) (fun a b => .ok (op a b)) =
      fun e => pure (op e.1.1 e.1.2, e.2) := rfl
  rw [tryCombine, h, List.mapM_pure]
  rfl

/-! ## Booleans -/

def and (l r : Pmf Bool M) : Pmf Bool M := combine l r fun a b => a && b

def or (l r : Pmf Bool M) : Pmf Bool M := combine l r fun a b => a || b

/-- the masses of the two truth values exchanged; both are recorded -/
def not (s : Pmf Bool M) : Pmf Bool M := (empty.add true (s.get false)).add false (s.get true)

theorem get_not (s : Pmf Bool M) (b : Bool) :
    s.not.get b = Mass.add Mass.zero (s.get !b) := by
  cases b <;> rfl

/-- `true` with a given mass and `false` with its complement -/
def trial (p : M) : Pmf Bool M := (empty.add true p).add false (Mass.complement p)

/-- the mass on which the operands are one outcome -/
def equal (l r : Pmf α M) : Pmf Bool M := combine l r Outcome.same

end Pmf

/-! ## Numbers -/

inductive Arith where
  | add
  | subtract
  | multiply
  | divide
deriving DecidableEq, Repr

def Arith.symbol : Arith → String
  | .add => "+"
  | .subtract => "-"
  | .multiply => "*"
  | .divide => "/"

/-- how arithmetic on 64-bit integers fails -/
inductive ArithFault where
  | overflow (l : Int64) (op : Arith) (r : Int64)
  | divisionByZero (l : Int64)
deriving DecidableEq

def ArithFault.message : ArithFault → String
  | .overflow l op r => intText l.toInt ++ " " ++ op.symbol ++ " " ++ intText r.toInt ++ " overflows"
  | .divisionByZero l => intText l.toInt ++ " / 0: division by zero"

/-- an outcome that can be computed with and put in order -/
class Number (α : Type) extends Outcome α where
  compute : Arith → α → α → Except ArithFault α
  /-- numeric order -/
  less : α → α → Bool

/-- the integer if it has 64 bits -/
def int64? (n : Int) : Option Int64 :=
  if -0x8000000000000000 ≤ n ∧ n ≤ 0x7fffffffffffffff then some (Int64.ofInt n) else none

theorem int64?_eq_some_iff {n : Int} {k : Int64} : int64? n = some k ↔ k.toInt = n := by
  have low := k.le_toInt
  have high := k.toInt_lt
  unfold int64?
  split
  · next range =>
    rw [Option.some.injEq]
    constructor
    · rintro rfl
      exact Int64.toInt_ofInt_of_le range.1 (by omega)
    · rintro rfl
      exact k.ofInt_toInt
  · next range =>
    constructor
    · intro h
      cases h
    · omega

/-- the operations on integers; division goes toward zero -/
def Arith.onInt : Arith → Int → Int → Int
  | .add, a, b => a + b
  | .subtract, a, b => a - b
  | .multiply, a, b => a * b
  | .divide, a, b => a.tdiv b

/-- arithmetic on 64-bit integers, checked for overflow and for division by zero -/
def Arith.checked (op : Arith) (a b : Int64) : Except ArithFault Int64 :=
  if op = .divide ∧ b = 0 then .error (.divisionByZero a)
  else match int64? (op.onInt a.toInt b.toInt) with
    | some n => .ok n
    | none => .error (.overflow a op b)

/-- the operations on doubles, which never fail -/
def Arith.onFloat : Arith → Float → Float → Float
  | .add, a, b => a + b
  | .subtract, a, b => a - b
  | .multiply, a, b => a * b
  | .divide, a, b => a / b

instance : Number Int64 where
  compute := Arith.checked
  less a b := decide (a.toInt < b.toInt)

instance : Number Double where
  compute op a b := .ok (Double.lift op.onFloat a b)
  less a b := decide (a.toFloat < b.toFloat)

namespace Pmf

variable {α M : Type} [Number α] [Mass M]

def arith (op : Arith) (l r : Pmf α M) : Except ArithFault (Pmf α M) :=
  tryCombine l r (Number.compute op)

def lessThan (l r : Pmf α M) : Pmf Bool M := combine l r Number.less

def greaterThan (l r : Pmf α M) : Pmf Bool M := combine l r fun a b => Number.less b a

end Pmf
end Chance
