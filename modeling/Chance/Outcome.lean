import Chance.Decimal.Layout

/-!
# Outcomes

What a mass function can record: booleans, 64-bit integers and doubles.  Outcomes are told apart
by their key, a word of 64 bits.  A double is recorded as the word it was built from, and that word
is its key, except that all words that are no number share one: they are one outcome, while the
two zeros are two.
-/

namespace Chance

/-- a kind of value that a mass function can record -/
class Outcome (α : Type) where
  /-- the word by which outcomes are told apart -/
  key : α → UInt64
  /-- the place of an outcome in a sorted support -/
  rank : α → Int
  text : α → String

/-- two values are one outcome -/
def Outcome.same {α : Type} [Outcome α] (a b : α) : Bool := decide (Outcome.key a = Outcome.key b)

def intText (n : Int) : String :=
  String.ofList (if n < 0 then '-' :: Nat.toDigits 10 n.natAbs else Nat.toDigits 10 n.natAbs)

instance : Outcome Bool where
  key b := if b then 1 else 0
  rank b := if b then 1 else 0
  text b := if b then "true" else "false"

instance : Outcome Int64 where
  key n := n.toUInt64
  rank n := n.toInt
  text n := intText n.toInt

/-! ## Doubles -/

/-- a double as a word of 64 bits -/
structure Double where
  word : UInt64
deriving DecidableEq, Repr

namespace Double

def toFloat (x : Double) : Float := Float.ofBits x.word

def ofFloat (x : Float) : Double := ⟨x.toBits⟩

def signBit : UInt64 := 0x8000000000000000

/-- the word of the value: one and the same for all words that are no number -/
def key (x : Double) : UInt64 :=
  if x.toFloat.isNaN then 0x7ff8000000000000 else x.word

/-- The place of a word in the total order of doubles: negative words before positive ones, each
by magnitude, words that are no number at the two ends. -/
def rank (x : Double) : Int :=
  if x.word < signBit then x.word.toNat else 0x7fffffffffffffff - (x.word.toNat : Int)

/-- the word of a result that is no number although its operands are -/
def invalid : Double := ⟨0xfff8000000000000⟩

/-- a word that is no number, in the form in which operations pass it on -/
def quiet (x : Double) : Double := ⟨x.word ||| 0x0008000000000000⟩

/-- An operation on words: an operand that is no number is passed on, the left one first. -/
def lift (op : Float → Float → Float) (x y : Double) : Double :=
  if x.toFloat.isNaN then x.quiet
  else if y.toFloat.isNaN then y.quiet
  else
    let r := op x.toFloat y.toFloat
    if r.isNaN then invalid else ofFloat r

/-- the word with its sign flipped -/
def negate (x : Double) : Double := ⟨x.word ^^^ signBit⟩

/-- words of one key are equal or both no number -/
theorem key_eq_iff (x y : Double) :
    x.key = y.key ↔ x = y ∨ (x.toFloat.isNaN = true ∧ y.toFloat.isNaN = true) := by
  have shared : (Float.ofBits 0x7ff8000000000000).isNaN = true := by decide
  have numbers {z : Double} (h : z.toFloat.isNaN = false) : z.word ≠ 0x7ff8000000000000 := by
    intro e
    rw [toFloat, e, shared] at h
    exact absurd h (by decide)
  constructor
  · intro h
    cases hx : x.toFloat.isNaN <;> cases hy : y.toFloat.isNaN <;>
      simp only [key, hx, hy, if_true, if_false, Bool.false_eq_true] at h
    · cases x; cases y; exact .inl (congrArg Double.mk h)
    · exact absurd h (numbers hx)
    · exact absurd h.symm (numbers hy)
    · exact .inr ⟨rfl, rfl⟩
  · rintro (rfl | ⟨hx, hy⟩)
    · rfl
    · simp only [key, hx, hy, if_true]

end Double

instance : Outcome Double where
  key := Double.key
  rank := Double.rank
  text x := FloatLayout.plain.text x.toFloat

theorem Outcome.same_bool (a b : Bool) : Outcome.same a b = (a == b) := by
  cases a <;> cases b <;> rfl

theorem Outcome.same_int64 (a b : Int64) : Outcome.same a b = (a == b) := by
  have h : a.toUInt64 = b.toUInt64 ↔ a = b := by cases a; cases b; simp
  simp only [Outcome.same, Outcome.key, h]; rfl

end Chance
