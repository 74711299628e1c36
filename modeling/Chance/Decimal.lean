/-!
# Decimals and the doubles they stand for

A `Decimal` is `significand * 10 ^ exponent`.  `toFloat` is the double nearest to it; `ofBinary`
writes out every digit of a double, so that `shortest` only has to cut that expansion after one,
two, three, ... digits and keep the first cut that reads back.
-/

namespace Chance

/-- a non-negative decimal number `significand * 10 ^ exponent` -/
structure Decimal where
  significand : Nat
  exponent : Int
deriving DecidableEq, Repr

namespace Decimal

/-! ## Rounding -/

/-- where an exact tie between two neighbouring decimals goes -/
inductive Tie where
  | toEven
  | upward
deriving DecidableEq, Repr

/-- `lower` where the rest cut off is less than half a unit, `lower + 1` where it is more -/
def Tie.settle (tie : Tie) (lower rest unit : Nat) : Nat :=
  if 2 * rest < unit then lower
  else if unit < 2 * rest then lower + 1
  else match tie with
    | .toEven => lower + lower % 2
    | .upward => lower + 1

/-- the largest `k` with `2 ^ k ≤ num / den` -/
def floorLog2 (num den : Nat) : Int :=
  let k : Int := (num.log2 : Int) - (den.log2 : Int)
  if den <<< k.toNat ≤ num <<< (-k).toNat then k else k - 1

/-- The word of the double nearest to a positive fraction.  The unit of the last place is `2 ^ t`,
and words count the doubles upwards: those of one unit follow each other, those of the next unit
follow them.  A fraction past the last word gives the word of infinity. -/
def nearestWord (num den : Nat) : Nat :=
  let t := max (floorLog2 num den - 52) (-1074)
  let n := num <<< (-t).toNat
  let d := den <<< t.toNat
  min (Tie.toEven.settle (n / d) (n % d) d + ((t + 1074).toNat <<< 52)) 0x7ff0000000000000

/-- The double nearest to a decimal, a tie going to the even mantissa; infinite past the range.
Exponents far outside the range of doubles are settled before any power of ten is computed. -/
def toFloat (d : Decimal) : Float :=
  if d.significand = 0 ∨ d.exponent < -(1100 + d.significand.log2 : Nat) then 0.0
  else if 400 < d.exponent then Float.ofBits 0x7ff0000000000000
  else Float.ofBits (UInt64.ofNat (nearestWord (d.significand * Nat.pow 10 d.exponent.toNat)
    (Nat.pow 10 (-d.exponent).toNat)))

/-! ## Digits -/

/-- all the digits of `mantissa * 2 ^ exponent` -/
def ofBinary (mantissa : Nat) (exponent : Int) : Decimal :=
  if 0 ≤ exponent then ⟨mantissa <<< exponent.toNat, 0⟩
  else ⟨mantissa * Nat.pow 5 (-exponent).toNat, exponent⟩

def digits (d : Decimal) : List Char := Nat.toDigits 10 d.significand

/-- a carry into a new leading digit leaves the single digit one -/
def carried (n : Nat) (d : Decimal) : Decimal :=
  if d.significand = Nat.pow 10 n then ⟨1, d.exponent + n⟩ else d

/-- The decimal with the first `n` of the `width` digits of `d`, kept or raised by one unit of
the last place, that reads back as `x`; the nearer one if both do. -/
def cut? (tie : Tie) (x : Float) (d : Decimal) (width n : Nat) : Option Decimal :=
  let unit := Nat.pow 10 (width - n)
  let lower := d.significand / unit
  let rest := d.significand % unit
  let keep : Decimal := ⟨lower, d.exponent + (width - n : Nat)⟩
  let raise : Decimal := carried n ⟨lower + 1, d.exponent + (width - n : Nat)⟩
  match decide (keep.toFloat = x), decide (raise.toFloat = x) with
  | true, true => some (if tie.settle lower rest unit = lower then keep else raise)
  | true, false => some keep
  | false, true => some raise
  | false, false => none

/-- The shortest decimal that reads back as `x`, where `d` holds all digits of `x`. -/
def shortest (tie : Tie) (x : Float) (d : Decimal) : Decimal :=
  let width := d.digits.length
  ((List.range' 1 width).findSome? (cut? tie x d width)).getD d

theorem toFloat_of_cut? {tie : Tie} {x : Float} {d e : Decimal} {width n : Nat}
    (h : cut? tie x d width n = some e) : e.toFloat = x := by
  simp only [cut?] at h
  split at h <;> grind

/-- what `shortest` returns reads back, provided all the digits do -/
theorem toFloat_shortest {tie : Tie} {x : Float} {d : Decimal} (h : d.toFloat = x) :
    (shortest tie x d).toFloat = x := by
  simp only [shortest]
  cases hc : (List.range' 1 d.digits.length).findSome? (cut? tie x d d.digits.length) with
  | none => simpa using h
  | some e =>
    obtain ⟨_, _, _, _, hcut, _⟩ := List.findSome?_eq_some_iff.mp hc
    simpa using toFloat_of_cut? hcut

end Decimal
end Chance
