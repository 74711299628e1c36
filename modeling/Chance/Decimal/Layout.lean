import Chance.Decimal

/-!
# Layouts of float text

How the shortest decimal of a double is laid out: where positional notation ends, what follows a
whole number, which way an exact tie goes and how the values that are no numbers are spelled.
-/

namespace Chance

/-- the decisions of one float format -/
structure FloatLayout where
  /-- which of two equally near decimals is written -/
  tie : Decimal.Tie
  /-- positional notation is used while `10 ^ e ≤ |x| < 10 ^ (e + 1)` has `positional e` -/
  positional : Int → Bool
  /-- written after a whole number in positional notation -/
  wholeEnd : List Char
  notANumber : List Char
  infinite : List Char
  negativeInfinite : List Char

namespace FloatLayout

/-- Float text for people: never an exponent, whole numbers without a point. -/
def plain : FloatLayout where
  tie := .upward
  positional := fun _ => true
  wholeEnd := []
  notANumber := "NaN".toList
  infinite := "inf".toList
  negativeInfinite := "-inf".toList

/-- Float text in JSON: a point or an exponent always shows that a number is no integer. -/
def json : FloatLayout where
  tie := .toEven
  positional := fun e => decide (-5 ≤ e ∧ e < 16)
  wholeEnd := ".0".toList
  notANumber := "null".toList
  infinite := "null".toList
  negativeInfinite := "null".toList

/-- digits in positional notation, `point` of them before the point -/
def writePositional (layout : FloatLayout) (ds : List Char) (point : Int) : List Char :=
  if point ≤ 0 then
    '0' :: '.' :: (List.replicate (-point).toNat '0' ++ ds)
  else if ds.length ≤ point.toNat then
    ds ++ List.replicate (point.toNat - ds.length) '0' ++ layout.wholeEnd
  else
    ds.take point.toNat ++ '.' :: ds.drop point.toNat

/-- digits with one of them before the point, and the exponent `e` with its sign -/
def writeExponent (ds : List Char) (e : Int) : List Char :=
  let fraction := match ds.drop 1 with
    | [] => []
    | more => '.' :: more
  ds.take 1 ++ fraction ++ 'e' :: (if e < 0 then '-' else '+') :: Nat.toDigits 10 e.natAbs

def writeDecimal (layout : FloatLayout) (d : Decimal) : List Char :=
  let ds := d.digits
  let e := d.exponent + ds.length - 1
  if layout.positional e then layout.writePositional ds (e + 1) else writeExponent ds e

def signed (sign : Float.Model.UnpackedFloat.Sign) (text : List Char) : List Char :=
  match sign with
  | .positive => text
  | .negative => '-' :: text

/-- a double laid out with the fewest digits that read back -/
def write (layout : FloatLayout) (x : Float) : List Char :=
  match x.toModel.unpack with
  | .notANumber => layout.notANumber
  | .infinity .positive => layout.infinite
  | .infinity .negative => layout.negativeInfinite
  | .zero sign => signed sign ('0' :: layout.wholeEnd)
  | .finite sign mantissa exponent _ =>
    let all := Decimal.ofBinary mantissa exponent
    signed sign (layout.writeDecimal (Decimal.shortest layout.tie x.abs all))

def text (layout : FloatLayout) (x : Float) : String := String.ofList (layout.write x)

end FloatLayout
end Chance
