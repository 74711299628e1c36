import Chance.Pmf

/-!
# Mass functions as text

Outcomes with their masses in percent, cut to a whole number: `{true 25%; false 75%}`.
-/

namespace Chance

/-- The integer part of a double, kept within 64 bits; zero if it is no number. -/
def wholePart (x : Float) : Int :=
  let largest : Int := 0x7fffffffffffffff
  match x.toModel.unpack with
  | .notANumber | .zero _ => 0
  | .infinity .positive => largest
  | .infinity .negative => -largest - 1
  | .finite sign mantissa exponent _ =>
    let magnitude : Nat :=
      if 0 ≤ exponent then mantissa <<< exponent.toNat else mantissa >>> (-exponent).toNat
    match sign with
    | .positive => min (magnitude : Int) largest
    | .negative => max (-magnitude) (-largest - 1)

def percentText (p : Float) : String := intText (wholePart (p * 100.0)) ++ "%"

namespace Pmf

variable {α : Type} [Outcome α]

def entryText (e : α × Float) : String := Outcome.text e.1 ++ " " ++ percentText e.2

/-- the entries in order, in braces -/
def text (s : Pmf α Float) : String :=
  "\x7b" ++ String.intercalate "; " (s.entries.map entryText) ++ "\x7d"

end Pmf
end Chance
