import Chance.Law

/-!
# Continuous samples

A continuous sample is never enumerated: it is a law with an offset `a` and a scale `b`, and its
cumulative probability at `n` is the law's at `n * b + a`.
-/

namespace Chance

/-- a law with an offset and a scale -/
structure Affine where
  law : Law
  offset : Float
  scale : Float
deriving DecidableEq

namespace Affine

def ofLaw (law : Law) : Affine := ⟨law, 0.0, 1.0⟩

def shift (s : Affine) (n : Float) : Affine := { s with offset := s.offset + n }

def stretch (s : Affine) (n : Float) : Affine := { s with scale := s.scale * n }

/-- Arithmetic with a number, on whichever side it stands: subtraction adds the opposite, division
multiplies by the reciprocal. -/
def arith (op : Arith) (x : Float) (s : Affine) : Affine :=
  match op with
  | .add => s.shift x
  | .subtract => s.shift (-x)
  | .multiply => s.stretch x
  | .divide => s.stretch (1.0 / x)

/-- the point of the law at which the sample is asked when it is asked at `n` -/
def point (s : Affine) (n : Float) : Float := n * s.scale + s.offset

def cumulative? (F : Cumulative) (s : Affine) (n : Float) : Option Float := F s.law (s.point n)

def same (s t : Affine) : Bool :=
  s.law.same t.law && s.offset == t.offset && s.scale == t.scale

def text (s : Affine) : String :=
  "\x7b" ++ s.law.text ++ " " ++ FloatLayout.plain.text s.offset ++ " + "
    ++ FloatLayout.plain.text s.scale ++ "x\x7d"

end Affine

/-! ## Comparison with a mass function -/

namespace Pmf

variable {M : Type} [Mass M]

def below? (F : Cumulative) (x : Affine) (n : Float) : Option (Pmf Bool M) :=
  (x.cumulative? F n).map fun p => trial (Mass.ofFloat p)

/-- the share of one recorded double in a comparison, or the point at which the law has no
cumulative probability -/
def belowEntry (F : Cumulative) (x : Affine) (e : Double × M) : Except Float (List (Bool × M)) :=
  match @below? M _ F x e.1.toFloat with
  | none => .error (x.point e.1.toFloat)
  | some c => .ok (c.entries.map fun f => (f.1, Mass.mul e.2 f.2))

theorem belowEntry_of_some {F : Cumulative} {x : Affine} {e : Double × M} {p : Float}
    (h : x.cumulative? F e.1.toFloat = some p) :
    belowEntry F x e = .ok
      [(true, Mass.mul e.2 (Mass.add Mass.zero (Mass.ofFloat p))),
        (false, Mass.mul e.2 (Mass.add Mass.zero (Mass.complement (Mass.ofFloat p))))] := by
  unfold belowEntry below?
  rw [h]
  rfl

theorem belowEntry_of_none {F : Cumulative} {x : Affine} {e : Double × M}
    (h : x.cumulative? F e.1.toFloat = none) :
    belowEntry F x e = .error (x.point e.1.toFloat) := by
  unfold belowEntry below?
  rw [h]
  rfl

/-- the mass on which a continuous sample lies below a double that is itself recorded with masses -/
def below (F : Cumulative) (x : Affine) (s : Pmf Double M) : Except Float (Pmf Bool M) :=
  (s.entries.mapM (belowEntry F x)).map fun shares => ofList shares.flatten

/-- The mass on which it lies above: no single point has mass, so this is the complement. -/
def above (F : Cumulative) (x : Affine) (s : Pmf Double M) : Except Float (Pmf Bool M) :=
  (below F x s).map not

end Pmf
end Chance
