/-!
# Random sources

Evaluation is handed a source of uniform draws and hands it back; nothing else is random.
-/

namespace Chance

/-- a source of doubles drawn uniformly from the unit interval -/
class Source (σ : Type) where
  /-- a draw and the source after it -/
  next : σ → Float × σ

/-- the first `n` draws of a source -/
def Source.draws {σ : Type} [Source σ] : Nat → σ → List Float
  | 0, _ => []
  | n + 1, s => (next s).1 :: draws n (next s).2

theorem Source.length_draws {σ : Type} [Source σ] (n : Nat) (s : σ) :
    (Source.draws n s).length = n := by
  induction n generalizing s with
  | zero => rfl
  | succ n ih => simp [draws, ih]

/-- The double `k * 2 ^ -53` of a number `k` of 53 bits. -/
def uniformDouble (k : UInt64) : Float := k.toFloat * 1.1102230246251565e-16

/-- a source that gives the draws of a sequence, from a position on -/
structure Sequence where
  draw : Nat → Float
  position : Nat

instance : Source Sequence where
  next s := (s.draw s.position, { s with position := s.position + 1 })

end Chance
