import Chance.Pmf

/-!
# Weighted selection

`pick u` walks the entries in order, adds up the masses and returns the first outcome at which the
running total reaches the draw `u`.  Entries without positive mass are passed over.
-/

namespace Chance
namespace Pmf

variable {α M : Type} [Outcome α] [Mass M]

/-- the walk, from a running total; without a hit, the total over all entries -/
def pickFrom (u : Float) : M → List (α × M) → Except M α
  | t, [] => .error t
  | t, (v, p) :: rest =>
    if Mass.nonpositive p then pickFrom u t rest
    else if Mass.le (Mass.ofFloat u) (Mass.add t p) then .ok v
    else pickFrom u (Mass.add t p) rest

/-- the outcome that a draw selects, or the total mass if the draw lies beyond it -/
def pick (s : Pmf α M) (u : Float) : Except M α := pickFrom u Mass.zero s.entries

end Pmf
end Chance
