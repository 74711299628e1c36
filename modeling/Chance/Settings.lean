import Chance.Json.Reader
import Chance.Json.Writer

/-!
# Settings of an evaluation

The seed of the random source, or none.  Settings are an object with an optional `seed`, members of
other keys passed over, or a list of at most the seed.
-/

namespace Chance

structure Settings where
  /-- without a seed the random source is seeded from outside -/
  seed : Option UInt64
deriving DecidableEq, Repr

namespace Settings

def default : Settings := ⟨none⟩

open Json.Reader in
/-- a seed: `null` or an integer of 64 bits without sign -/
def seedValue (cs : List Char) : Except Json.Fault (Option UInt64 × List Char) :=
  match scalar cs with
  | .error f => .error f
  | .ok (.null, rest) => .ok (none, rest)
  | .ok (.number (.integer n), rest) =>
    if 0 ≤ n ∧ n < UInt64.size then .ok (some n.toNat.toUInt64, rest) else .error .misshapen
  | .ok _ => .error .misshapen

open Json.Reader in
/-- one member; the state is the seed if there was one, which must not come again -/
def memberReading (seen : Option (Option UInt64)) (key : String) (cs : List Char) :
    Except Json.Fault (Option (Option UInt64) × List Char) :=
  if key = "seed" then
    if seen.isSome then .error .misshapen
    else match token ':' cs with
      | .error f => .error f
      | .ok rest =>
        match seedValue rest with
        | .error f => .error f
        | .ok (seed, rest) => .ok (some seed, rest)
  else
    match token ':' cs with
    | .error f => .error f
    | .ok rest =>
      match skimmed rest with
      | .error f => .error f
      | .ok (_, rest) => .ok (seen, rest)

open Json.Reader in
def listForm (cs : List Char) : Except Json.Fault (Settings × List Char) :=
  match skipBlank cs with
  | [] => .error .truncated
  | ']' :: rest => .ok (default, rest)
  | rest =>
    match seedValue rest with
    | .error f => .error f
    | .ok (seed, rest) =>
      match token ']' rest with
      | .error f => .error f
      | .ok rest => .ok (⟨seed⟩, rest)

open Json.Reader in
def reading (cs : List Char) : Except Json.Fault (Settings × List Char) :=
  match skipBlank cs with
  | '[' :: rest => listForm rest
  | '{' :: rest =>
    match object .strict memberReading none rest with
    | .error f => .error f
    | .ok (seed, rest) => .ok (⟨seed.getD none⟩, rest)
  | rest => .error (wrongShape rest)

def read (text : String) : Except Json.Fault Settings := Json.Reader.whole reading text

/-- the settings as an object -/
def toJson (s : Settings) : Json :=
  .object [("seed", match s.seed with
    | none => .null
    | some n => .number (.integer n.toNat))]

end Settings
end Chance
