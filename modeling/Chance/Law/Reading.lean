import Chance.Json.Reader
import Chance.Law

/-!
# Reading laws

A law is an object with its family and the two parameters of the family, other members ignored, or
a list of the three.
-/

namespace Chance
namespace Law

/-- a family as it is written: the names of its parameters and the law they make -/
structure Shape where
  first : String
  second : String
  build : Float → Float → Law

def normalShape : Shape := ⟨"mean", "sd", .normal⟩

def betaShape : Shape := ⟨"a", "b", .beta⟩

open Json.Reader in
def familyName (cs : List Char) : Except Json.Fault (Shape × List Char) :=
  match onlyString cs with
  | .error f => .error f
  | .ok (name, rest) =>
    if name = "normal" then .ok (normalShape, rest)
    else if name = "beta" then .ok (betaShape, rest)
    else .error .misshapen

/-- what has been read of an object: its family, and the other members, the last one first -/
abbrev Partial := Option Shape × List (String × Json)

open Json.Reader in
def memberReading (s : Partial) (key : String) (cs : List Char) :
    Except Json.Fault (Partial × List Char) :=
  if key = "family" then
    if s.1.isSome then .error .misshapen
    else match token ':' cs with
      | .error f => .error f
      | .ok rest =>
        match familyName rest with
        | .error f => .error f
        | .ok (shape, rest) => .ok ((some shape, s.2), rest)
  else
    match memberStep (value .strict (depthLimit - 1)) s.2 key cs with
    | .error f => .error f
    | .ok (members, rest) => .ok ((s.1, members), rest)

/-- the only member of a name, a number -/
def onlyNumber? (name : String) (members : List (String × Json)) : Option Float :=
  match members.filter fun m => m.1 == name with
  | [(_, .number n)] => some n.toFloat
  | _ => none

def ofMembers (s : Partial) : Except Json.Fault Law :=
  match s.1 with
  | none => .error .misshapen
  | some shape =>
    match onlyNumber? shape.first s.2, onlyNumber? shape.second s.2 with
    | some x, some y => .ok (shape.build x y)
    | _, _ => .error .misshapen

def ofItems (shape : Shape) : List Json → Except Json.Fault Law
  | [.number x, .number y] => .ok (shape.build x.toFloat y.toFloat)
  | _ => .error .misshapen

open Json.Reader in
/-- the items after the family, the last one first -/
def itemsAfter (cs : List Char) : Except Json.Fault (List Json × List Char) :=
  match skipBlank cs with
  | [] => .error .truncated
  | ']' :: rest => .ok ([], rest)
  | ',' :: rest => listItems (itemStep (value .strict (depthLimit - 1))) rest [] rest
  | _ => .error .malformed

open Json.Reader in
def listForm (cs : List Char) : Except Json.Fault (Law × List Char) :=
  match skipBlank cs with
  | [] => .error .truncated
  | ']' :: _ => .error .misshapen
  | rest =>
    match familyName rest with
    | .error f => .error f
    | .ok (shape, rest) =>
      match itemsAfter rest with
      | .error f => .error f
      | .ok (items, rest) =>
        match ofItems shape items.reverse with
        | .error f => .error f
        | .ok law => .ok (law, rest)

open Json.Reader in
def reading (cs : List Char) : Except Json.Fault (Law × List Char) :=
  match skipBlank cs with
  | '[' :: rest => listForm rest
  | '{' :: rest =>
    match object .strict memberReading (none, []) rest with
    | .error f => .error f
    | .ok (s, rest) =>
      match ofMembers s with
      | .error f => .error f
      | .ok law => .ok (law, rest)
  | rest => .error (wrongShape rest)

def read (text : String) : Except Json.Fault Law := Json.Reader.whole reading text

end Law
end Chance
