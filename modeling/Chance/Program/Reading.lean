import Chance.Json.Reader
import Chance.Program

/-!
# Reading programs

A text is read as JSON first; `ofJson?` says which program the value denotes.  An object with
exactly one `const` is a constant, whatever else it holds; another one with exactly one `op` and at
most one `args` is a call; nothing else is a program.
-/

namespace Chance
namespace Program

/-- the only member of a key, if there is exactly one -/
def only? {α : Type} (key : String) (members : List (String × α)) : Option α :=
  match members.filter fun m => m.1 == key with
  | [m] => some m.2
  | _ => none

def lacks {α : Type} (key : String) (members : List (String × α)) : Bool :=
  members.all fun m => m.1 != key

/-- the operation that a value names: its name, or an object with the name for its only key and
`null` for the value -/
def operation? : Json → Option Operation
  | .string name => Operation.ofName? name
  | .object [(name, .null)] => Operation.ofName? name
  | _ => none

/-- the call of an object, given its members and the operands that each of them denotes -/
def call? (members : List (String × Json)) (operands : List (String × Option (List Program))) :
    Option Program :=
  match (only? "op" members).bind operation? with
  | none => none
  | some op =>
    if lacks "args" operands then some (.call op [])
    else match only? "args" operands with
      | some (some args) => some (.call op args)
      | _ => none

mutual

/-- the program that a value denotes -/
def ofJson? : Json → Option Program
  | .object members =>
    match only? "const" members with
    | some v => some (.const v.plain)
    | none => call? members (operands members)
  | _ => none

/-- the programs that the items of a list denote, if all do -/
def ofItems? : List Json → Option (List Program)
  | [] => some []
  | v :: vs =>
    match ofJson? v, ofItems? vs with
    | some a, some as => some (a :: as)
    | _, _ => none

/-- the operands that a member denotes: those of a list -/
def ofOperands? : Json → Option (List Program)
  | .array items => ofItems? items
  | _ => none

def operands : List (String × Json) → List (String × Option (List Program))
  | [] => []
  | (k, v) :: rest => (k, ofOperands? v) :: operands rest

end

def reading (cs : List Char) : Except Json.Fault (Program × List Char) :=
  match Json.Reader.value .strict Json.Reader.depthLimit cs with
  | .error f => .error f
  | .ok (v, rest) =>
    match ofJson? v with
    | some p => .ok (p, rest)
    | none => .error .misshapen

def read (text : String) : Except Json.Fault Program := Json.Reader.whole reading text

def write (p : Program) : String := p.toJson.compact

end Program
end Chance
