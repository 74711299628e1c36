import Chance.Json.Reader
import Chance.Operation

/-!
# Reading operations

Standing alone, an operation is its name as a string, or an object whose only key is the name and
whose value is `null`.
-/

namespace Chance
namespace Operation

/-- the operation of a name that has to be one -/
def named (name : String) : Except Json.Fault Operation :=
  match ofName? name with
  | some op => .ok op
  | none => .error .misshapen

open Json.Reader in
/-- the rest of the object form, after its opening brace -/
def objectForm (cs : List Char) : Except Json.Fault (Operation × List Char) :=
  match memberKey .strict cs with
  | .error f => .error f
  | .ok (name, rest) =>
    match named name with
    | .error f => .error f
    | .ok op =>
      match token ':' rest with
      | .error f => .error f
      | .ok rest =>
        match onlyNull rest with
        | .error f => .error f
        | .ok (_, rest) =>
          match token '}' rest with
          | .error f => .error f
          | .ok rest => .ok (op, rest)

open Json.Reader in
def reading (cs : List Char) : Except Json.Fault (Operation × List Char) :=
  match skipBlank cs with
  | [] => .error .truncated
  | '"' :: rest =>
    match stringRest .strict rest with
    | .error f => .error f
    | .ok (name, rest) =>
      match named name with
      | .error f => .error f
      | .ok op => .ok (op, rest)
  | '{' :: rest => objectForm rest
  | _ => .error .malformed

def read (text : String) : Except Json.Fault Operation := Json.Reader.whole reading text

end Operation
end Chance
