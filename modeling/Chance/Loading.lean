import Chance.Program.Reading
import Chance.Settings

/-!
# Loading files

What stands in a file becomes settings or a program, or a fault of the file or of its text.
-/

namespace Chance

inductive FileFault where
  | missing
  | notUtf8
  /-- what the system says -/
  | other (description : String)
deriving DecidableEq, Repr

def FileFault.message : FileFault → String
  | .missing => "No such file or directory (os error 2)"
  | .notUtf8 => "stream did not contain valid UTF-8"
  | .other description => description

inductive LoadFault where
  | file (f : FileFault)
  | json (f : Json.Fault)
deriving DecidableEq, Repr

def LoadFault.message : LoadFault → String
  | .file f => "I/O error: " ++ f.message
  | .json .truncated => "JSON error: the text ends inside a value"
  | .json .malformed => "JSON error: the text is malformed"
  | .json .misshapen => "JSON error: the value has an unexpected shape"

def textOf (bytes : ByteArray) : Except FileFault String :=
  match String.fromUTF8? bytes with
  | some text => .ok text
  | none => .error .notUtf8

def load {α : Type} (read : String → Except Json.Fault α) (content : Except FileFault String) :
    Except LoadFault α :=
  match content with
  | .error f => .error (.file f)
  | .ok text =>
    match read text with
    | .error f => .error (.json f)
    | .ok a => .ok a

end Chance
