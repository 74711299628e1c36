import Chance.CommandLine

/-!
# The directory of a call

Paths are followed step by step through a directory that holds the files of a call: each step but
the last has to end at a directory, empty steps and `.` stay where they are and `..` goes back.  A
path that ends in a slash names a directory.  Outside the directory there are only a few devices.
`Directory.files` is what a call sees of a directory, `Directory.after` what it leaves behind.
-/

namespace Chance
namespace CommandLine

/-- the files in and below a directory: the names that lead to a file, and its text -/
structure Directory where
  entries : List (List String × String)
deriving DecidableEq, Repr

/-- what stands outside the directory -/
inductive Device where
  /-- holds nothing and keeps nothing -/
  | null
  /-- the output of the call -/
  | output
  /-- the error output of the call -/
  | diagnostics
deriving DecidableEq, Repr

/-- where a path leads -/
inductive Place where
  /-- a place for a file, with or without one -/
  | entry (names : List String)
  | directory
  | device (d : Device)
  | nowhere
deriving DecidableEq, Repr

/-! ## Paths -/

/-- the steps of a path that lead somewhere else -/
def pathSteps (path : String) : List String :=
  (path.splitOn "/").filter fun step => step != "" && step != "."

def namesDirectory (path : String) : Bool :=
  path.endsWith "/" || path.endsWith "/."

def nameLimit : Nat := 255

def deviceOf : List String → Place
  | ["dev", "null"] => .device .null
  | ["dev", "stdout"] => .device .output
  | ["dev", "stderr"] => .device .diagnostics
  | _ => .nowhere

namespace Directory

def isDirectory (d : Directory) (names : List String) : Bool :=
  names.isEmpty || d.entries.any fun e => names.isPrefixOf e.1 && names != e.1

/-- The names at which steps end that start at a directory; none if they go through something that
is no directory, or out of the directory. -/
def walk (d : Directory) : List String → List String → Option (List String)
  | here, [] => some here
  | here, step :: rest =>
    if !d.isDirectory here then none
    else if step != ".." then d.walk (here ++ [step]) rest
    else if here.isEmpty then none
    else d.walk here.dropLast rest

def place (d : Directory) (path : String) : Place :=
  if path.startsWith "/" then
    if namesDirectory path then .nowhere else deviceOf (pathSteps path)
  else
    match d.walk [] (pathSteps path) with
    | none => .nowhere
    | some names =>
      if d.isDirectory names then .directory
      else if namesDirectory path || names.any (nameLimit < ·.utf8ByteSize) then .nowhere
      else .entry names

/-! ## Calls -/

def content (d : Directory) : Place → Except FileFault String
  | .entry names =>
    match d.entries.lookup names with
    | some text => .ok text
    | none => .error .missing
  | .directory => .error (.other "Is a directory (os error 21)")
  | .device .null => .ok ""
  | .device _ | .nowhere => .error .missing

def isWritable : Place → Bool
  | .entry _ | .device _ => true
  | .directory | .nowhere => false

/-- what a call sees of the directory -/
def files (d : Directory) : Files where
  content path := d.content (d.place path)
  writable path := isWritable (d.place path)

/-- the output of a call, and the files that it creates or changes -/
def after (d : Directory) (report : Report) : String × List (List String × String) :=
  match report.written with
  | none => (report.output, [])
  | some (path, text) =>
    match d.place path with
    | .entry names =>
      (report.output, if d.entries.lookup names = some text then [] else [(names, text)])
    | .device .output => (report.output ++ text, [])
    | _ => (report.output, [])

/-- a call that writes no file leaves the directory as it is -/
theorem after_unwritten (d : Directory) {report : Report} (h : report.written = none) :
    d.after report = (report.output, []) := by simp only [after, h]

end Directory
end CommandLine
end Chance
