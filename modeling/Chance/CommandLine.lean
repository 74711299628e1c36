import Chance.CommandLine.Arguments
import Chance.Law.Cumulative
import Chance.Loading
import Chance.Program.Evaluation
import Chance.Random.ChaCha
import Chance.Value.Text

/-!
# The command line

`call` says what a call does: with which status it ends, what it writes to its two outputs, and
which file it changes.  The settings are loaded before the program, and nothing is evaluated before
both are there.
-/

namespace Chance
namespace CommandLine

/-- what a call does -/
structure Report where
  status : UInt32
  output : String
  /-- the lines of the error output -/
  diagnostics : List String
  /-- the file that changes, with its new text -/
  written : Option (String × String)
deriving DecidableEq, Repr

/-- the files of a call -/
structure Files where
  /-- what stands in a file -/
  content : String → Except FileFault String
  /-- can the file be written? -/
  writable : String → Bool

def versionLine : String := "ei 0.1.0"

def helpLines : List String :=
  ["Run probabilistic programs with exact discrete inference",
    "",
    "Usage: ei [OPTIONS] <COMMAND>",
    "",
    "Commands:",
    "  run   Evaluate a program and print its result",
    "  help  Print this message or the help of the given subcommand(s)",
    "",
    "Options:",
    "      --log-level <LOG_LEVEL>  Log verbosity level (trace, debug, info, warn, error) [default: warn]",
    "  -h, --help                   Print help",
    "  -V, --version                Print version"]

def helpRunLines : List String :=
  ["Evaluate a program and print its result",
    "",
    "Usage: ei run [OPTIONS] --input <INPUT>",
    "",
    "Options:",
    "  -i, --input <INPUT>          Program as a JSON expression tree (see demos/)",
    "      --log-level <LOG_LEVEL>  Log verbosity level (trace, debug, info, warn, error) [default: warn]",
    "      --config <CONFIG>        Evaluation settings (JSON, e.g. \x7b\"seed\": 42\x7d)",
    "      --seed <SEED>            RNG seed for observations. Overrides the config file",
    "      --json                   Print the result as pretty JSON instead of text",
    "  -o, --output <OUTPUT>        Output file for the result. Defaults to stdout",
    "  -h, --help                   Print help"]

def linesText (lines : List String) : String := String.join (lines.map (· ++ "\n"))

namespace Report

def printed (text : String) : Report := ⟨0, text, [], none⟩

/-- a status and a line on the error output -/
def failed (status : UInt32) (line : String) : Report := ⟨status, "", [line], none⟩

end Report

def usageStatus : UInt32 := 2

def rejectedStatus : UInt32 := 2

def failureStatus : UInt32 := 1

/-- the status of a run that asks for a cumulative probability where there is none -/
def undefinedStatus : UInt32 := 101

def loadFailure (f : LoadFault) : Report := .failed failureStatus ("Error: " ++ f.message)

def resultText (json : Bool) (v : Value Float) : String :=
  (if json then v.summaryText else v.text) ++ "\n"

/-- the result of a run is printed, or put into the file that was named -/
def deliver (files : Files) (output : Option String) (text : String) : Report :=
  match output with
  | none => .printed text
  | some path =>
    if files.writable path then ⟨0, "", [], some (path, text)⟩
    else .failed failureStatus ("Error: cannot write " ++ path)

def conclude (files : Files) (invocation : Invocation) : Ending Float → Report
  | .value v => deliver files invocation.output (resultText invocation.json v)
  | .rejected =>
    .failed rejectedStatus ("Runtime error: " ++ (Fault.observationFailed : Fault Float).message)
  | .fault (.noCumulative law x) =>
    .failed undefinedStatus (Fault.noCumulative law x : Fault Float).message
  | .fault f => .failed failureStatus ("Runtime error: " ++ f.message)

/-- the settings of a run: those of its file, with the seed of the arguments in place of theirs -/
def Invocation.settings (invocation : Invocation) (files : Files) : Except LoadFault Settings :=
  match invocation.config with
  | none => .ok ⟨invocation.seed⟩
  | some path => (load Settings.read (files.content path)).map fun s => ⟨invocation.seed.or s.seed⟩

/-- the ending of a program, on the source of the seed or, where there is none, on a fresh one -/
def outcome {σ : Type} [Source σ] (F : Cumulative) (program : Program) (seed : Option UInt64)
    (fresh : σ) : Ending Float :=
  match seed with
  | some n => (program.run F (ChaCha.seeded n)).1
  | none => (program.run F fresh).1

/-- a run of a program -/
def Invocation.run {σ : Type} [Source σ] (F : Cumulative) (invocation : Invocation) (files : Files)
    (fresh : σ) : Report :=
  match invocation.settings files with
  | .error f => loadFailure f
  | .ok settings =>
    match load Program.read (files.content invocation.input) with
    | .error f => loadFailure f
    | .ok program => conclude files invocation (outcome F program settings.seed fresh)

/-- what a call with these arguments does; `fresh` is the random source where nothing seeds one -/
def call {σ : Type} [Source σ] (F : Cumulative) (arguments : List String) (files : Files)
    (fresh : σ) : Report :=
  match Request.parse arguments with
  | .error f => .failed usageStatus ("error: " ++ f.message)
  | .ok .version => .printed (versionLine ++ "\n")
  | .ok .help => .printed (linesText helpLines)
  | .ok .helpRun => .printed (linesText helpRunLines)
  | .ok (.run invocation) => invocation.run F files fresh

/-- a call whose fresh source is the one of a seed -/
def respond (F : Cumulative) (arguments : List String) (files : Files) (entropy : UInt64) : Report :=
  call F arguments files (ChaCha.seeded entropy)

end CommandLine
end Chance
