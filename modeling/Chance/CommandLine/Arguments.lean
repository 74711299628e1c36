/-!
# Arguments of the command line

Flags stand before or after the command `run`; a flag with a value takes it attached or from the
next argument, and no flag may come twice on one side of the command.  `Request.parse` reads the
arguments in order and stops at the first one that is wrong or that asks for help or the version.
-/

namespace Chance
namespace CommandLine

inductive Flag where
  | logLevel
  | input
  | config
  | seed
  | json
  | output
  | help
  | version
deriving DecidableEq, Repr

namespace Flag

def long : Flag → String
  | .logLevel => "log-level"
  | .input => "input"
  | .config => "config"
  | .seed => "seed"
  | .json => "json"
  | .output => "output"
  | .help => "help"
  | .version => "version"

def short? : Flag → Option Char
  | .input => some 'i'
  | .output => some 'o'
  | .help => some 'h'
  | .version => some 'V'
  | _ => none

def takesValue : Flag → Bool
  | .json | .help | .version => false
  | _ => true

end Flag

/-- which side of the command an argument stands on -/
inductive Side where
  | before
  | after
deriving DecidableEq, Repr

def Side.flags : Side → List Flag
  | .before => [.logLevel, .help, .version]
  | .after => [.input, .config, .seed, .json, .output, .logLevel, .help]

inductive UsageFault where
  | unexpected (argument : String)
  | unknownCommand (argument : String)
  | missingValue (flag : Flag)
  | unwantedValue (flag : Flag)
  | badValue (flag : Flag) (value : String)
  | repeated (flag : Flag)
  | missingInput
  | missingCommand
deriving DecidableEq, Repr

def UsageFault.message : UsageFault → String
  | .unexpected argument => "unexpected argument '" ++ argument ++ "' found"
  | .unknownCommand argument => "unrecognized subcommand '" ++ argument ++ "'"
  | .missingValue flag => "a value is required for '--" ++ flag.long ++ "' but none was supplied"
  | .unwantedValue flag => "unexpected value for '--" ++ flag.long ++ "' found; no more were expected"
  | .badValue flag value => "invalid value '" ++ value ++ "' for '--" ++ flag.long ++ "'"
  | .repeated flag => "the argument '--" ++ flag.long ++ "' cannot be used multiple times"
  | .missingInput => "the following required arguments were not provided: --input <INPUT>"
  | .missingCommand => "a subcommand is required but one was not provided"

/-! ## Values -/

/-- a natural number, a plus sign allowed -/
def natural? (text : String) : Option Nat :=
  let digits := match text.toList with
    | '+' :: rest => rest
    | cs => cs
  if digits.isEmpty || !digits.all Char.isDigit then none
  else some (Nat.ofDigitChars 10 digits 0)

def seed? (text : String) : Option UInt64 :=
  (natural? text).bind fun n => if n < UInt64.size then some n.toUInt64 else none

/-- is the text a log level: a name in any case, or a number from one to five? -/
def isLogLevel (text : String) : Bool :=
  ["trace", "debug", "info", "warn", "error"].contains (String.ofList (text.toList.map Char.toLower))
    || (natural? text).any fun n => 1 ≤ n && n ≤ 5

/-- does a flag take this value? -/
def Flag.accepts (flag : Flag) (value : String) : Bool :=
  match flag with
  | .logLevel => isLogLevel value
  | .input | .config | .output => !value.isEmpty
  | .seed => (seed? value).isSome
  | .json | .help | .version => true

/-! ## Occurrences of flags -/

abbrev Found := List (Flag × String)

def Found.value? (found : Found) (flag : Flag) : Option String :=
  (found.find? fun e => e.1 == flag).map Prod.snd

def Found.record (found : Found) (flag : Flag) (value : String) : Except UsageFault Found :=
  if (found.value? flag).isSome then .error (.repeated flag)
  else if flag.accepts value then .ok (found ++ [(flag, value)])
  else .error (.badValue flag value)

/-- can an argument be the value of the flag before it? -/
def isValue (argument : String) : Bool :=
  match argument.toList with
  | '-' :: _ :: _ => false
  | _ => true

/-- what one argument does -/
inductive Step where
  /-- a flag with its value, if it has one -/
  | flag (flag : Flag) (value : String)
  /-- a flag whose value is the next argument -/
  | pending (flag : Flag)
  /-- no flag: a command or something that has no place -/
  | word (argument : String)
  /-- nothing after it is a flag -/
  | last

/-- a flag with what was attached to it -/
def attach (flag : Flag) (attached : Option String) : Except UsageFault Step :=
  match flag.takesValue, attached with
  | true, some value => .ok (.flag flag value)
  | true, none => .ok (.pending flag)
  | false, none => .ok (.flag flag "")
  | false, some _ => .error (.unwantedValue flag)

/-- a long flag, after its two dashes -/
def longStep (side : Side) (argument : String) (cs : List Char) : Except UsageFault Step :=
  let name := String.ofList (cs.takeWhile (· != '='))
  let attached := match cs.dropWhile (· != '=') with
    | _ :: value => some (String.ofList value)
    | [] => none
  match side.flags.find? fun flag => flag.long == name with
  | some flag => attach flag attached
  | none => .error (.unexpected argument)

/-- a short flag, after its dash; what follows it in the argument is its value -/
def shortStep (side : Side) (argument : String) (c : Char) (cs : List Char) :
    Except UsageFault Step :=
  match side.flags.find? fun flag => flag.short? == some c with
  | none => .error (.unexpected argument)
  | some flag =>
    if !flag.takesValue then .ok (.flag flag "")
    else match cs with
      | [] => .ok (.pending flag)
      | '=' :: value => .ok (.flag flag (String.ofList value))
      | value => .ok (.flag flag (String.ofList value))

def step (side : Side) (argument : String) : Except UsageFault Step :=
  match argument.toList with
  | ['-', '-'] => .ok .last
  | '-' :: '-' :: cs => longStep side argument cs
  | '-' :: c :: cs => shortStep side argument c cs
  | _ => .ok (.word argument)

/-- how the arguments of a side end -/
inductive Stop where
  /-- no argument is left -/
  | finished (found : Found)
  /-- a word that is no flag, and the arguments after it -/
  | word (found : Found) (argument : String) (rest : List String)
  | help
  | version

/-- the flags of a side, up to the first word -/
def scan (side : Side) : Found → List String → Except UsageFault Stop
  | found, [] => .ok (.finished found)
  | found, argument :: rest =>
    match step side argument with
    | .error f => .error f
    | .ok .last =>
      match rest with
      | [] => .ok (.finished found)
      | next :: _ => .error (.unexpected next)
    | .ok (.word argument) => .ok (.word found argument rest)
    | .ok (.flag .help _) => .ok .help
    | .ok (.flag .version _) => .ok .version
    | .ok (.flag flag value) =>
      match found.record flag value with
      | .error f => .error f
      | .ok found => scan side found rest
    | .ok (.pending flag) =>
      match rest with
      | [] => .error (.missingValue flag)
      | value :: rest =>
        if !isValue value then .error (.missingValue flag)
        else match found.record flag value with
          | .error f => .error f
          | .ok found => scan side found rest

/-! ## Requests -/

structure Invocation where
  /-- the file of the program -/
  input : String
  /-- the file of the settings -/
  config : Option String
  /-- a seed that takes the place of the one in the settings -/
  seed : Option UInt64
  /-- a summary is asked for -/
  json : Bool
  /-- the file that takes the result -/
  output : Option String
deriving DecidableEq, Repr

/-- what the arguments ask for -/
inductive Request where
  | run (invocation : Invocation)
  | version
  | help
  | helpRun
deriving DecidableEq, Repr

def Invocation.ofFound (found : Found) : Except UsageFault Invocation :=
  match found.value? .input with
  | none => .error .missingInput
  | some input => .ok
    { input := input
      config := found.value? .config
      seed := (found.value? .seed).bind seed?
      json := (found.value? .json).isSome
      output := found.value? .output }

def parseRun (arguments : List String) : Except UsageFault Request :=
  match scan .after [] arguments with
  | .error f => .error f
  | .ok (.word _ argument _) => .error (.unexpected argument)
  | .ok .help => .ok .helpRun
  | .ok .version => .ok .version
  | .ok (.finished found) =>
    match Invocation.ofFound found with
    | .error f => .error f
    | .ok invocation => .ok (.run invocation)

def parseHelp : List String → Except UsageFault Request
  | [] | ["help"] => .ok .help
  | ["run"] => .ok .helpRun
  | "run" :: argument :: _ | "help" :: argument :: _ | argument :: _ =>
    .error (.unknownCommand argument)

/-- what the arguments ask for -/
def Request.parse (arguments : List String) : Except UsageFault Request :=
  match scan .before [] arguments with
  | .error f => .error f
  | .ok (.finished _) => .error .missingCommand
  | .ok .help => .ok .help
  | .ok .version => .ok .version
  | .ok (.word _ "run" rest) => parseRun rest
  | .ok (.word _ "help" rest) => parseHelp rest
  | .ok (.word _ argument _) => .error (.unknownCommand argument)

end CommandLine
end Chance
