import Chance.CommandLine.Arguments
import Mathlib.Data.List.Nodup
import Mathlib.Data.List.TakeWhile

/-!
# Which arguments run a program

The arguments of a run as a relation, stated by the flags that occur in them and not by the steps
of the parser: flags stand in any order, none of them twice, with their values attached to them or
in the next argument, and what they say is the run that is asked for.

* `Occurrence`         the arguments of one flag;
* `NumberArgument`, `LevelArgument`, `Flag.Admits`   the values of flags;
* `Occurrences`        the arguments of some flags;
* `Invocation.AskedBy`   the run that flags with values ask for;
* `RunArguments`       the arguments of a run;
* `Does`, `Scanned`    what the parser makes of one argument, and of a side;
* `parse_eq_run_iff`   the parser takes these for that run, and no others.
-/

namespace Chance
namespace CommandLine

/-! ## What arguments ask for -/

/-- an argument that can be a value of its own: a dash stands at its front only alone -/
def Detached (value : String) : Prop := ∀ c cs, value.toList ≠ '-' :: c :: cs

/-- the arguments in which a flag occurs with a value; a flag that takes none has the empty one -/
inductive Occurrence (flag : Flag) : String → List String → Prop
  | long {value : String} (takes : flag.takesValue = true) :
      Occurrence flag value ["--" ++ flag.long ++ "=" ++ value]
  | longNext {value : String} (takes : flag.takesValue = true) (detached : Detached value) :
      Occurrence flag value ["--" ++ flag.long, value]
  | short {c d : Char} {cs : List Char} (takes : flag.takesValue = true)
      (named : flag.short? = some c) (other : d ≠ '=') :
      Occurrence flag (String.ofList (d :: cs)) [String.ofList ('-' :: c :: d :: cs)]
  | shortEquals {c : Char} {cs : List Char} (takes : flag.takesValue = true)
      (named : flag.short? = some c) :
      Occurrence flag (String.ofList cs) [String.ofList ('-' :: c :: '=' :: cs)]
  | shortNext {c : Char} {value : String} (takes : flag.takesValue = true)
      (named : flag.short? = some c) (detached : Detached value) :
      Occurrence flag value [String.ofList ['-', c], value]
  | switch (bare : flag.takesValue = false) : Occurrence flag "" ["--" ++ flag.long]

/-- the digits of a number, behind a plus sign or without one -/
def NumberArgument (n : Nat) (value : String) : Prop :=
  ∃ ds : List Char, ds ≠ [] ∧ (∀ c ∈ ds, c.isDigit = true) ∧ Nat.ofDigitChars 10 ds 0 = n ∧
    (value = String.ofList ds ∨ value = String.ofList ('+' :: ds))

/-- the name of a level in any case, or its number -/
def LevelArgument (value : String) : Prop :=
  (∃ level ∈ ["trace", "debug", "info", "warn", "error"],
    value.toList.map Char.toLower = level.toList) ∨ ∃ n, NumberArgument n value ∧ 1 ≤ n ∧ n ≤ 5

/-- the values that a flag can have -/
def Flag.Admits (flag : Flag) (value : String) : Prop :=
  match flag with
  | .logLevel => LevelArgument value
  | .input | .config | .output => value ≠ ""
  | .seed => ∃ n : UInt64, NumberArgument n.toNat value
  | .json | .help | .version => True

/-- help and the version take the place of a run -/
def Flag.Running (flag : Flag) : Prop := flag ≠ .help ∧ flag ≠ .version

/-- the arguments of flags, each with a value that it can have -/
inductive Occurrences (side : Side) : Found → List String → Prop
  | none : Occurrences side [] []
  | more {flag : Flag} {value : String} {found : Found} {words arguments : List String}
      (here : flag ∈ side.flags) (running : flag.Running)
      (h : Occurrence flag value words) (admitted : flag.Admits value)
      (hs : Occurrences side found arguments) :
      Occurrences side ((flag, value) :: found) (words ++ arguments)

/-- the run that flags with these values ask for -/
structure Invocation.AskedBy (invocation : Invocation) (found : Found) : Prop where
  input : (.input, invocation.input) ∈ found
  config : ∀ path, invocation.config = some path ↔ (.config, path) ∈ found
  seed : ∀ n, invocation.seed = some n ↔
    ∃ value, (.seed, value) ∈ found ∧ NumberArgument n.toNat value
  json : invocation.json = true ↔ .json ∈ found.map Prod.fst
  output : ∀ path, invocation.output = some path ↔ (.output, path) ∈ found

/-- The arguments ask for this run: flags on both sides of the command, on neither side one twice.
Two dashes may stand behind them. -/
inductive RunArguments (invocation : Invocation) : List String → Prop
  | ordered {levels found : Found} {before after last : List String}
      (hb : Occurrences .before levels before) (levelOnce : (levels.map Prod.fst).Nodup)
      (ha : Occurrences .after found after) (once : (found.map Prod.fst).Nodup)
      (ends : last = [] ∨ last = ["--"]) (asked : invocation.AskedBy found) :
      RunArguments invocation (before ++ "run" :: (after ++ last))

/-! ## Values -/

theorem isValue_eq_true_iff {value : String} : isValue value = true ↔ Detached value := by
  unfold isValue Detached
  split
  · next c cs front => simp [front]
  · next other => exact iff_of_true rfl fun c cs front => other c cs front

theorem natural?_eq_some_iff {value : String} {n : Nat} :
    natural? value = some n ↔ NumberArgument n value := by
  have digits (ds : List Char) :
      (if (ds.isEmpty || !ds.all Char.isDigit) = true then none
        else some (Nat.ofDigitChars 10 ds 0)) = some n ↔
      ds ≠ [] ∧ (∀ c ∈ ds, c.isDigit = true) ∧ Nat.ofDigitChars 10 ds 0 = n := by
    cases ds <;> simp [and_assoc]
  have front : ∀ cs : List Char, value.toList = cs ↔ value = String.ofList cs := fun cs => by
    rw [String.ext_iff, String.toList_ofList]
  unfold NumberArgument natural?
  simp only [← front]
  split
  · next ds plus =>
    refine (digits ds).trans ⟨fun ⟨filled, all, h⟩ => ⟨ds, filled, all, h, .inr plus⟩, ?_⟩
    rintro ⟨es, filled, all, h, same | same⟩
    · rw [plus] at same
      subst same
      exact absurd (all '+' List.mem_cons_self) (by decide)
    · rw [plus] at same
      cases same
      exact ⟨filled, all, h⟩
  · next other =>
    refine (digits _).trans ⟨fun ⟨filled, all, h⟩ => ⟨_, filled, all, h, .inl rfl⟩, ?_⟩
    rintro ⟨ds, filled, all, h, rfl | plus⟩
    · exact ⟨filled, all, h⟩
    · exact absurd plus (other ds)

theorem seed?_eq_some_iff {value : String} {n : UInt64} :
    seed? value = some n ↔ NumberArgument n.toNat value := by
  unfold seed?
  rw [Option.bind_eq_some_iff, ← natural?_eq_some_iff]
  constructor
  · rintro ⟨m, hm, h⟩
    split at h
    · next small =>
      cases h
      rw [hm, Nat.toUInt64_eq, UInt64.toNat_ofNat_of_lt' small]
    · cases h
  · intro h
    refine ⟨n.toNat, h, ?_⟩
    rw [if_pos n.toNat_lt_size]
    simp

theorem isLogLevel_eq_true_iff {value : String} :
    isLogLevel value = true ↔ LevelArgument value := by
  unfold isLogLevel LevelArgument
  rw [Bool.or_eq_true, List.contains_iff_exists_mem_beq, Option.any_eq_true]
  simp [natural?_eq_some_iff, String.ext_iff]

theorem accepts_eq_true_iff {flag : Flag} {value : String} :
    flag.accepts value = true ↔ flag.Admits value := by
  cases flag with
  | logLevel => exact isLogLevel_eq_true_iff
  | seed => simp [Flag.accepts, Flag.Admits, Option.isSome_iff_exists, seed?_eq_some_iff]
  | _ => simp [Flag.accepts, Flag.Admits]

/-! ## One argument -/

theorem flag_of_long {side : Side} {flag : Flag} (here : flag ∈ side.flags) :
    (side.flags.find? fun f => f.long == flag.long) = some flag := by
  cases side <;> revert here <;> cases flag <;> decide

theorem flag_of_short {side : Side} {flag : Flag} {c : Char} (here : flag ∈ side.flags)
    (named : flag.short? = some c) :
    (side.flags.find? fun f => f.short? == some c) = some flag := by
  cases flag <;> cases named <;> cases side <;> revert here <;> decide

variable {side : Side} {flag : Flag} {argument : String}

theorem long_apart : ∀ c ∈ flag.long.toList, (c != '=') = true := by
  cases flag <;> simp [Flag.long]

theorem long_ne_nil : flag.long.toList ≠ [] := by
  cases flag <;> simp [Flag.long]

theorem step_long {cs : List Char} (front : argument.toList = '-' :: '-' :: cs) (some : cs ≠ []) :
    step side argument = longStep side argument cs := by
  unfold step
  rw [front]
  cases cs with
  | nil => exact absurd rfl some
  | cons c cs => rfl

theorem step_short {c : Char} {cs : List Char} (front : argument.toList = '-' :: c :: cs)
    (other : c ≠ '-') : step side argument = shortStep side argument c cs := by
  unfold step
  rw [front]
  split
  · next same => cases same; exact absurd rfl other
  · next same => cases same; exact absurd rfl other
  · next same => cases same; rfl
  · next apart => exact absurd rfl (apart c cs)

/-- a long flag, with what stands behind its equals sign -/
theorem longStep_attached (here : flag ∈ side.flags) (value : List Char) :
    longStep side argument (flag.long.toList ++ '=' :: value) =
      attach flag (some (String.ofList value)) := by
  unfold longStep
  rw [List.takeWhile_append_of_pos long_apart, List.dropWhile_append_of_pos long_apart]
  simp [flag_of_long here]

theorem longStep_bare (here : flag ∈ side.flags) :
    longStep side argument flag.long.toList = attach flag none := by
  unfold longStep
  rw [List.takeWhile_eq_self_iff.mpr long_apart, List.dropWhile_eq_nil_iff.mpr long_apart]
  simp [flag_of_long here]

theorem longStep_sound {cs : List Char} {s : Step} (h : longStep side argument cs = .ok s) :
    ∃ flag ∈ side.flags,
      (cs = flag.long.toList ∧ attach flag none = .ok s) ∨
      ∃ value, cs = flag.long.toList ++ '=' :: value ∧
        attach flag (some (String.ofList value)) = .ok s := by
  have whole := List.takeWhile_append_dropWhile (p := (· != '=')) (l := cs)
  have equals := List.head?_dropWhile_not (· != '=') cs
  unfold longStep at h
  dsimp only at h
  split at h
  · next flag found =>
    have same := List.find?_some found
    have named : flag.long.toList = cs.takeWhile (· != '=') := by
      rw [eq_of_beq same, String.toList_ofList]
    refine ⟨flag, List.mem_of_find?_eq_some found, ?_⟩
    rw [← named] at whole
    split at h
    · next c value behind =>
      rw [behind] at whole equals
      have sign : c = '=' := by simpa using equals
      exact .inr ⟨value, by rw [← whole, sign], h⟩
    · next behind =>
      rw [behind, List.append_nil] at whole
      exact .inl ⟨whole.symm, h⟩
  · cases h

theorem shortStep_eq {c : Char} (here : flag ∈ side.flags) (named : flag.short? = some c)
    (takes : flag.takesValue = true) (cs : List Char) :
    shortStep side argument c cs = match cs with
      | [] => .ok (.pending flag)
      | '=' :: value => .ok (.flag flag (String.ofList value))
      | value => .ok (.flag flag (String.ofList value)) := by
  unfold shortStep
  simp only [flag_of_short here named, takes]
  rfl

theorem shortStep_sound {c : Char} {cs : List Char} {s : Step}
    (h : shortStep side argument c cs = .ok s) :
    ∃ flag ∈ side.flags, flag.short? = some c ∧
      ((flag.takesValue = false ∧ s = .flag flag "") ∨
        flag.takesValue = true ∧
          ((cs = [] ∧ s = .pending flag) ∨
            (∃ value, cs = '=' :: value ∧ s = .flag flag (String.ofList value)) ∨
            ∃ d ds, cs = d :: ds ∧ d ≠ '=' ∧ s = .flag flag (String.ofList cs))) := by
  unfold shortStep at h
  split at h
  · cases h
  · next flag found =>
    have same := List.find?_some found
    refine ⟨flag, List.mem_of_find?_eq_some found, eq_of_beq same, ?_⟩
    split at h
    · next bare =>
      cases h
      exact .inl ⟨by simpa using bare, rfl⟩
    · next takes =>
      refine .inr ⟨by simpa using takes, ?_⟩
      split at h
      · cases h
        exact .inl ⟨rfl, rfl⟩
      · next value =>
        cases h
        exact .inr (.inl ⟨value, rfl, rfl⟩)
      · next filled other =>
        cases h
        cases cs with
        | nil => exact absurd rfl filled
        | cons d ds =>
          refine .inr (.inr ⟨d, ds, rfl, ?_, rfl⟩)
          rintro rfl
          exact other ds rfl

theorem running_of_takesValue (takes : flag.takesValue = true) : flag.Running := by
  cases flag <;> cases takes <;> exact ⟨by decide, by decide⟩

/-- the short flags without a value ask for help or the version -/
theorem not_running_of_short {c : Char} (bare : flag.takesValue = false)
    (named : flag.short? = some c) : ¬ flag.Running := by
  cases flag <;> cases bare <;> cases named <;> simp [Flag.Running]

theorem attach_sound {attached : Option String} {s : Step} (h : attach flag attached = .ok s) :
    (flag.takesValue = true ∧ ∃ value, attached = some value ∧ s = .flag flag value) ∨
      (flag.takesValue = true ∧ attached = none ∧ s = .pending flag) ∨
      (flag.takesValue = false ∧ attached = none ∧ s = .flag flag "") := by
  unfold attach at h
  split at h <;> cases h
  · next value takes => exact .inl ⟨takes, value, rfl, rfl⟩
  · next takes => exact .inr (.inl ⟨takes, rfl, rfl⟩)
  · next bare => exact .inr (.inr ⟨bare, rfl, rfl⟩)

/-- what an argument does, the flag that it has being one of its side -/
inductive Does (side : Side) (argument : String) : Step → Prop
  | last (dashes : argument = "--") : Does side argument .last
  | word : Does side argument (.word argument)
  | flag {flag : Flag} {value : String} (here : flag ∈ side.flags)
      (occurs : flag.Running → Occurrence flag value [argument]) :
      Does side argument (.flag flag value)
  | pending {flag : Flag} (here : flag ∈ side.flags) (running : flag.Running)
      (occurs : ∀ value, Detached value → Occurrence flag value [argument, value]) :
      Does side argument (.pending flag)

theorem does_of_longStep {cs : List Char} {s : Step}
    (front : argument = String.ofList ('-' :: '-' :: cs))
    (h : longStep side argument cs = .ok s) : Does side argument s := by
  obtain ⟨flag, here, ⟨rfl, read⟩ | ⟨attached, rfl, read⟩⟩ := longStep_sound h
  · have bare : argument = "--" ++ flag.long := by
      rw [front, String.ext_iff]
      simp
    rw [bare]
    obtain ⟨-, _, none, -⟩ | ⟨takes, -, rfl⟩ | ⟨switch, -, rfl⟩ := attach_sound read
    · cases none
    · exact .pending here (running_of_takesValue takes) fun value => .longNext takes
    · exact .flag here fun _ => .switch switch
  · have equals : argument = "--" ++ flag.long ++ "=" ++ String.ofList attached := by
      rw [front, String.ext_iff]
      simp
    rw [equals]
    obtain ⟨takes, value, same, rfl⟩ | ⟨-, none, -⟩ | ⟨-, none, -⟩ := attach_sound read
    · cases same
      exact .flag here fun _ => .long takes
    · cases none
    · cases none

theorem does_of_shortStep {c : Char} {cs : List Char} {s : Step}
    (front : argument = String.ofList ('-' :: c :: cs))
    (h : shortStep side argument c cs = .ok s) : Does side argument s := by
  rw [front]
  obtain ⟨flag, here, named, ⟨bare, rfl⟩ | ⟨takes, forms⟩⟩ := shortStep_sound h
  · exact .flag here fun running => absurd running (not_running_of_short bare named)
  · obtain ⟨rfl, rfl⟩ | ⟨value, rfl, rfl⟩ | ⟨d, ds, rfl, other, rfl⟩ := forms
    · exact .pending here (running_of_takesValue takes) fun value => .shortNext takes named
    · exact .flag here fun _ => .shortEquals takes named
    · exact .flag here fun _ => .short takes named other

theorem step_sound {s : Step} (h : step side argument = .ok s) : Does side argument s := by
  have front {cs : List Char} (h : argument.toList = cs) : argument = String.ofList cs := by
    rw [← h, String.ofList_toList]
  unfold step at h
  split at h
  · next dashes =>
    cases h
    exact .last (front dashes)
  · next two => exact does_of_longStep (front two) h
  · next one => exact does_of_shortStep (front one) h
  · cases h
    exact .word

/-! ## Flags with values -/

theorem value?_isSome_iff {found : Found} :
    (found.value? flag).isSome = true ↔ flag ∈ found.map Prod.fst := by
  unfold Found.value?
  simp [List.find?_isSome]

theorem record_eq_ok_iff {found given : Found} {value : String} :
    found.record flag value = .ok given ↔ flag ∉ found.map Prod.fst ∧
      flag.Admits value ∧ given = found ++ [(flag, value)] := by
  unfold Found.record
  rw [← value?_isSome_iff, ← accepts_eq_true_iff]
  split
  · next seen => simp [seen]
  · next unseen =>
    split
    · next accepted => simp [unseen, accepted, eq_comm]
    · next refused => simp [refused]

theorem scan_flag {found given : Found} {value : String} {rest : List String}
    (read : step side argument = .ok (.flag flag value)) (running : flag.Running)
    (recorded : found.record flag value = .ok given) :
    scan side found (argument :: rest) = scan side given rest := by
  rw [scan.eq_def side found]
  dsimp only
  rw [read]
  cases flag with
  | help => exact absurd rfl running.1
  | version => exact absurd rfl running.2
  | _ => simp only [recorded]

theorem scan_pending {found given : Found} {value : String} {rest : List String}
    (read : step side argument = .ok (.pending flag)) (detached : Detached value)
    (recorded : found.record flag value = .ok given) :
    scan side found (argument :: value :: rest) = scan side given rest := by
  rw [scan.eq_def]
  simp only [read, isValue_eq_true_iff.mpr detached, recorded]
  rfl

/-- an occurrence of a flag is read with its value -/
theorem scan_occurrence {value : String} {words rest : List String} {found given : Found}
    (here : flag ∈ side.flags) (running : flag.Running) (h : Occurrence flag value words)
    (recorded : found.record flag value = .ok given) :
    scan side found (words ++ rest) = scan side given rest := by
  have dash {c : Char} (named : flag.short? = some c) : c ≠ '-' := by
    cases flag <;> cases named <;> decide
  cases h with
  | long takes =>
    refine scan_flag ?_ running recorded
    have front : ("--" ++ flag.long ++ "=" ++ value).toList =
        '-' :: '-' :: (flag.long.toList ++ '=' :: value.toList) := by simp
    rw [step_long front (by simp), longStep_attached here, String.ofList_toList]
    unfold attach
    rw [takes]
  | longNext takes detached =>
    refine scan_pending ?_ detached recorded
    have front : ("--" ++ flag.long).toList = '-' :: '-' :: flag.long.toList := by simp
    rw [step_long front long_ne_nil, longStep_bare here]
    unfold attach
    rw [takes]
  | short takes named other =>
    refine scan_flag ?_ running recorded
    rw [step_short String.toList_ofList (dash named), shortStep_eq here named takes]
    split
    · next none => cases none
    · next same => cases same; exact absurd rfl other
    · rfl
  | shortEquals takes named =>
    refine scan_flag ?_ running recorded
    rw [step_short String.toList_ofList (dash named), shortStep_eq here named takes]
    rfl
  | shortNext takes named detached =>
    refine scan_pending ?_ detached recorded
    rw [step_short String.toList_ofList (dash named), shortStep_eq here named takes]
  | switch bare =>
    refine scan_flag ?_ running recorded
    have front : ("--" ++ flag.long).toList = '-' :: '-' :: flag.long.toList := by simp
    rw [step_long front long_ne_nil, longStep_bare here]
    unfold attach
    rw [bare]

/-! ## The flags of a side -/

theorem fresh_of_nodup {found given : Found} {value : String}
    (once : ((found ++ (flag, value) :: given).map Prod.fst).Nodup) :
    flag ∉ found.map Prod.fst := by
  rw [List.map_append, List.map_cons] at once
  intro seen
  exact (List.nodup_append.mp once).2.2 flag seen flag List.mem_cons_self rfl

/-- The flags that were found and those to come are one list, in which none comes twice. -/
theorem scan_complete (found : Found) {given : Found} {words : List String}
    (h : Occurrences side given words) (once : ((found ++ given).map Prod.fst).Nodup)
    (rest : List String) : scan side found (words ++ rest) = scan side (found ++ given) rest := by
  induction h generalizing found with
  | none => rw [List.nil_append, List.append_nil]
  | @more flag value given words others here running h admitted _ ih =>
    have recorded := record_eq_ok_iff.mpr ⟨fresh_of_nodup once, admitted, rfl⟩
    rw [List.append_cons] at once ⊢
    rw [List.append_assoc, scan_occurrence here running h recorded, ih _ once]

/-- where the flags of a side end, and what the scan gives there -/
inductive EndsAt (found : Found) : List String → Stop → Prop
  | finished : EndsAt found [] (.finished found)
  | dashes : EndsAt found ["--"] (.finished found)
  | word {word : String} {rest : List String} : EndsAt found (word :: rest) (.word found word rest)
  | help {rest : List String} : EndsAt found rest .help
  | version {rest : List String} : EndsAt found rest .version

/-- flags of a side, none twice, and where they end -/
def Scanned (side : Side) (found : Found) (arguments : List String) (stop : Stop) : Prop :=
  ∃ given words rest, arguments = words ++ rest ∧ Occurrences side given words ∧
    ((found ++ given).map Prod.fst).Nodup ∧ EndsAt (found ++ given) rest stop

theorem Scanned.ended {found : Found} {arguments : List String} {stop : Stop}
    (once : (found.map Prod.fst).Nodup) (h : EndsAt found arguments stop) :
    Scanned side found arguments stop := by
  refine ⟨[], [], arguments, rfl, .none, ?_, ?_⟩ <;> rwa [List.append_nil]

theorem Scanned.more {found given : Found} {value : String} {words arguments : List String}
    {stop : Stop} (here : flag ∈ side.flags) (running : flag.Running)
    (h : Occurrence flag value words) (recorded : found.record flag value = .ok given)
    (rest : Scanned side given arguments stop) : Scanned side found (words ++ arguments) stop := by
  obtain ⟨-, admitted, rfl⟩ := record_eq_ok_iff.mp recorded
  obtain ⟨others, others', rest, rfl, hs, once, ends⟩ := rest
  rw [← List.append_cons] at once ends
  exact ⟨_, _, rest, (List.append_assoc _ _ _).symm, .more here running h admitted hs, once, ends⟩

theorem nodup_of_record {found given : Found} {value : String}
    (once : (found.map Prod.fst).Nodup) (recorded : found.record flag value = .ok given) :
    (given.map Prod.fst).Nodup := by
  obtain ⟨fresh, -, rfl⟩ := record_eq_ok_iff.mp recorded
  rw [List.map_append]
  exact List.Nodup.append once (List.nodup_singleton _) (by simpa using fresh)

theorem scan_sound {found : Found} {arguments : List String} {stop : Stop}
    (h : scan side found arguments = .ok stop) (once : (found.map Prod.fst).Nodup) :
    Scanned side found arguments stop := by
  -- `once` is the invariant: every flag that is recorded was not found before
  fun_induction scan side found arguments with
  | case1 found =>
    cases h
    exact .ended once .finished
  | case3 found argument read => cases step_sound read with
    | last dashes =>
      cases h
      rw [dashes]
      exact .ended once .dashes
  | case5 found argument rest word read => cases step_sound read with
    | word =>
      cases h
      exact .ended once .word
  | case6 found argument rest value read =>
    cases h
    exact .ended once .help
  | case7 found argument rest value read =>
    cases h
    exact .ended once .version
  | case9 found argument rest flag value notHelp notVersion read given recorded ih =>
    cases step_sound read with
    | flag here occurs =>
      have running : flag.Running := ⟨notHelp, notVersion⟩
      exact .more here running (occurs running) recorded (ih h (nodup_of_record once recorded))
  | case13 found argument flag read value rest detached given recorded ih =>
    cases step_sound read with
    | pending here running occurs =>
      have plain : Detached value := isValue_eq_true_iff.mp (by simpa using detached)
      exact .more here running (occurs value plain) recorded
        (ih h (nodup_of_record once recorded))
  | case2 | case4 | case8 | case10 | case11 | case12 => cases h

/-! ## Runs -/

theorem value?_eq_some_iff {found : Found} (once : (found.map Prod.fst).Nodup) {value : String} :
    found.value? flag = some value ↔ (flag, value) ∈ found := by
  induction found with
  | nil => exact iff_of_false nofun List.not_mem_nil
  | cons e found ih =>
    obtain ⟨first, v⟩ := e
    rw [List.map_cons, List.nodup_cons] at once
    unfold Found.value? at ih ⊢
    rw [List.find?_cons, List.mem_cons]
    by_cases same : first = flag
    · subst same
      have later : (first, value) ∉ found := fun seen =>
        once.1 (List.mem_map.mpr ⟨_, seen, rfl⟩)
      simp [later, eq_comm]
    · have apart : (first == flag) = false := beq_eq_false_iff_ne.mpr same
      simp [apart, ih once.2, Ne.symm same]

theorem ofFound_eq_ok_iff {found : Found} (once : (found.map Prod.fst).Nodup)
    {invocation : Invocation} :
    Invocation.ofFound found = .ok invocation ↔ invocation.AskedBy found := by
  have seed (n : UInt64) : (found.value? .seed).bind seed? = some n ↔
      ∃ value, (.seed, value) ∈ found ∧ NumberArgument n.toNat value := by
    simp only [Option.bind_eq_some_iff, value?_eq_some_iff once, seed?_eq_some_iff]
  have given {input : String} (h : found.value? .input = some input) :
      Invocation.ofFound found = .ok
        ⟨input, found.value? .config, (found.value? .seed).bind seed?,
          (found.value? .json).isSome, found.value? .output⟩ := by
    unfold Invocation.ofFound
    rw [h]
  constructor
  · intro h
    cases hi : found.value? .input with
    | none =>
      unfold Invocation.ofFound at h
      rw [hi] at h
      cases h
    | some input =>
      rw [given hi] at h
      cases h
      exact ⟨(value?_eq_some_iff once).mp hi, fun _ => value?_eq_some_iff once, seed,
        value?_isSome_iff, fun _ => value?_eq_some_iff once⟩
  · intro h
    rw [given ((value?_eq_some_iff once).mpr h.input)]
    obtain ⟨input, config, s, json, output⟩ := invocation
    congr 2
    · exact Option.ext fun path => (value?_eq_some_iff once).trans (h.config path).symm
    · exact Option.ext fun n => (seed n).trans (h.seed n).symm
    · exact Bool.eq_iff_iff.mpr (value?_isSome_iff.trans h.json.symm)
    · exact Option.ext fun path => (value?_eq_some_iff once).trans (h.output path).symm

theorem parseRun_complete {invocation : Invocation} {found : Found} {words last : List String}
    (h : Occurrences .after found words) (once : (found.map Prod.fst).Nodup)
    (ends : last = [] ∨ last = ["--"]) (asked : invocation.AskedBy found) :
    parseRun (words ++ last) = .ok (.run invocation) := by
  have behind : scan .after found last = .ok (.finished found) := by
    rcases ends with rfl | rfl <;> rfl
  have flags := scan_complete [] h once last
  rw [List.nil_append, behind] at flags
  unfold parseRun
  rw [flags]
  simp only [(ofFound_eq_ok_iff once).mpr asked]

theorem parseRun_sound {invocation : Invocation} {arguments : List String}
    (h : parseRun arguments = .ok (.run invocation)) :
    ∃ found words last, arguments = words ++ last ∧ Occurrences .after found words ∧
      (found.map Prod.fst).Nodup ∧ (last = [] ∨ last = ["--"]) ∧ invocation.AskedBy found := by
  unfold parseRun at h
  split at h
  · cases h
  · cases h
  · cases h
  · cases h
  · next found scanned =>
    obtain ⟨given, words, last, rfl, flags, once, ends⟩ := scan_sound scanned List.nodup_nil
    split at h
    · cases h
    · next invocation asked =>
      cases h
      cases ends with
      | finished =>
        exact ⟨_, words, [], rfl, flags, once, .inl rfl, (ofFound_eq_ok_iff once).mp asked⟩
      | dashes =>
        exact ⟨_, words, _, rfl, flags, once, .inr rfl, (ofFound_eq_ok_iff once).mp asked⟩

theorem parseHelp_ne_run {arguments : List String} {invocation : Invocation} :
    parseHelp arguments ≠ .ok (.run invocation) := by
  unfold parseHelp
  split <;> simp

/-- **The arguments of a run.**  Just these are taken for a run, and for the one that they ask
for. -/
theorem parse_eq_run_iff {invocation : Invocation} {arguments : List String} :
    Request.parse arguments = .ok (.run invocation) ↔ RunArguments invocation arguments := by
  constructor
  · intro h
    unfold Request.parse at h
    split at h
    · cases h
    · cases h
    · cases h
    · cases h
    · next levels rest scanned =>
      obtain ⟨given, before, others, rfl, hb, levelOnce, ends⟩ := scan_sound scanned List.nodup_nil
      obtain ⟨found, after, last, rfl, ha, once, dashes, asked⟩ := parseRun_sound h
      cases ends
      exact .ordered hb levelOnce ha once dashes asked
    · exact absurd h parseHelp_ne_run
    · cases h
  · rintro ⟨hb, levelOnce, ha, once, ends, asked⟩
    unfold Request.parse
    rw [scan_complete [] hb levelOnce]
    exact parseRun_complete ha once ends asked

example : Request.parse ["--log-level=INFO", "run", "--json", "--output=coin.txt", "--seed", "+7",
    "--input", "coin.json"] = .ok (.run ⟨"coin.json", none, some 7, true, some "coin.txt"⟩) := rfl

end CommandLine
end Chance
