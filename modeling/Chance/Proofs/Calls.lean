import Chance.CommandLine.Directory
import Chance.Proofs.Denotation
import Chance.Proofs.Draws
import Chance.Proofs.Kinds
import Chance.Proofs.RoundTrip
import Chance.Proofs.RunArguments
import Chance.Proofs.SettingsTexts

/-!
# Calls of the command line

A call that runs a program does what the ending of the program says and nothing else: its status,
its output and the one file that it may change are told by the loaded settings, the loaded program
and the effective seed.

* `Configured`, `Reaches`    what the files of a call say: its seed, the ending of its program;
* `Refines`                  what a call owes to that ending;
* `run_refines`              a run owes nothing more;
* `run_of_seed`, `run_of_unobserved`   what a report does not depend on;
* `call_refines`             all of this for the arguments of a call;
* `coin`                     a program whose ending the seed decides.
-/

namespace Chance

variable {σ τ : Type} [Source σ] [Source τ]

/-! ## Programs without observations -/

theorem Program.run_fst (F : Cumulative) (p : Program) (s : σ) :
    (p.run F s : Ending Float × σ).1 = .ofResult (p.eval F s).1 := rfl

/-- a program without observations ends alike on all sources -/
theorem Program.run_unobserved (F : Cumulative) {p : Program} (h : p.observes = 0) (s : σ)
    (t : τ) : (p.run F s : Ending Float × σ).1 = (p.run F t : Ending Float × τ).1 := by
  -- there is no draw on which two sources could differ
  have none : p.drawn Float F s = 0 := Nat.le_zero.mp (h ▸ drawn_le_observes F p s)
  have agree : Source.draws (p.drawn Float F s) t = Source.draws (p.drawn Float F s) s := by
    rw [none]
    rfl
  rw [run_fst, run_fst, (eval_agree p agree).1]

namespace CommandLine

/-! ## What the files of a call say -/

/-- the text in the file of the settings says this seed, or none; without such a file there is
none -/
def Configured (invocation : Invocation) (files : Files) (seed : Option UInt64) : Prop :=
  (invocation.config = none ∧ seed = none) ∨
    ∃ path text, invocation.config = some path ∧ files.content path = .ok text ∧
      Settings.Text ⟨seed⟩ text

/-- the program that the text in its file denotes -/
def Loaded (invocation : Invocation) (files : Files) (p : Program) : Prop :=
  ∃ text v, files.content invocation.input = .ok text ∧ Json.Text v text ∧
    v.depth ≤ Json.Reader.depthLimit ∧ Program.Denotes v p

/-- The program ends like this, the seed of the arguments in place of that of the settings. -/
def Reaches (F : Cumulative) (invocation : Invocation) (files : Files) (fresh : σ)
    (e : Ending Float) : Prop :=
  ∃ seed p, Configured invocation files seed ∧ Loaded invocation files p ∧
    outcome F p (invocation.seed.or seed) fresh = e

/-- the text of a result -/
def Invocation.text (invocation : Invocation) (v : Value Float) : String :=
  if invocation.json then v.summaryText else v.text

/-- nothing but a status and diagnostics -/
def Report.Silent (report : Report) (status : UInt32) : Prop :=
  report.status = status ∧ report.output = "" ∧ report.written = none

/-- the text is printed, and no file changes -/
def Report.Prints (report : Report) (text : String) : Prop :=
  report.status = 0 ∧ report.output = text ∧ report.written = none

/-- the file takes the text, and nothing is printed -/
def Report.Stores (report : Report) (path text : String) : Prop :=
  report.status = 0 ∧ report.output = "" ∧ report.written = some (path, text)

/-- what a call owes to its files and to the ending of its program -/
structure Refines (F : Cumulative) (invocation : Invocation) (files : Files) (fresh : σ)
    (report : Report) : Prop where
  unconfigured : (∀ seed, ¬ Configured invocation files seed) → report.Silent 1
  unloaded : (∀ p, ¬ Loaded invocation files p) → report.Silent 1
  printed : ∀ v, Reaches F invocation files fresh (.value v) → invocation.output = none →
    report.Prints (invocation.text v ++ "\n")
  stored : ∀ v path, Reaches F invocation files fresh (.value v) →
    invocation.output = some path → files.writable path = true →
    report.Stores path (invocation.text v ++ "\n")
  unwritable : ∀ v path, Reaches F invocation files fresh (.value v) →
    invocation.output = some path → files.writable path = false → report.Silent 1
  rejected : Reaches F invocation files fresh .rejected → report.Silent 2
  failed : ∀ f, Reaches F invocation files fresh (.fault f) →
    (∀ law x, f ≠ .noCumulative law x) → report.Silent 1

/-! ## Loading -/

theorem load_eq_ok_iff {α : Type} {read : String → Except Json.Fault α}
    {content : Except FileFault String} {a : α} :
    load read content = .ok a ↔ ∃ text, content = .ok text ∧ read text = .ok a := by
  cases content with
  | error f => simp [load]
  | ok text => cases h : read text <;> simp [load, h]

theorem loaded_iff {invocation : Invocation} {files : Files} {p : Program} :
    Loaded invocation files p ↔ load Program.read (files.content invocation.input) = .ok p := by
  simp only [Loaded, load_eq_ok_iff, Program.read_eq_ok_iff, Json.read_eq_ok_iff, exists_and_left,
    and_assoc]

theorem configured_iff {invocation : Invocation} {files : Files} {path : String}
    (config : invocation.config = some path) {seed : Option UInt64} :
    Configured invocation files seed ↔
      load Settings.read (files.content path) = .ok ⟨seed⟩ := by
  simp [Configured, config, load_eq_ok_iff, Settings.read_eq_ok_iff]

theorem settings_of_configured {invocation : Invocation} {files : Files} {seed : Option UInt64}
    (h : Configured invocation files seed) :
    invocation.settings files = .ok ⟨invocation.seed.or seed⟩ := by
  unfold Invocation.settings
  cases config : invocation.config with
  | none =>
    rcases h with ⟨-, rfl⟩ | ⟨path, text, config', -⟩
    · dsimp only
      rw [Option.or_none]
    · rw [config] at config'
      cases config'
  | some path =>
    dsimp only
    rw [(configured_iff config).mp h]
    rfl

theorem settings_of_unconfigured {invocation : Invocation} {files : Files}
    (h : ∀ seed, ¬ Configured invocation files seed) :
    ∃ f, invocation.settings files = .error f := by
  cases config : invocation.config with
  | none => exact absurd (.inl ⟨config, rfl⟩) (h none)
  | some path =>
    cases read : load Settings.read (files.content path) with
    | ok s => exact absurd ((configured_iff config).mpr read) (h s.seed)
    | error f =>
      refine ⟨f, ?_⟩
      unfold Invocation.settings
      rw [config]
      dsimp only
      rw [read]
      rfl

theorem silent_loadFailure (f : LoadFault) : (loadFailure f).Silent 1 := ⟨rfl, rfl, rfl⟩

theorem run_of_unconfigured (F : Cumulative) {invocation : Invocation} {files : Files}
    (h : ∀ seed, ¬ Configured invocation files seed) (fresh : σ) :
    (invocation.run F files fresh).Silent 1 := by
  obtain ⟨f, settings⟩ := settings_of_unconfigured h
  unfold Invocation.run
  rw [settings]
  exact silent_loadFailure f

theorem run_of_unloaded (F : Cumulative) {invocation : Invocation} {files : Files}
    (h : ∀ p, ¬ Loaded invocation files p) (fresh : σ) :
    (invocation.run F files fresh).Silent 1 := by
  unfold Invocation.run
  cases invocation.settings files with
  | error f => exact silent_loadFailure f
  | ok settings =>
    cases read : load Program.read (files.content invocation.input) with
    | error f => exact silent_loadFailure f
    | ok p => exact absurd (loaded_iff.mpr read) (h p)

/-- a run of what was loaded -/
theorem run_of_loaded (F : Cumulative) {invocation : Invocation} {files : Files}
    {seed : Option UInt64} {p : Program} (configured : Configured invocation files seed)
    (loaded : Loaded invocation files p) (fresh : σ) :
    invocation.run F files fresh =
      conclude files invocation (outcome F p (invocation.seed.or seed) fresh) := by
  unfold Invocation.run
  rw [settings_of_configured configured]
  dsimp only
  rw [loaded_iff.mp loaded]

theorem run_of_reaches {F : Cumulative} {invocation : Invocation} {files : Files} {fresh : σ}
    {e : Ending Float} (h : Reaches F invocation files fresh e) :
    invocation.run F files fresh = conclude files invocation e := by
  obtain ⟨seed, p, configured, loaded, rfl⟩ := h
  exact run_of_loaded F configured loaded fresh

/-! ## Runs -/

theorem conclude_value (files : Files) (invocation : Invocation) (v : Value Float) :
    conclude files invocation (.value v) =
      deliver files invocation.output (invocation.text v ++ "\n") := rfl

theorem deliver_none (files : Files) (text : String) :
    deliver files none text = .printed text := rfl

theorem deliver_of_writable {files : Files} {path : String} (h : files.writable path = true)
    (text : String) : deliver files (some path) text = ⟨0, "", [], some (path, text)⟩ := if_pos h

theorem deliver_of_unwritable {files : Files} {path : String} (h : files.writable path = false)
    (text : String) : (deliver files (some path) text).Silent 1 := by
  have refused : deliver files (some path) text = _ := if_neg (by rw [h]; decide)
  rw [refused]
  exact ⟨rfl, rfl, rfl⟩

/-- an ending that is no value is told by the status -/
theorem conclude_of_fault (files : Files) (invocation : Invocation) {f : Fault Float}
    (defined : ∀ law x, f ≠ .noCumulative law x) :
    (conclude files invocation (.fault f)).Silent 1 := by
  cases f with
  | noCumulative law x => exact absurd rfl (defined law x)
  | _ => exact ⟨rfl, rfl, rfl⟩

/-- **A run refines its program.** -/
theorem run_refines (F : Cumulative) (invocation : Invocation) (files : Files) (fresh : σ) :
    Refines F invocation files fresh (invocation.run F files fresh) where
  unconfigured h := run_of_unconfigured F h fresh
  unloaded h := run_of_unloaded F h fresh
  printed v h output := by
    rw [run_of_reaches h, conclude_value, output, deliver_none]
    exact ⟨rfl, rfl, rfl⟩
  stored v path h output writable := by
    rw [run_of_reaches h, conclude_value, output, deliver_of_writable writable]
    exact ⟨rfl, rfl, rfl⟩
  unwritable v path h output unwritable := by
    rw [run_of_reaches h, conclude_value, output]
    exact deliver_of_unwritable unwritable _
  rejected h := by
    rw [run_of_reaches h]
    exact ⟨rfl, rfl, rfl⟩
  failed f h defined := by
    rw [run_of_reaches h]
    exact conclude_of_fault files invocation defined

/-! ## What a report does not depend on -/

/-- the same run, whatever the seeds are -/
def Invocation.Alike (i j : Invocation) : Prop :=
  i.input = j.input ∧ i.json = j.json ∧ i.output = j.output

theorem conclude_of_alike {i j : Invocation} (h : i.Alike j) (files : Files) (e : Ending Float) :
    conclude files i e = conclude files j e := by
  obtain ⟨-, json, output⟩ := h
  cases e with
  | value v => rw [conclude, conclude, json, output]
  | rejected => rfl
  | fault f => cases f <;> rfl

/-- where there is a seed, nothing else decides -/
theorem run_of_seed (F : Cumulative) {i j : Invocation} (h : i.Alike j) {files : Files}
    {s t : Option UInt64} (hi : Configured i files s) (hj : Configured j files t) {n : UInt64}
    (first : i.seed.or s = some n) (second : j.seed.or t = some n) (fresh : σ) (other : τ) :
    i.run F files fresh = j.run F files other := by
  unfold Invocation.run
  rw [settings_of_configured hi, settings_of_configured hj, first, second, h.1]
  cases load Program.read (files.content j.input) with
  | error f => rfl
  | ok p => exact conclude_of_alike h files (outcome F p (some n) fresh)

theorem outcome_of_unobserved (F : Cumulative) {p : Program} (h : p.observes = 0)
    (s t : Option UInt64) (fresh : σ) (other : τ) : outcome F p s fresh = outcome F p t other := by
  cases s with
  | none => cases t with
    | none => exact p.run_unobserved F h fresh other
    | some n => exact p.run_unobserved F h fresh (ChaCha.seeded n)
  | some m => cases t with
    | none => exact p.run_unobserved F h (ChaCha.seeded m) other
    | some n => exact p.run_unobserved F h (ChaCha.seeded m) (ChaCha.seeded n)

/-- where nothing is observed, no seed decides -/
theorem run_of_unobserved (F : Cumulative) {i j : Invocation} (h : i.Alike j) {files : Files}
    {s t : Option UInt64} (hi : Configured i files s) (hj : Configured j files t) {p : Program}
    (loaded : Loaded i files p) (unobserved : p.observes = 0) (fresh : σ) (other : τ) :
    i.run F files fresh = j.run F files other := by
  have loaded' : Loaded j files p := by
    unfold Loaded at loaded ⊢
    rwa [← h.1]
  rw [run_of_loaded F hi loaded, run_of_loaded F hj loaded', conclude_of_alike h,
    outcome_of_unobserved F unobserved (i.seed.or s) (j.seed.or t) fresh other]

/-! ## Calls -/

theorem call_of_run (F : Cumulative) {arguments : List String} {invocation : Invocation}
    (parsed : Request.parse arguments = .ok (.run invocation)) (files : Files) (fresh : σ) :
    call F arguments files fresh = invocation.run F files fresh := by
  unfold call
  rw [parsed]

/-- a path is written only with a result -/
theorem reaches_of_written {F : Cumulative} {invocation : Invocation} {files : Files} {fresh : σ}
    {path text : String} (h : (invocation.run F files fresh).written = some (path, text)) :
    invocation.output = some path ∧
      ∃ v, Reaches F invocation files fresh (.value v) ∧ text = invocation.text v ++ "\n" := by
  by_cases configured : ∃ seed, Configured invocation files seed
  · by_cases loaded : ∃ p, Loaded invocation files p
    · obtain ⟨seed, configured⟩ := configured
      obtain ⟨p, loaded⟩ := loaded
      have reached : Reaches F invocation files fresh _ := ⟨seed, p, configured, loaded, rfl⟩
      rw [run_of_reaches reached] at h
      generalize outcome F p (invocation.seed.or seed) fresh = e at h reached
      cases e with
      | value v =>
        rw [conclude_value] at h
        unfold deliver at h
        split at h
        · cases h
        · next output =>
          split at h
          · cases h
            exact ⟨output, v, reached, rfl⟩
          · cases h
      | rejected => cases h
      | fault f => cases f <;> cases h
    · have silent := run_of_unloaded F (not_exists.mp loaded) fresh
      rw [silent.2.2] at h
      cases h
  · have silent := run_of_unconfigured F (not_exists.mp configured) fresh
    rw [silent.2.2] at h
    cases h

/-! ## Directories -/

/-- the files that change are those that take a result -/
theorem changed_of_run {F : Cumulative} {invocation : Invocation} {d : Directory} {fresh : σ}
    {names : List String} {text : String}
    (h : (names, text) ∈ (d.after (invocation.run F d.files fresh)).2) :
    ∃ path v, invocation.output = some path ∧ d.place path = .entry names ∧
      Reaches F invocation d.files fresh (.value v) ∧ text = invocation.text v ++ "\n" := by
  cases written : (invocation.run F d.files fresh).written with
  | none =>
    rw [d.after_unwritten written] at h
    cases h
  | some change =>
    obtain ⟨path, new⟩ := change
    obtain ⟨output, v, reached, rfl⟩ := reaches_of_written written
    unfold Directory.after at h
    rw [written] at h
    dsimp only at h
    split at h
    · next place =>
      split at h
      · cases h
      · cases List.mem_singleton.mp h
        exact ⟨path, v, output, place, reached, rfl⟩
    · cases h
    · cases h

/-- what is stored stands in the file afterwards -/
theorem after_stored (d : Directory) {report : Report} {path text : String} {names : List String}
    (written : report.written = some (path, text)) (place : d.place path = .entry names) :
    d.after report =
      (report.output, if d.entries.lookup names = some text then [] else [(names, text)]) := by
  unfold Directory.after
  rw [written]
  dsimp only
  rw [place]

/-- **A call refines its program.**  The arguments of a call that runs a program are those of its
run, and the report of the call is what the ending of the program asks for.  In a directory no file
changes but the one that takes a result, and it then holds that result.  Runs of one program with
one effective seed have one report, whichever settings or arguments it comes from; if nothing is
observed, so have runs with any seeds. -/
theorem call_refines (F : Cumulative) {arguments : List String} {invocation : Invocation}
    (parsed : Request.parse arguments = .ok (.run invocation)) (fresh : σ) :
    RunArguments invocation arguments ∧
    (∀ files, Refines F invocation files fresh (call F arguments files fresh)) ∧
    (∀ (d : Directory) (names : List String) (text : String),
      (names, text) ∈ (d.after (call F arguments d.files fresh)).2 →
        ∃ path v, invocation.output = some path ∧ d.place path = .entry names ∧
          Reaches F invocation d.files fresh (.value v) ∧ text = invocation.text v ++ "\n") ∧
    (∀ (d : Directory) (path : String) (names : List String) (v : Value Float),
      Reaches F invocation d.files fresh (.value v) → invocation.output = some path →
      d.place path = .entry names →
        d.after (call F arguments d.files fresh) =
          ("", if d.entries.lookup names = some (invocation.text v ++ "\n") then []
            else [(names, invocation.text v ++ "\n")])) ∧
    (∀ files {others : List String} {other : Invocation} (source : τ) (s t : Option UInt64),
      Request.parse others = .ok (.run other) → invocation.Alike other →
      Configured invocation files s → Configured other files t →
      ((∃ n, invocation.seed.or s = some n ∧ other.seed.or t = some n) ∨
        ∃ p, Loaded invocation files p ∧ p.observes = 0) →
        call F arguments files fresh = call F others files source) := by
  refine ⟨parse_eq_run_iff.mp parsed, ?_, ?_, ?_, ?_⟩
  · intro files
    rw [call_of_run F parsed]
    exact run_refines F invocation files fresh
  · intro d names text changed
    rw [call_of_run F parsed] at changed
    exact changed_of_run changed
  · intro d path names v reached output place
    have writable : d.files.writable path = true := by
      show Directory.isWritable (d.place path) = true
      rw [place]
      rfl
    obtain ⟨-, printed, written⟩ :=
      (run_refines F invocation d.files fresh).stored v path reached output writable
    rw [call_of_run F parsed, after_stored d written place, printed]
  · intro files others other source s t parsed' alike hi hj same
    rw [call_of_run F parsed, call_of_run F parsed']
    rcases same with ⟨n, first, second⟩ | ⟨p, loaded, unobserved⟩
    · exact run_of_seed F alike hi hj first second fresh source
    · exact run_of_unobserved F alike hi hj loaded unobserved fresh source

/-! ## A coin, observed -/

/-- a fair coin is observed, and certain truth is the result -/
def coin : Program :=
  .call .observe [.call .sample [.call .flip [.const (.number (.float 0.5))]], .const (.bool true)]

def coinText : String :=
  "\x7b\"op\":\"observe\",\"args\":[\x7b\"op\":\"sample\",\"args\":[" ++
    "\x7b\"op\":\"flip\",\"args\":[\x7b\"const\":0.5\x7d]\x7d]\x7d,\x7b\"const\":true\x7d]\x7d"

/-- the coin and its settings in two files, and a place for the result -/
def coinFiles (settings : String) : Files where
  content path :=
    if path = "coin.json" then .ok coinText
    else if path = "ei.json" then .ok settings
    else .error .missing
  writable path := path == "out.txt"

/-- a run of the coin with these settings and arguments, and a fresh source that rejects it -/
def coinCall (settings : String) (arguments : List String) : Report :=
  call Law.cumulative ("run" :: "-i" :: "coin.json" :: arguments) (coinFiles settings)
    (ChaCha.seeded 1)

theorem read_coinText : Program.read coinText = .ok coin := by
  have data : coin.IsData := by
    refine .call (List.forall_mem_cons.mpr ⟨.call ?_, List.forall_mem_singleton.mpr ?_⟩)
    · refine List.forall_mem_singleton.mpr (.call (List.forall_mem_singleton.mpr ?_))
      exact .const (.number (by decide)) (.number _)
    · exact .const (.bool true) (.bool true)
  have text : coin.write = coinText := by decide +kernel
  rw [← text]
  exact Program.read_write_of_depth_le data (by decide)

theorem loaded_coin (settings : String) {invocation : Invocation}
    (input : invocation.input = "coin.json") : Loaded invocation (coinFiles settings) coin := by
  have content : (coinFiles settings).content "coin.json" = .ok coinText := rfl
  rw [loaded_iff, input, load_eq_ok_iff]
  exact ⟨coinText, content, read_coinText⟩

theorem eval_coin (s : σ) : (coin.eval Law.cumulative s : Evaluated Float σ (Value Float)) =
    (Value.bool (Pmf.trial (Mass.ofFloat 0.5))).observe (.bool (Pmf.certain true)) s := by
  have half : (Double.ofFloat 0.5).toFloat = 0.5 := by decide +kernel
  have flipped : (.float (Pmf.certain (Double.ofFloat 0.5)) : Value Float).flip =
      .ok (.distribution (.flip 0.5)) := by
    unfold Value.flip Value.ofParameter
    rw [Value.parameter_certain, half]
  simp only [coin, Program.eval, Program.evalAll, Operation.apply, Value.constant, Literal.ofJson,
    Literal.toValue, flipped, Value.sample, Distribution.declares, Distribution.sample,
    Value.ofSample]

/-- an observation ends as its draw decides -/
theorem ofResult_observe {c : Pmf Bool Float} {r : Value Float} {s : σ} {side : Bool}
    (picked : c.pick (Source.next s).1 = .ok side) :
    Ending.ofResult ((Value.bool c).observe r s).1 = if side then .value r else .rejected := by
  unfold Value.observe
  dsimp only
  rw [picked]
  cases side <;> rfl

theorem outcome_some (F : Cumulative) (p : Program) (seed : UInt64) (fresh : σ) :
    outcome F p (some seed) fresh = .ofResult (p.eval F (ChaCha.seeded seed)).1 := rfl

/-- the seed decides which side of the coin comes up -/
theorem outcome_coin {seed : UInt64} {side : Bool}
    (picked : (Pmf.trial (Mass.ofFloat 0.5) : Pmf Bool Float).pick
      (Source.next (ChaCha.seeded seed)).1 = .ok side) (fresh : σ) :
    outcome Law.cumulative coin (some seed) fresh =
      if side then .value (.bool (Pmf.certain true)) else .rejected := by
  rw [outcome_some, eval_coin]
  exact ofResult_observe picked

theorem configured_coin {settings : String} {invocation : Invocation}
    (config : invocation.config = some "ei.json") {seed : Option UInt64} :
    Configured invocation (coinFiles settings) seed ↔ Settings.read settings = .ok ⟨seed⟩ := by
  have content : (coinFiles settings).content "ei.json" = .ok settings := rfl
  rw [configured_iff config, load_eq_ok_iff, content]
  simp

theorem reaches_coin {settings : String} {invocation : Invocation} {s : Option UInt64}
    {seed : UInt64} {side : Bool} (input : invocation.input = "coin.json")
    (config : invocation.config = some "ei.json") (read : Settings.read settings = .ok ⟨s⟩)
    (effective : invocation.seed.or s = some seed)
    (picked : (Pmf.trial (Mass.ofFloat 0.5) : Pmf Bool Float).pick
      (Source.next (ChaCha.seeded seed)).1 = .ok side) (fresh : σ) :
    Reaches Law.cumulative invocation (coinFiles settings) fresh
      (if side then .value (.bool (Pmf.certain true)) else .rejected) := by
  refine ⟨s, coin, (configured_coin config).mpr read, loaded_coin settings input, ?_⟩
  rw [effective, outcome_coin picked]

/-- what is stored where a summary is asked for -/
def coinSummary : String :=
  "\x7b\n  \"kind\": \"bool\",\n  \"support\": [\n    \x7b\n      \"value\": true,\n" ++
    "      \"mass\": 1.0\n    \x7d\n  ]\n\x7d\n"

/-- The seed of the settings decides the observation, unless the arguments have one; a text that is
no settings, here for a seed that comes twice, ends the run before anything else. -/
theorem call_refines_coin :
    (coinCall "[3]" ["--config", "ei.json"]).Prints "\x7btrue 100%\x7d\n" ∧
    (coinCall "\x7b\"seed\": 0\x7d" ["--config", "ei.json"]).Silent 2 ∧
    (coinCall "\x7b\"seed\": 0, \"note\": 1e999\x7d"
      ["--config=ei.json", "--seed", "3", "--json", "-oout.txt"]).Stores "out.txt" coinSummary ∧
    (coinCall "\x7b\"seed\": 3, \"seed\": 3\x7d" ["--config", "ei.json"]).Silent 1 ∧
    coinCall "[3]" ["--config", "ei.json"] = coinCall "[3]" ["--seed=3"] := by
  have configured : Request.parse ["run", "-i", "coin.json", "--config", "ei.json"] =
      .ok (.run ⟨"coin.json", some "ei.json", none, false, none⟩) := rfl
  have overridden : Request.parse ["run", "-i", "coin.json", "--config=ei.json", "--seed", "3",
      "--json", "-oout.txt"] =
      .ok (.run ⟨"coin.json", some "ei.json", some 3, true, some "out.txt"⟩) := rfl
  have seeded : Request.parse ["run", "-i", "coin.json", "--seed=3"] =
      .ok (.run ⟨"coin.json", none, some 3, false, none⟩) := rfl
  have three : Settings.read "[3]" = .ok ⟨some 3⟩ := by decide +kernel
  have zero : Settings.read "\x7b\"seed\": 0\x7d" = .ok ⟨some 0⟩ := by decide +kernel
  have noted : Settings.read "\x7b\"seed\": 0, \"note\": 1e999\x7d" = .ok ⟨some 0⟩ := by
    decide +kernel
  have twice : Settings.read "\x7b\"seed\": 3, \"seed\": 3\x7d" = .error .misshapen := by
    decide +kernel
  have passes : (Pmf.trial (Mass.ofFloat 0.5) : Pmf Bool Float).pick
      (Source.next (ChaCha.seeded 3)).1 = .ok true := by decide +kernel
  have fails : (Pmf.trial (Mass.ofFloat 0.5) : Pmf Bool Float).pick
      (Source.next (ChaCha.seeded 0)).1 = .ok false := by decide +kernel
  have plain : (⟨"coin.json", some "ei.json", none, false, none⟩ : Invocation).text
      (.bool (Pmf.certain true)) ++ "\n" = "\x7btrue 100%\x7d\n" := by decide +kernel
  have summary : (⟨"coin.json", some "ei.json", some 3, true, some "out.txt"⟩ : Invocation).text
      (.bool (Pmf.certain true)) ++ "\n" = coinSummary := by decide +kernel
  have refined {arguments : List String} {invocation : Invocation}
      (parsed : Request.parse arguments = .ok (.run invocation)) (settings : String) :=
    (@call_refines _ ChaCha _ _ Law.cumulative _ _ parsed (ChaCha.seeded 1)).2.1
      (coinFiles settings)
  refine ⟨?_, ?_, ?_, ?_, ?_⟩
  · rw [← plain]
    exact (refined configured _).printed _ (reaches_coin rfl rfl three rfl passes _) rfl
  · exact (refined configured _).rejected (reaches_coin rfl rfl zero rfl fails _)
  · rw [← summary]
    exact (refined overridden _).stored _ _ (reaches_coin rfl rfl noted rfl passes _) rfl rfl
  · refine (refined configured _).unconfigured fun seed given => ?_
    rw [configured_coin rfl, twice] at given
    cases given
  · exact (call_refines Law.cumulative configured (ChaCha.seeded 1)).2.2.2.2 (coinFiles "[3]")
      (ChaCha.seeded 1) (some 3) none seeded ⟨rfl, rfl, rfl⟩ ((configured_coin rfl).mpr three)
      (.inl ⟨rfl, rfl⟩) (.inl ⟨3, rfl, rfl⟩)

end CommandLine
end Chance
