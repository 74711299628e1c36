import Chance.Proofs.Calls

/-!
# Statuses of a call

The causes for which a call can end with another status than zero, and what its status and its
diagnostics tell of them.  A rejected observation ends with the status 2, and among the calls that
load a program it is alone with it; arguments that are no call have the same status, and only the
diagnostics tell the two apart.

* `Runs`                 a call evaluates its program, with this result;
* `Fails`                what each cause is, stage by stage;
* `call_of_fails`        a call that fails ends silently with the status of its cause;
* `fails_of_status`      each status other than zero has a cause;
* `status_two`           what the status 2 tells.
-/

namespace Chance
namespace CommandLine

variable {σ : Type} [Source σ]

/-! ## Evaluations -/

/-- the result of a program, on the source of the seed or, where there is none, on a fresh one -/
def evaluated (F : Cumulative) (p : Program) (seed : Option UInt64) (fresh : σ) :
    Except (Fault Float) (Value Float) :=
  match seed with
  | some n => (p.eval F (ChaCha.seeded n)).1
  | none => (p.eval F fresh).1

theorem outcome_eq (F : Cumulative) (p : Program) (seed : Option UInt64) (fresh : σ) :
    outcome F p seed fresh = .ofResult (evaluated F p seed fresh) := by
  cases seed <;> rfl

/-- The arguments ask for a run, its settings and its program are loaded, and the program evaluates
to this result. -/
def Runs (F : Cumulative) (arguments : List String) (files : Files) (fresh : σ)
    (invocation : Invocation) (r : Except (Fault Float) (Value Float)) : Prop :=
  Request.parse arguments = .ok (.run invocation) ∧
    ∃ seed p, Configured invocation files seed ∧ Loaded invocation files p ∧
      evaluated F p (invocation.seed.or seed) fresh = r

theorem call_of_runs {F : Cumulative} {arguments : List String} {files : Files} {fresh : σ}
    {invocation : Invocation} {r : Except (Fault Float) (Value Float)}
    (h : Runs F arguments files fresh invocation r) :
    call F arguments files fresh = conclude files invocation (.ofResult r) := by
  obtain ⟨parsed, seed, p, configured, loaded, rfl⟩ := h
  rw [call_of_run F parsed, run_of_loaded F configured loaded, outcome_eq]

/-! ## Causes -/

/-- why a call does not end with zero -/
inductive Cause where
  /-- the arguments are no call -/
  | misused
  /-- the settings cannot be loaded -/
  | unconfigured
  /-- the program cannot be loaded -/
  | unloaded
  /-- an observation rejected the run -/
  | rejected
  /-- the program or its data are at fault -/
  | defect
  /-- a cumulative probability was asked for where there is none -/
  | undefined
  /-- the result cannot be written -/
  | unwritable
deriving DecidableEq, Repr

def Cause.status : Cause → UInt32
  | .misused | .rejected => 2
  | .undefined => 101
  | .unconfigured | .unloaded | .defect | .unwritable => 1

theorem Cause.status_ne_zero (c : Cause) : c.status ≠ 0 := by
  cases c <;> decide

theorem Cause.status_eq_two_iff {c : Cause} : c.status = 2 ↔ c = .misused ∨ c = .rejected := by
  cases c <;> decide

/-- a call fails for this cause -/
inductive Fails (F : Cumulative) (arguments : List String) (files : Files) (fresh : σ) :
    Cause → Prop
  | misused {f : UsageFault} : Request.parse arguments = .error f →
      Fails F arguments files fresh .misused
  | unconfigured {invocation : Invocation} :
      Request.parse arguments = .ok (.run invocation) →
      (∀ seed, ¬ Configured invocation files seed) → Fails F arguments files fresh .unconfigured
  | unloaded {invocation : Invocation} {seed : Option UInt64} :
      Request.parse arguments = .ok (.run invocation) → Configured invocation files seed →
      (∀ p, ¬ Loaded invocation files p) → Fails F arguments files fresh .unloaded
  | rejected {invocation : Invocation} :
      Runs F arguments files fresh invocation (.error .observationFailed) →
      Fails F arguments files fresh .rejected
  | defect {invocation : Invocation} {f : Fault Float} :
      Runs F arguments files fresh invocation (.error f) → f ≠ .observationFailed →
      (∀ law x, f ≠ .noCumulative law x) → Fails F arguments files fresh .defect
  | undefined {invocation : Invocation} {law : Law} {x : Float} :
      Runs F arguments files fresh invocation (.error (.noCumulative law x)) →
      Fails F arguments files fresh .undefined
  | unwritable {invocation : Invocation} {v : Value Float} {path : String} :
      Runs F arguments files fresh invocation (.ok v) → invocation.output = some path →
      files.writable path = false → Fails F arguments files fresh .unwritable

/-- the line that tells a rejected observation -/
def rejectionLine : String := "Runtime error: " ++ (Fault.observationFailed : Fault Float).message

/-! ## The status of a cause -/

theorem ofResult_defect {f : Fault Float} (h : f ≠ .observationFailed) :
    Ending.ofResult (.error f) = .fault f := by
  cases f with
  | observationFailed => exact absurd rfl h
  | _ => rfl

/-- a call that fails ends silently with the status of its cause -/
theorem call_of_fails {F : Cumulative} {arguments : List String} {files : Files} {fresh : σ}
    {c : Cause} (h : Fails F arguments files fresh c) :
    (call F arguments files fresh).Silent c.status := by
  cases h with
  | misused parsed =>
    unfold call
    rw [parsed]
    exact ⟨rfl, rfl, rfl⟩
  | unconfigured parsed unconfigured =>
    rw [call_of_run F parsed]
    exact run_of_unconfigured F unconfigured fresh
  | unloaded parsed configured unloaded =>
    rw [call_of_run F parsed]
    exact run_of_unloaded F unloaded fresh
  | rejected runs =>
    rw [call_of_runs runs]
    exact ⟨rfl, rfl, rfl⟩
  | defect runs observed defined =>
    rw [call_of_runs runs, ofResult_defect observed]
    exact conclude_of_fault files _ defined
  | undefined runs =>
    rw [call_of_runs runs]
    exact ⟨rfl, rfl, rfl⟩
  | unwritable runs output unwritable =>
    have delivered := (call_of_runs runs).trans (conclude_value files _ _)
    rw [delivered, output]
    exact deliver_of_unwritable unwritable _

/-- a result that cannot be delivered cannot be written -/
theorem status_deliver {files : Files} {output : Option String} {text : String}
    (h : (deliver files output text).status ≠ 0) :
    ∃ path, output = some path ∧ files.writable path = false := by
  cases output with
  | none => exact absurd rfl h
  | some path =>
    refine ⟨path, rfl, Bool.eq_false_iff.mpr fun writable => h ?_⟩
    rw [deliver_of_writable writable]

/-- each status other than zero has a cause -/
theorem fails_of_status {F : Cumulative} {arguments : List String} {files : Files} {fresh : σ}
    (h : (call F arguments files fresh).status ≠ 0) : ∃ c, Fails F arguments files fresh c := by
  cases parsed : Request.parse arguments with
  | error f => exact ⟨_, .misused parsed⟩
  | ok request => cases request with
    | run invocation =>
      by_cases configured : ∃ seed, Configured invocation files seed
      · obtain ⟨seed, configured⟩ := configured
        by_cases loaded : ∃ p, Loaded invocation files p
        · obtain ⟨p, loaded⟩ := loaded
          have runs : Runs F arguments files fresh invocation _ :=
            ⟨parsed, seed, p, configured, loaded, rfl⟩
          generalize evaluated F p (invocation.seed.or seed) fresh = r at runs
          rw [call_of_runs runs] at h
          cases r with
          | ok v =>
            obtain ⟨path, output, unwritable⟩ := status_deliver h
            exact ⟨_, .unwritable runs output unwritable⟩
          | error f => cases f with
            | observationFailed => exact ⟨_, .rejected runs⟩
            | noCumulative law x => exact ⟨_, .undefined runs⟩
            | _ => exact ⟨_, .defect runs nofun nofun⟩
        · exact ⟨_, .unloaded parsed configured (not_exists.mp loaded)⟩
      · exact ⟨_, .unconfigured parsed (not_exists.mp configured)⟩
    | _ =>
      unfold call at h
      rw [parsed] at h
      exact absurd rfl h

/-! ## What the statuses tell -/

theorem diagnostics_of_rejected {F : Cumulative} {arguments : List String} {files : Files}
    {fresh : σ} (h : Fails F arguments files fresh .rejected) :
    (call F arguments files fresh).diagnostics = [rejectionLine] := by
  cases h with
  | rejected runs =>
    rw [call_of_runs runs]
    rfl

/-- a usage line starts with another word -/
theorem diagnostics_of_misused {F : Cumulative} {arguments : List String} {files : Files}
    {fresh : σ} (h : Fails F arguments files fresh .misused) :
    (call F arguments files fresh).diagnostics ≠ [rejectionLine] := by
  cases h with
  | @misused f parsed =>
    intro same
    unfold call at same
    rw [parsed] at same
    have line : "error: " ++ f.message = rejectionLine := List.head_eq_of_cons_eq same
    have first := congrArg (fun s => s.toList.head?) line
    have usage : "error: ".toList.head? = some 'e' := by decide
    rw [String.toList_append, List.head?_append, usage, Option.some_or] at first
    exact absurd first (by decide)

/-- **What the status of a call tells.**  It is zero just if nothing fails, and otherwise that of
the cause.  The status 2 says that an observation rejected the run or that the arguments are no
call, and nothing else has it; which of the two it was stands in the diagnostics alone. -/
theorem status_two (F : Cumulative) (arguments : List String) (files : Files) (fresh : σ) :
    ((call F arguments files fresh).status = 2 ↔
      Fails F arguments files fresh .misused ∨ Fails F arguments files fresh .rejected) ∧
    (Fails F arguments files fresh .rejected ↔ (call F arguments files fresh).status = 2 ∧
      (call F arguments files fresh).diagnostics = [rejectionLine]) ∧
    (∀ c, Fails F arguments files fresh c →
      (call F arguments files fresh).Silent c.status) ∧
    ((call F arguments files fresh).status = 0 ↔ ∀ c, ¬ Fails F arguments files fresh c) := by
  have two : (call F arguments files fresh).status = 2 ↔
      Fails F arguments files fresh .misused ∨ Fails F arguments files fresh .rejected := by
    constructor
    · intro h
      obtain ⟨c, failed⟩ := fails_of_status (by rw [h]; decide)
      have status := (call_of_fails failed).1
      rcases Cause.status_eq_two_iff.mp (status.symm.trans h) with rfl | rfl
      · exact .inl failed
      · exact .inr failed
    · rintro (failed | failed) <;> exact (call_of_fails failed).1
  refine ⟨two, ?_, fun c => call_of_fails, ?_⟩
  · constructor
    · exact fun failed => ⟨two.mpr (.inr failed), diagnostics_of_rejected failed⟩
    · rintro ⟨status, line⟩
      rcases two.mp status with failed | failed
      · exact absurd line (diagnostics_of_misused failed)
      · exact failed
  · constructor
    · intro status c failed
      exact c.status_ne_zero ((call_of_fails failed).1.symm.trans status)
    · intro none
      refine Decidable.byContradiction fun status => ?_
      obtain ⟨c, failed⟩ := fails_of_status status
      exact none c failed

/-- A run that names no program ends with the status of a rejected observation, though nothing was
loaded. -/
theorem run_without_program :
    ¬ ((call Law.cumulative ["run"] (Directory.mk []).files (ChaCha.seeded 0)).status = 2 ↔
      Fails Law.cumulative ["run"] (Directory.mk []).files (ChaCha.seeded 0) .rejected) := by
  intro same
  have parsed : Request.parse ["run"] = .error .missingInput := rfl
  have misused : Fails Law.cumulative ["run"] (Directory.mk []).files (ChaCha.seeded 0) .misused :=
    .misused parsed
  exact diagnostics_of_misused misused
    (diagnostics_of_rejected (same.mp (call_of_fails misused).1))

end CommandLine
end Chance
