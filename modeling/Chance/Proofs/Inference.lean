import Chance.Proofs.Lifting
import Mathlib.Tactic.NormNum

/-!
# Inference and possible worlds

Evaluation never builds a world: it merges equal outcomes node by node.  What it computes is the
sum over all worlds nevertheless.

* `Represents`            a program and a value that stands for all its worlds;
* `Enumerates`            the same for a result, which may be the failure of a world;
* `eval_enumerates`       evaluation enumerates the worlds of a plain program;
* `Agrees`                masses are probabilities, recorded outcomes are possible ones;
* `possible_worlds`       the samples of plain programs agree with their worlds, and faults are
                          those of worlds.
-/

namespace Chance

open Value Carrier

variable {σ : Type} [Source σ]

/-! ## Programs -/

namespace Program

/-- every world gives one of the outcomes of a value -/
def Covers (p : Program) (v : Value Rat) : Prop :=
  ∀ ω, ω.length = p.samples → ∃ u, p.inWorld ω = .ok u ∧ v.Records u

def CoversAll (ps : List Program) (vs : List (Value Rat)) : Prop :=
  ∀ ω, ω.length = samplesAll ps → ∃ us, inWorldAll ps ω = .ok us ∧ RecordsAll vs us

/-- every outcome of a value is given by a world -/
def Reaches (p : Program) (v : Value Rat) : Prop :=
  ∀ u, v.Records u → ∃ ω, ω.length = p.samples ∧ p.inWorld ω = .ok u

def ReachesAll (ps : List Program) (vs : List (Value Rat)) : Prop :=
  ∀ us, RecordsAll vs us → ∃ ω, ω.length = samplesAll ps ∧ inWorldAll ps ω = .ok us

section

variable {a : Program} {as args : List Program} {op : Operation} {qs : List Float} {v : Value Rat}
  {vs : List (Value Rat)}

theorem coversAll_nil : CoversAll [] [] := by
  intro ω _
  exact ⟨[], by rw [inWorldAll], .nil⟩

theorem coversAll_cons (first : a.Covers v) (rest : CoversAll as vs) :
    CoversAll (a :: as) (v :: vs) := by
  intro ω hω
  rw [samplesAll] at hω
  obtain ⟨ω₁, ω₂, rfl, h₁, h₂⟩ := exists_append hω
  obtain ⟨u, hu, recorded⟩ := first ω₁ h₁
  obtain ⟨us, hus, recordedAll⟩ := rest ω₂ h₂
  exact ⟨u :: us, inWorldAll_cons_ok h₁ hu hus, .cons recorded recordedAll⟩

theorem covers_call (operands : CoversAll args vs) (lifts : Lifts op qs vs v)
    (own : qs.length = op.samples) : (call op args).Covers v := by
  intro ω hω
  rw [samples] at hω
  obtain ⟨ω₁, ω₂, rfl, h₁, h₂⟩ := exists_append hω
  obtain ⟨us, hus, recorded⟩ := operands ω₁ h₁
  obtain ⟨u, hu, result⟩ := lifts.covers us ω₂ recorded (h₂.trans own.symm)
  exact ⟨u, (inWorld_call_ok h₁ hus ω₂).trans hu, result⟩

theorem reachesAll_nil : ReachesAll [] [] := by
  intro us recorded
  cases recorded
  exact ⟨[], by rw [samplesAll]; rfl, by rw [inWorldAll]⟩

theorem reachesAll_cons (first : a.Reaches v) (rest : ReachesAll as vs) :
    ReachesAll (a :: as) (v :: vs) := by
  intro us recorded
  cases recorded with
  | cons head tail =>
    obtain ⟨ω₁, h₁, hu⟩ := first _ head
    obtain ⟨ω₂, h₂, hus⟩ := rest _ tail
    refine ⟨ω₁ ++ ω₂, ?_, inWorldAll_cons_ok h₁ hu hus⟩
    rw [List.length_append, h₁, h₂, samplesAll]

theorem reaches_call (operands : ReachesAll args vs) (lifts : Lifts op qs vs v)
    (own : qs.length = op.samples) (other : op ≠ .not) : (call op args).Reaches v := by
  intro u recorded
  obtain ⟨us, ω₂, hus, h₂, hu⟩ := lifts.reaches other u recorded
  obtain ⟨ω₁, h₁, found⟩ := operands us hus
  refine ⟨ω₁ ++ ω₂, ?_, (inWorld_call_ok h₁ found ω₂).trans hu⟩
  rw [List.length_append, h₁, h₂, own, samples]

end

/-- A program and a value of it: the worlds give its outcomes, with their weights the masses, and
the worlds of the loosened program give all the outcomes that are recorded. -/
structure Represents (p : Program) (v : Value Rat) : Prop where
  covers : p.Covers v
  mean : ∀ g, expect v.outcomes g = p.mean g
  coversLoosened : p.loosened.Covers v
  reaches : p.loosened.Reaches v

structure RepresentsAll (ps : List Program) (vs : List (Value Rat)) : Prop where
  covers : CoversAll ps vs
  mean : ∀ g, expectAll vs g = meanAll ps g
  coversLoosened : CoversAll (loosenedAll ps) vs
  reaches : ReachesAll (loosenedAll ps) vs

/-- how the result of a program stands to its worlds: a value represents them, a failure is that
of one of them -/
inductive Enumerates (p : Program) : Except (Fault Rat) (Value Rat) → Prop
  | value {v : Value Rat} (represents : p.Represents v) : Enumerates p (.ok v)
  | failure {why : ArithFault} {ω : List Bool} (length : ω.length = p.samples)
      (failed : p.inWorld ω = .error (.arithmetic why)) : Enumerates p (.error (.arithmetic why))

inductive EnumeratesAll (ps : List Program) : Except (Fault Rat) (List (Value Rat)) → Prop
  | values {vs : List (Value Rat)} (represents : RepresentsAll ps vs) : EnumeratesAll ps (.ok vs)
  | failure {why : ArithFault} {ω : List Bool} (length : ω.length = samplesAll ps)
      (failed : inWorldAll ps ω = .error (.arithmetic why)) :
      EnumeratesAll ps (.error (.arithmetic why))

/-- an application in a plain program, with the parameter of its own choice -/
theorem applied_of_plain {F : Cumulative} {op : Operation} {args : List Program}
    {vs : List (Value Rat)} {k : StaticKind} (s : σ) (plain : op.plain = true)
    (plainArgs : plainAll args = true) (kinds : kinds? args = some (vs.map Value.staticKind))
    (h : op.kind? (vs.map Value.staticKind) = some k) (sharp : ∀ v ∈ vs, v.Sharp)
    (covers : CoversAll args vs) :
    Applied op (op.chances (inWorldAll args [])) vs (op.apply F vs s).1 := by
  obtain ⟨discrete, -, sure⟩ := factsAll_of_plain plainArgs kinds
  by_cases isSample : op = .sample
  · subst isSample
    rcases vs with _ | ⟨v, _ | ⟨w, vs⟩⟩
    · cases h
    · cases v with
      | distribution d =>
        have notContinuous : d.declares ≠ .continuous := by
          intro e
          have hd := discrete (.distribution d.declares) (List.mem_singleton.mpr rfl)
          rw [e] at hd
          cases hd
        have none : samplesAll args = 0 := sure fun i hi => by
          rw [List.mem_singleton.mp hi]
          rfl
        obtain ⟨us, found, recorded⟩ := covers [] none.symm
        have operand : List.Forall₂ Sure [.distribution d] [.distribution d] :=
          .cons (sure_distribution d) .nil
        rw [found, (recordsAll_of_sure operand).mp recorded]
        exact applied_discrete notContinuous
      | _ => cases h
    · cases h
  · have none : op.chances (inWorldAll args []) = [] := by
      have length := Operation.length_chances op (inWorldAll args [])
      rw [Operation.samples, if_neg isSample] at length
      exact List.length_eq_zero_iff.mp length
    rw [none]
    refine Operation.apply_applied s plain isSample sharp (fun v hv => ?_) h
    exact discrete _ (List.mem_map_of_mem hv)

theorem coin_inWorld (b : Bool) : coin.inWorld [b] = .ok (.bool b) := rfl

theorem represents_const {j : Json} {l : Literal} (h : Literal.ofJson j = .ok l) :
    (const j).Represents l.toValue := by
  have certain := sure_literal l
  have value (ω : List Bool) : (const j).inWorld ω = .ok (.ofLiteral l) := by rw [inWorld, h]
  have covers : (const j).Covers l.toValue := fun ω _ =>
    ⟨_, value ω, (records_of_sure certain).mpr rfl⟩
  have same : (const j).loosened = const j := by rw [loosened]
  refine ⟨covers, fun g => ?_, ?_, ?_⟩
  · rw [mean_const h, certain, expect_cons, expect_nil]
    ring
  · rw [same]
    exact covers
  · intro u hu
    rw [same, (records_of_sure certain).mp hu]
    exact ⟨[], by rw [samples]; rfl, value []⟩

/-- a call, from its operands and its application -/
theorem enumerates_call {op : Operation} {args : List Program} {vs : List (Value Rat)}
    {r : Except (Fault Rat) (Value Rat)} (plainArgs : plainAll args = true)
    (kinds : kinds? args = some (vs.map Value.staticKind)) (operands : RepresentsAll args vs)
    (applied : Applied op (op.chances (inWorldAll args [])) vs r) :
    (call op args).Enumerates r := by
  have own := Operation.length_chances op (inWorldAll args [])
  cases applied with
  | failure recorded numbers failed =>
    obtain ⟨-, loose, -⟩ := factsAll_of_plain plainArgs kinds
    have same : loosenedAll args = args := loose fun i hi => by
      obtain ⟨v, hv, rfl⟩ := List.mem_map.mp hi
      exact numbers v hv
    obtain ⟨ω, hω, found⟩ := same ▸ operands.reaches _ recorded
    have length : (ω ++ List.replicate op.samples false).length = (call op args).samples := by
      rw [length_pad hω, samples]
    exact .failure length ((inWorld_call_ok hω found _).trans (failed _))
  | @value v lifts =>
    have mean (g : Scalar → Rat) : expect v.outcomes g = (call op args).mean g := by
      rw [lifts.mean, operands.mean, mean_call]
    by_cases isNot : op = .not
    · -- the coin stands for the negation, and both record both truth values
      have flips := lifts.flips isNot
      have tossed : (call op args).loosened = coin := by rw [loosened, isNot, loosenedCall]
      refine .value ⟨covers_call operands.covers lifts own, mean, ?_, ?_⟩
      · rw [tossed]
        intro ω hω
        obtain ⟨b, rfl⟩ := List.length_eq_one_iff.mp hω
        exact ⟨.bool b, coin_inWorld b, (flips _).mpr ⟨b, rfl⟩⟩
      · rw [tossed]
        intro u hu
        obtain ⟨b, rfl⟩ := (flips u).mp hu
        exact ⟨[b], rfl, coin_inWorld b⟩
    · have kept : (call op args).loosened = call op (loosenedAll args) := by
        rw [loosened, loosenedCall_of_ne isNot]
      refine .value ⟨covers_call operands.covers lifts own, mean, ?_, ?_⟩
      · rw [kept]
        exact covers_call operands.coversLoosened lifts own
      · rw [kept]
        exact reaches_call operands.reaches lifts own isNot

mutual

/-- evaluation enumerates the worlds -/
theorem eval_enumerates (F : Cumulative) : ∀ (p : Program) {k : StaticKind} (s : σ),
    p.plain = true → p.kind? = some k → p.Enumerates (p.eval F s).1
  | .const j, k, s, _, h => by
    rw [eval_const]
    unfold Value.constant
    rw [kind?] at h
    cases hj : Literal.ofJson j with
    | ok l => exact .value (represents_const hj)
    | error why =>
      rw [hj] at h
      cases h
  | .call op args, k, s, hp, h => by
    rw [plain, Bool.and_eq_true] at hp
    obtain ⟨ks, hks, hk⟩ := kind?_call h
    have all := evalAll_enumerates F args s hp.2 hks
    have conforms := evalAll_conforms (M := Rat) F args s
    rw [hks] at conforms
    rcases hr : (evalAll F args s : Evaluated Rat σ (List (Value Rat))) with ⟨f | vs, t⟩
    · -- operands that fail do so in a world of theirs, whatever the operation would choose
      rw [hr] at all
      rw [eval_call_error hr]
      cases all with
      | @failure why ω length failed =>
        have longer : (ω ++ List.replicate op.samples false).length = (call op args).samples := by
          rw [length_pad length, samples]
        exact .failure longer (inWorld_call_error length failed _)
    · rw [hr] at all conforms
      rw [eval_call_ok hr]
      cases all with
      | values represents => cases conforms with
        | values sharp =>
          exact enumerates_call hp.2 hks represents
            (applied_of_plain t hp.1 hp.2 hks hk sharp represents.covers)

theorem evalAll_enumerates (F : Cumulative) : ∀ (ps : List Program) {ks : List StaticKind} (s : σ),
    plainAll ps = true → kinds? ps = some ks → EnumeratesAll ps (evalAll F ps s).1
  | [], ks, s, _, _ => by
    rw [evalAll_nil]
    have none : loosenedAll [] = [] := by rw [loosenedAll]
    refine .values ⟨coversAll_nil, fun g => (meanAll_nil g).symm, ?_, ?_⟩
    · rw [none]
      exact coversAll_nil
    · rw [none]
      exact reachesAll_nil
  | a :: as, ks, s, hp, h => by
    rw [plainAll, Bool.and_eq_true] at hp
    obtain ⟨i, is, hi, his, rfl⟩ := kinds?_cons h
    have first := eval_enumerates F a s hp.1 hi
    rcases hr : (eval F a s : Evaluated Rat σ (Value Rat)) with ⟨f | v, t⟩
    · rw [hr] at first
      rw [evalAll_cons_error hr]
      cases first with
      | @failure why ω length failed =>
        have longer : (ω ++ List.replicate (samplesAll as) false).length =
            samplesAll (a :: as) := by
          rw [length_pad length, samplesAll]
        exact .failure longer (inWorldAll_cons_error length failed _)
    · have rest := evalAll_enumerates F as t hp.2 his
      rw [hr] at first
      cases first with
      | value head =>
        rcases hs : (evalAll F as t : Evaluated Rat σ (List (Value Rat))) with ⟨f | vs, u⟩
        · rw [hs] at rest
          rw [evalAll_cons_tail hr hs]
          cases rest with
          | @failure why ω length failed =>
            -- the first operand has a value in all its worlds, so that any of them will do
            have first : (List.replicate a.samples false).length = a.samples :=
              List.length_replicate
            obtain ⟨w, found, -⟩ := head.covers _ first
            have longer : (List.replicate a.samples false ++ ω).length = samplesAll (a :: as) := by
              rw [List.length_append, first, length, samplesAll]
            exact .failure longer (inWorldAll_cons_tail first found failed)
        · rw [hs] at rest
          rw [evalAll_cons_ok hr hs]
          cases rest with
          | values tail =>
            refine .values ⟨coversAll_cons head.covers tail.covers, fun g => ?_, ?_, ?_⟩
            · rw [meanAll_cons, ← head.mean]
              exact expect_congr fun u _ => tail.mean _
            · rw [loosenedAll]
              exact coversAll_cons head.coversLoosened tail.coversLoosened
            · rw [loosenedAll]
              exact reachesAll_cons head.reaches tail.reaches

end

/-! ## Samples and worlds -/

end Program

/-- is an outcome recorded, whatever its mass? -/
def Pmf.Recorded {α M : Type} [Outcome α] (s : Pmf α M) (w : α) : Prop :=
  ∃ a ∈ s.values, Outcome.same a w = true

namespace Program

/-- does some world give the outcome? -/
def Possible (p : Program) (w : Scalar) : Prop := ∃ ω ∈ p.worlds, p.yields w ω = true

/-- A sample and the worlds of a program: masses are probabilities, what some world gives is
recorded, and nothing is recorded but what a world of the loosened program gives. -/
structure Agrees {α : Type} [Outcome α] (p : Program) (scalar : α → Scalar) (t : Pmf α Rat) :
    Prop where
  mass : ∀ w, t.get w = p.probability (scalar w)
  possible : ∀ w, p.Possible (scalar w) → t.Recorded w
  recorded : ∀ w, t.Recorded w ↔ p.loosened.Possible (scalar w)

section

variable {α : Type} [Outcome α] [Carrier α] {p : Program} {t : Pmf α Rat}

theorem recorded_of_covers (covers : p.Covers (value t)) {w : α} (h : p.Possible (scalar w)) :
    t.Recorded w := by
  obtain ⟨ω, hω, yields⟩ := h
  obtain ⟨u, found, recorded⟩ := covers ω (mem_worlds.mp hω)
  obtain ⟨a, ha, rfl⟩ := (records_value t u).mp recorded
  unfold Program.yields at yields
  rw [found] at yields
  exact ⟨a, ha, (same_scalar a w).symm.trans yields⟩

theorem possible_of_reaches (reaches : p.Reaches (value t)) {w : α} (h : t.Recorded w) :
    p.Possible (scalar w) := by
  obtain ⟨a, ha, same⟩ := h
  obtain ⟨ω, hω, found⟩ := reaches (scalar a) ((records_value t _).mpr ⟨a, ha, rfl⟩)
  refine ⟨ω, mem_worlds.mpr hω, ?_⟩
  unfold Program.yields
  rw [found]
  exact (same_scalar a w).trans same

theorem agrees_of_represents (h : p.Represents (value t)) : p.Agrees scalar t := by
  refine ⟨fun w => ?_, fun w => recorded_of_covers h.covers, fun w => ?_⟩
  · rw [Pmf.get_eq_expect, probability_eq_mean, ← h.mean, expect_value]
    refine expect_congr fun a _ => ?_
    rw [same_scalar]
  · exact ⟨possible_of_reaches h.reaches, recorded_of_covers h.coversLoosened⟩

end

mutual

/-- is there no negation in a program? -/
def positive : Program → Bool
  | .const _ => true
  | .call op args => op != .not && positiveAll args

def positiveAll : List Program → Bool
  | [] => true
  | a :: as => positive a && positiveAll as

end

mutual

theorem loosened_of_positive : ∀ {p : Program}, p.positive = true → p.loosened = p
  | .const j, _ => by rw [loosened]
  | .call op args, h => by
    rw [positive, Bool.and_eq_true, bne_iff_ne] at h
    rw [loosened, loosenedAll_of_positive h.2, loosenedCall_of_ne h.1]

theorem loosenedAll_of_positive : ∀ {ps : List Program}, positiveAll ps = true →
    loosenedAll ps = ps
  | [], _ => by rw [loosenedAll]
  | a :: as, h => by
    rw [positiveAll, Bool.and_eq_true] at h
    rw [loosenedAll, loosened_of_positive h.1, loosenedAll_of_positive h.2]

end

/-- **Enumeration computes what possible worlds mean.**  In exact arithmetic, the mass of an
outcome is the sum of the weights of the worlds in which the program evaluates to it.  An outcome is
recorded if some world gives it, also a world without weight; a negation records both truth values,
and beyond that nothing is recorded that no world gives.  A program fails for its arithmetic, and it
fails if and only if it does so in some world. -/
theorem possible_worlds {p : Program} {k : StaticKind} (plain : p.plain = true)
    (kinded : p.kind? = some k) (F : Cumulative) (s : σ) :
    (∀ t : Pmf Bool Rat, (p.eval F s).1 = .ok (.bool t) → p.Agrees .bool t) ∧
    (∀ t : Pmf Int64 Rat, (p.eval F s).1 = .ok (.int t) → p.Agrees .int t) ∧
    (∀ t : Pmf Double Rat, (p.eval F s).1 = .ok (.float t) → p.Agrees .float t) ∧
    (p.positive = true → p.loosened = p) ∧
    (∀ f : Fault Rat, (p.eval F s).1 = .error f → ∃ why, f = .arithmetic why ∧
      ∃ ω ∈ p.worlds, p.inWorld ω = .error (.arithmetic why)) ∧
    (∀ ω ∈ p.worlds, ∀ e, p.inWorld ω = .error e →
      ∃ why, (p.eval F s).1 = .error (.arithmetic why : Fault Rat)) := by
  have enumerates := eval_enumerates F p s plain kinded
  have represents (v : Value Rat) (h : (p.eval F s).1 = .ok v) : p.Represents v := by
    rw [h] at enumerates
    cases enumerates with
    | value represents => exact represents
  refine ⟨?_, ?_, ?_, loosened_of_positive, ?_, ?_⟩
  · intro t h
    exact agrees_of_represents (represents (value t) h)
  · intro t h
    exact agrees_of_represents (represents (value t) h)
  · intro t h
    exact agrees_of_represents (represents (value t) h)
  · intro f h
    rw [h] at enumerates
    cases enumerates with
    | @failure why ω length failed => exact ⟨why, rfl, ω, mem_worlds.mpr length, failed⟩
  · intro ω hω e failed
    cases h : (p.eval F s : Evaluated Rat σ (Value Rat)).1 with
    | ok v =>
      obtain ⟨u, found, -⟩ := (represents v h).covers ω (mem_worlds.mp hω)
      rw [found] at failed
      cases failed
    | error f =>
      rw [h] at enumerates
      cases enumerates with
      | @failure why ω' length failed' => exact ⟨why, rfl⟩

def die (p : Float) : Program := call .sample [call .bernoulli [const (.number (.float p))]]

/-- is the sum of two dice less than two? -/
def diceBelowTwo : Program :=
  call .lessThan [call .add [die 0.5, die 0.25], const (.number (.integer 2))]

theorem possible_worlds_diceBelowTwo :
    diceBelowTwo.plain = true ∧ diceBelowTwo.kind? = some .bool ∧
    ∃ t : Pmf Bool Rat,
      (diceBelowTwo.eval (fun _ _ => none) (⟨fun _ => 0.5, 0⟩ : Sequence)).1 = .ok (.bool t) ∧
      t.get true = 7 / 8 ∧ t.Recorded true ∧ t.Recorded false := by
  have kinded : diceBelowTwo.kind? = some .bool := by decide
  obtain ⟨bools, -, -, -, failures, -⟩ := possible_worlds (p := diceBelowTwo) (by decide) kinded
    (fun _ _ => none) (⟨fun _ => 0.5, 0⟩ : Sequence)
  have conforms := eval_conforms (M := Rat) (fun _ _ => none) diceBelowTwo
    (⟨fun _ => 0.5, 0⟩ : Sequence)
  refine ⟨by decide, kinded, ?_⟩
  cases h : (diceBelowTwo.eval (fun _ _ => none) (⟨fun _ => 0.5, 0⟩ : Sequence) :
      Evaluated Rat Sequence (Value Rat)).1 with
  | error f =>
    -- none of the four worlds fails
    obtain ⟨why, -, ω, hω, failed⟩ := failures f h
    have cases4 : ω = [true, true] ∨ ω = [true, false] ∨ ω = [false, true] ∨
        ω = [false, false] := by
      simpa [Program.worlds, Chance.worlds, diceBelowTwo, die, samples, samplesAll,
        Operation.samples] using hω
    rcases cases4 with rfl | rfl | rfl | rfl <;> cases failed
  | ok v =>
    rw [h, kinded] at conforms
    generalize hk : some StaticKind.bool = k? at conforms
    cases conforms
    cases v with
    | bool t =>
      have agrees := bools t h
      have half : exactValue 0.5 = 1 / 2 := by
        have digits : exactValue 0.5 = (2 ^ 52 : Nat) * (2 : Rat) ^ (-53 : Int) := rfl
        rw [digits]
        norm_num
      have quarter : exactValue 0.25 = 1 / 4 := by
        have digits : exactValue 0.25 = (2 ^ 52 : Nat) * (2 : Rat) ^ (-54 : Int) := rfl
        rw [digits]
        norm_num
      have sum : diceBelowTwo.probability (.bool true) =
          exactValue 0.5 * ((1 - exactValue 0.25) * 1) +
            ((1 - exactValue 0.5) * (exactValue 0.25 * 1) +
              ((1 - exactValue 0.5) * ((1 - exactValue 0.25) * 1) + 0)) := rfl
      refine ⟨t, rfl, ?_, ?_, ?_⟩
      · rw [agrees.mass, sum, half, quarter]
        norm_num
      · exact agrees.possible true ⟨[false, false], mem_worlds.mpr rfl, rfl⟩
      · exact agrees.possible false ⟨[true, true], mem_worlds.mpr rfl, rfl⟩
    | _ => cases hk

def negatedTruth : Program := call .not [const (.bool true)]

theorem recorded_without_world : negatedTruth.plain = true ∧ negatedTruth.kind? = some .bool ∧
    ∃ t : Pmf Bool Rat,
      (negatedTruth.eval (fun _ _ => none) (⟨fun _ => 0.5, 0⟩ : Sequence)).1 = .ok (.bool t) ∧
      t.Recorded true ∧ ¬ negatedTruth.Possible (.bool true) := by
  refine ⟨by decide, by decide, _, rfl, ⟨true, by decide, by decide⟩, ?_⟩
  rintro ⟨ω, hω, yields⟩
  cases yields

end Program
end Chance
