import Chance.Proofs.Plain

/-!
# Applications to scalars

An application acts on all outcomes of its operands at once.  It is compared with what its
operation does to scalars, one outcome for each operand.

* `Value.outcomes`        a value as scalars with masses;
* `Lifts`                 a value is what an operation makes of all outcomes of the operands;
* `Applied`               the same for a result, which may be the fault of some outcomes;
* `applied_tryCombine`, `applied_combine`, `applied_sure`   the three ways of the binary operations;
* `applied_not`, `applied_discrete`   the two operations that are no combinations;
* `apply_applied`         each plain application is `Applied`.
-/

namespace Chance

/-! ## Values as weighted scalars -/

namespace Value

/-- the outcomes of a value with their masses -/
def outcomes : Value Rat → List (Scalar × Rat)
  | .bool s => s.entries.map fun e => (.bool e.1, e.2)
  | .int s => s.entries.map fun e => (.int e.1, e.2)
  | .float s => s.entries.map fun e => (.float e.1, e.2)
  | .continuous _ => []
  | .distribution d => [(.distribution d, 1)]

/-- is a scalar among the outcomes, whatever its mass? -/
def Records (v : Value Rat) (u : Scalar) : Prop := u ∈ v.outcomes.map Prod.fst

/-- scalars, one among the outcomes of each value -/
def RecordsAll : List (Value Rat) → List Scalar → Prop := List.Forall₂ Records

/-- the sum of a function over the outcomes of independent values -/
def expectAll : List (Value Rat) → (List Scalar → Rat) → Rat
  | [], g => g []
  | v :: vs, g => expect v.outcomes fun u => expectAll vs fun us => g (u :: us)

/-- a value with one outcome, which is certain -/
def Sure (v : Value Rat) (u : Scalar) : Prop := v.outcomes = [(u, 1)]

theorem records_of_sure {v : Value Rat} {u w : Scalar} (h : v.Sure u) : v.Records w ↔ w = u := by
  unfold Records
  rw [h]
  exact List.mem_singleton

theorem recordsAll_of_sure {vs : List (Value Rat)} {us ws : List Scalar}
    (h : List.Forall₂ Sure vs us) : RecordsAll vs ws ↔ ws = us := by
  induction h generalizing ws with
  | nil => exact List.forall₂_nil_left_iff
  | cons first _ ih =>
    constructor
    · intro recorded
      cases recorded with
      | cons r rs => rw [(records_of_sure first).mp r, ih.mp rs]
    · rintro rfl
      exact .cons ((records_of_sure first).mpr rfl) (ih.mpr rfl)

theorem expectAll_of_sure {vs : List (Value Rat)} {us : List Scalar}
    (h : List.Forall₂ Sure vs us) (g : List Scalar → Rat) : expectAll vs g = g us := by
  induction h generalizing g with
  | nil => rfl
  | cons first _ ih =>
    show expect _ _ = _
    rw [first, expect_cons, expect_nil, ih]
    ring

theorem sure_distribution (d : Distribution) :
    (.distribution d : Value Rat).Sure (.distribution d) := rfl

end Value

/-- outcomes that a value records as scalars -/
class Carrier (α : Type) [Outcome α] where
  value : Pmf α Rat → Value Rat
  scalar : α → Scalar
  outcomes_value : ∀ s, (value s).outcomes = s.entries.map fun e => (scalar e.1, e.2)
  same_scalar : ∀ a b, (scalar a).same (scalar b) = Outcome.same a b

instance : Carrier Bool := ⟨.bool, .bool, fun _ => rfl, fun _ _ => rfl⟩
instance : Carrier Int64 := ⟨.int, .int, fun _ => rfl, fun _ _ => rfl⟩
instance : Carrier Double := ⟨.float, .float, fun _ => rfl, fun _ _ => rfl⟩

namespace Carrier

variable {α : Type} [Outcome α] [Carrier α]

theorem expect_value (s : Pmf α Rat) (g : Scalar → Rat) :
    expect (value s).outcomes g = expect s.entries fun a => g (scalar a) := by
  rw [outcomes_value, expect_map]

theorem records_value (s : Pmf α Rat) (u : Scalar) :
    (value s).Records u ↔ ∃ a ∈ s.values, scalar a = u := by
  unfold Value.Records Pmf.values
  rw [outcomes_value, List.map_map]
  simp only [List.mem_map, Function.comp_apply, exists_exists_and_eq_and]

theorem sure_value (a : α) : (value (Pmf.certain a)).Sure (scalar a) := by
  unfold Value.Sure
  rw [outcomes_value, Pmf.entries_certain_one]
  rfl

end Carrier

namespace Value

theorem sure_certain (x : Double) : (.float (Pmf.certain x) : Value Rat).Sure (.float x) :=
  Carrier.sure_value x

theorem sure_literal (l : Literal) : (l.toValue : Value Rat).Sure (.ofLiteral l) := by
  cases l with
  | bool b => exact Carrier.sure_value b
  | int n => exact Carrier.sure_value n
  | float x => exact Carrier.sure_value (Double.ofFloat x)

end Value

/-! ## Applications -/

open Value Carrier

/-- A value that an application gives, and what its operation does to scalars: there is a result
for all outcomes of the operands, sums over them are sums over the value, and no other outcome is
recorded.  Only a negation records both truth values whatever the operand is. -/
structure Lifts (op : Operation) (qs : List Float) (vs : List (Value Rat)) (v : Value Rat) :
    Prop where
  covers : ∀ us ω, RecordsAll vs us → ω.length = qs.length →
    ∃ u, op.onScalars us ω = .ok u ∧ v.Records u
  mean : ∀ g, expect v.outcomes g = expectAll vs (op.mean qs g)
  reaches : op ≠ .not → ∀ u, v.Records u →
    ∃ us ω, RecordsAll vs us ∧ ω.length = qs.length ∧ op.onScalars us ω = .ok u
  flips : op = .not → ∀ u, v.Records u ↔ ∃ b, u = .bool b

/-- how the result of an application stands to what its operation does to scalars -/
inductive Applied (op : Operation) (qs : List Float) (vs : List (Value Rat)) :
    Except (Fault Rat) (Value Rat) → Prop
  | value {v : Value Rat} (lifts : Lifts op qs vs v) : Applied op qs vs (.ok v)
  | failure {why : ArithFault} {us : List Scalar} (recorded : RecordsAll vs us)
      (numbers : ∀ v ∈ vs, v.staticKind ≠ .bool)
      (failed : ∀ ω, op.onScalars us ω = .error (.arithmetic why)) :
      Applied op qs vs (.error (.arithmetic why))

theorem Operation.mean_nil (op : Operation) (g : Scalar → Rat) (us : List Scalar) :
    op.mean [] g us = payoff g (op.onScalars us []) := by
  show overWorlds 0 _ = _
  rw [overWorlds_zero]
  show _ * 1 = _
  ring

section

variable {α β γ : Type} [Outcome α] [Outcome β] [Outcome γ] [Carrier α] [Carrier β] [Carrier γ]
  [Outcome.Exact γ] {op : Operation} {s : Pmf α Rat} {t : Pmf β Rat}

theorem recordsAll_pair {l r : Value Rat} {us : List Scalar} :
    RecordsAll [l, r] us ↔ ∃ a b, us = [a, b] ∧ l.Records a ∧ r.Records b := by
  constructor
  · intro recorded
    cases recorded with
    | cons hl rest => cases rest with
      | cons hr rest => cases rest with
        | nil => exact ⟨_, _, rfl, hl, hr⟩
  · rintro ⟨a, b, rfl, hl, hr⟩
    exact .cons hl (.cons hr .nil)

theorem applied_tryCombine {f : α → β → Except ArithFault γ} (other : op ≠ .not)
    (rule : ∀ a b ω, op.onScalars [scalar a, scalar b] ω = Scalar.ofArith scalar (f a b))
    (numbers : (∃ a b why, f a b = .error why) →
      ∀ v ∈ [value s, value t], v.staticKind ≠ .bool) :
    Applied op [] [value s, value t] (Value.ofArith value (s.tryCombine t f)) := by
  cases h : s.tryCombine t f with
  | error why =>
    obtain ⟨a, ha, b, hb, failed⟩ := Pmf.error_of_tryCombine h
    have recorded : RecordsAll [value s, value t] [scalar a, scalar b] :=
      recordsAll_pair.mpr ⟨_, _, rfl, (records_value s _).mpr ⟨a, ha, rfl⟩,
        (records_value t _).mpr ⟨b, hb, rfl⟩⟩
    refine .failure recorded (numbers ⟨a, b, why, failed⟩) fun ω => ?_
    rw [rule, failed]
    rfl
  | ok u =>
    refine .value ⟨?_, ?_, ?_, fun e => absurd e other⟩
    · intro us ω recorded _
      obtain ⟨_, _, rfl, hl, hr⟩ := recordsAll_pair.mp recorded
      obtain ⟨a, ha, rfl⟩ := (records_value s _).mp hl
      obtain ⟨b, hb, rfl⟩ := (records_value t _).mp hr
      obtain ⟨c, hc⟩ := Pmf.ok_of_tryCombine h ha hb
      refine ⟨scalar c, ?_, ?_⟩
      · rw [rule, hc]
        rfl
      · exact (records_value u _).mpr ⟨c, (Pmf.mem_tryCombine h c).mpr ⟨a, ha, b, hb, hc⟩, rfl⟩
    · intro g
      rw [expect_value, Pmf.expect_tryCombine h]
      show _ = expect (value s).outcomes fun a => expect (value t).outcomes fun b => _
      rw [expect_value]
      refine expect_congr fun a _ => ?_
      rw [expect_value]
      refine expect_congr fun b _ => ?_
      show _ = op.mean [] g [scalar a, scalar b]
      rw [Operation.mean_nil, rule]
      cases f a b with
      | error why => rfl
      | ok c => rfl
    · intro _ w hw
      obtain ⟨c, hc, rfl⟩ := (records_value u _).mp hw
      obtain ⟨a, ha, b, hb, found⟩ := (Pmf.mem_tryCombine h c).mp hc
      refine ⟨[scalar a, scalar b], [], ?_, rfl, ?_⟩
      · exact recordsAll_pair.mpr ⟨_, _, rfl, (records_value s _).mpr ⟨a, ha, rfl⟩,
          (records_value t _).mpr ⟨b, hb, rfl⟩⟩
      · rw [rule, found]
        rfl

theorem applied_combine {f : α → β → γ} (other : op ≠ .not)
    (rule : ∀ a b ω, op.onScalars [scalar a, scalar b] ω = .ok (scalar (f a b))) :
    Applied op [] [value s, value t] (.ok (value (s.combine t f))) := by
  have all : Applied op [] [value s, value t]
      (Value.ofArith value (s.tryCombine t fun a b => .ok (f a b))) := by
    refine applied_tryCombine other rule ?_
    rintro ⟨_, _, _, never⟩
    cases never
  rw [Pmf.tryCombine_ok] at all
  exact all

end

/-- an operation on certain operands whose result is certain -/
theorem applied_sure {op : Operation} {vs : List (Value Rat)} {us : List Scalar} {v : Value Rat}
    {u : Scalar} (other : op ≠ .not) (operands : List.Forall₂ Sure vs us)
    (rule : ∀ ω, op.onScalars us ω = .ok u) (result : v.Sure u) : Applied op [] vs (.ok v) := by
  refine .value ⟨?_, ?_, ?_, fun e => absurd e other⟩
  · intro ws ω recorded _
    rw [(recordsAll_of_sure operands).mp recorded]
    exact ⟨u, rule ω, (records_of_sure result).mpr rfl⟩
  · intro g
    rw [expectAll_of_sure operands, Operation.mean_nil, rule, result, expect_cons, expect_nil]
    show _ = g u
    ring
  · intro _ w hw
    rw [(records_of_sure result).mp hw]
    exact ⟨us, [], (recordsAll_of_sure operands).mpr rfl, rfl, rule []⟩

theorem applied_arith (a : Arith) {l r : Value Rat} {k : StaticKind} (hl : l.Sharp) (hr : r.Sharp)
    (dl : l.staticKind.discrete = true) (dr : r.staticKind.discrete = true)
    (h : l.staticKind.arithmetic? r.staticKind = some k) :
    Applied (operationOf a) [] [l, r] (l.arith a r) := by
  have other : operationOf a ≠ .not := by cases a <;> decide
  cases l with
  | int s => cases r with
    | int t =>
      have rule (m n : Int64) (ω : List Bool) : (operationOf a).onScalars [.int m, .int n] ω =
          Scalar.ofArith .int (a.checked m n) := by
        cases a <;> rfl
      refine applied_tryCombine (α := Int64) (β := Int64) (γ := Int64) other rule fun _ v hv => ?_
      rcases List.mem_pair.mp hv with rfl | rfl
      · exact StaticKind.noConfusion
      · exact StaticKind.noConfusion
    | _ => cases h
  | float s => cases r with
    | float t =>
      obtain ⟨x, rfl⟩ := hl
      obtain ⟨y, rfl⟩ := hr
      have sum : (.float (Pmf.certain x) : Value Rat).arith a (.float (Pmf.certain y)) =
          .ok (.float (Pmf.certain (Double.lift a.onFloat x y))) := by
        show Value.ofArith .float ((Pmf.certain x).arith a (Pmf.certain y)) = _
        rw [Pmf.arith_double, Pmf.combine_certain]
        rfl
      rw [sum]
      have rule (ω : List Bool) : (operationOf a).onScalars [.float x, .float y] ω =
          .ok (.float (Double.lift a.onFloat x y)) := by
        cases a <;> rfl
      exact applied_sure other (.cons (sure_certain x) (.cons (sure_certain y) .nil)) rule
        (sure_certain _)
    | continuous t => cases dr
    | _ => cases h
  | continuous s => cases dl
  | _ => cases r <;> cases h

theorem applied_not (s : Pmf Bool Rat) : Applied .not [] [.bool s] (.ok (.bool s.not)) := by
  have both (b : Bool) : b ∈ s.not.values := by
    unfold Pmf.values
    rw [Pmf.entries_not]
    cases b <;> simp
  have records (u : Scalar) : (value s.not).Records u ↔ ∃ b, u = .bool b := by
    rw [records_value]
    constructor
    · rintro ⟨b, -, rfl⟩
      exact ⟨b, rfl⟩
    · rintro ⟨b, rfl⟩
      exact ⟨b, both b, rfl⟩
  refine .value ⟨?_, ?_, fun h => absurd rfl h, fun _ => records⟩
  · intro us ω hus _
    cases hus with
    | cons first rest => cases rest with
      | nil =>
        obtain ⟨b, -, rfl⟩ := (records_value s _).mp first
        exact ⟨.bool !b, rfl, (records _).mpr ⟨!b, rfl⟩⟩
  · intro g
    show expect (value s.not).outcomes g = expect (value s).outcomes fun u => _
    rw [expect_value, expect_value, Pmf.expect_not]
    refine expect_congr fun b _ => ?_
    show g (.bool !b) = Operation.not.mean [] g [.bool b]
    rw [Operation.mean_nil]
    rfl

theorem applied_sample {d : Distribution} {a b : Scalar} {v : Value Rat}
    (hit : d.pick true = .ok a) (miss : d.pick false = .ok b)
    (result : v.outcomes = [(a, exactValue d.chance), (b, 1 - exactValue d.chance)]) :
    Applied .sample [d.chance] [.distribution d] (.ok v) := by
  have operand : List.Forall₂ Sure [.distribution d] [.distribution d] :=
    .cons (sure_distribution d) .nil
  have picked (c : Bool) : d.pick c = .ok (if c then a else b) := by
    cases c with
    | true => exact hit
    | false => exact miss
  have records (w : Scalar) : v.Records w ↔ w = a ∨ w = b := by
    unfold Value.Records
    rw [result]
    exact List.mem_pair
  refine .value ⟨?_, ?_, ?_, fun e => absurd e (by decide)⟩
  · intro us ω hus one
    rw [(recordsAll_of_sure operand).mp hus]
    obtain ⟨c, rfl⟩ := List.length_eq_one_iff.mp one
    refine ⟨_, picked c, (records _).mpr ?_⟩
    cases c with
    | true => exact .inl rfl
    | false => exact .inr rfl
  · intro g
    rw [expectAll_of_sure operand, result, expect_cons, expect_cons, expect_nil]
    show _ = overWorlds 1 fun ω => _
    rw [overWorlds_succ, overWorlds_zero, overWorlds_zero]
    show _ = payoff g (d.pick true) * (_ * 1) + payoff g (d.pick false) * (_ * 1)
    rw [hit, miss]
    show _ = g a * (exactValue d.chance * 1) + g b * ((1 - exactValue d.chance) * 1)
    ring
  · intro _ w hw
    rcases (records w).mp hw with rfl | rfl
    · exact ⟨_, [true], (recordsAll_of_sure operand).mpr rfl, rfl, hit⟩
    · exact ⟨_, [false], (recordsAll_of_sure operand).mpr rfl, rfl, miss⟩

/-- the sample of a discrete distribution -/
theorem applied_discrete {d : Distribution} (h : d.declares ≠ .continuous) :
    Applied .sample [d.chance] [.distribution d] (Value.distribution d).sample := by
  cases d with
  | bernoulli p =>
    have entries := Pmf.entries_add_add (a := (1 : Int64)) (b := 0) (by decide) (exactValue p)
      (1 - exactValue p)
    refine applied_sample (a := .int 1) (b := .int 0) rfl rfl ?_
    exact congrArg (List.map fun e => (Scalar.int e.1, e.2)) entries
  | flip p =>
    have entries := Pmf.entries_add_add (a := true) (b := false) (by decide) (exactValue p)
      (1 - exactValue p)
    refine applied_sample (a := .bool true) (b := .bool false) rfl rfl ?_
    exact congrArg (List.map fun e => (Scalar.bool e.1, e.2)) entries
  | continuous law => exact absurd rfl h

theorem applied_equal {l r : Value Rat} {k : StaticKind} (dl : l.staticKind.discrete = true)
    (dr : r.staticKind.discrete = true) (h : l.staticKind.equality? r.staticKind = some k) :
    Applied .equal [] [l, r] (l.equal r) := by
  cases l with
  | bool s => cases r with
    | bool t =>
      exact applied_combine (α := Bool) (β := Bool) (γ := Bool) (by decide) fun _ _ _ => rfl
    | _ => cases h
  | int s => cases r with
    | int t =>
      exact applied_combine (α := Int64) (β := Int64) (γ := Bool) (by decide) fun _ _ _ => rfl
    | _ => cases h
  | float s => cases r with
    | float t =>
      exact applied_combine (α := Double) (β := Double) (γ := Bool) (by decide) fun _ _ _ => rfl
    | continuous t => cases dr
    | _ => cases h
  | continuous s => cases dl
  | distribution d => cases r <;> cases h

/-- the comparisons by order, from those of numbers of one kind -/
theorem applied_comparison {op : Operation} {l r : Value Rat} {k : StaticKind}
    {f : Value Rat → Value Rat → Except (Fault Rat) (Value Rat)}
    (ints : ∀ s t, Applied op [] [.int s, .int t] (f (.int s) (.int t)))
    (floats : ∀ s t, Applied op [] [.float s, .float t] (f (.float s) (.float t)))
    (dl : l.staticKind.discrete = true) (dr : r.staticKind.discrete = true)
    (h : l.staticKind.comparison? r.staticKind = some k) : Applied op [] [l, r] (f l r) := by
  cases l with
  | int s => cases r with
    | int t => exact ints s t
    | _ => cases h
  | float s => cases r with
    | float t => exact floats s t
    | continuous t => cases dr
    | _ => cases h
  | continuous s => cases dl
  | _ => cases r <;> cases h

theorem applied_connective {op : Operation} {l r : Value Rat} {k : StaticKind}
    {f : Value Rat → Value Rat → Except (Fault Rat) (Value Rat)}
    (bools : ∀ s t, Applied op [] [.bool s, .bool t] (f (.bool s) (.bool t)))
    (h : l.staticKind.connective? r.staticKind = some k) : Applied op [] [l, r] (f l r) := by
  cases l with
  | bool s => cases r with
    | bool t => exact bools s t
    | _ => cases h
  | _ => cases r <;> cases h

theorem applied_parameter {op : Operation} {family : Family} {build : Float → Distribution}
    {v : Value Rat} {of : SampleKind} {k : StaticKind} (other : op ≠ .not)
    (hv : v.Sharp) (h : v.staticKind.parameter? of = some k)
    (rule : ∀ x ω, op.onScalars [.float x] ω = .ok (.distribution (build x.toFloat))) :
    Applied op [] [v] (ofParameter family "p" build v) := by
  cases v with
  | float s =>
    obtain ⟨x, rfl⟩ := hv
    unfold ofParameter
    rw [parameter_certain]
    exact applied_sure other (.cons (sure_certain x) .nil) (rule x) (sure_distribution _)
  | _ => cases h

variable {σ : Type} [Source σ]

/-- a plain application that makes no choice -/
theorem Operation.apply_applied {F : Cumulative} {op : Operation} {vs : List (Value Rat)}
    {k : StaticKind} (s : σ) (plain : op.plain = true) (notSample : op ≠ .sample)
    (sharp : ∀ v ∈ vs, v.Sharp) (discrete : ∀ v ∈ vs, v.staticKind.discrete = true)
    (h : op.kind? (vs.map Value.staticKind) = some k) :
    Applied op [] vs (op.apply F vs s).1 := by
  rcases vs with _ | ⟨l, _ | ⟨r, _ | ⟨v, vs⟩⟩⟩
  · cases op <;> cases h
  · have hl : l.Sharp := sharp l (List.mem_singleton.mpr rfl)
    cases op with
    | not => cases l with
      | bool c => exact applied_not c
      | _ => cases h
    | bernoulli => exact applied_parameter (by decide) hl h fun _ _ => rfl
    | flip => exact applied_parameter (by decide) hl h fun _ _ => rfl
    | sample => exact absurd rfl notSample
    | _ => cases h
  · have hl : l.Sharp := sharp l (List.mem_pair.mpr (.inl rfl))
    have hr : r.Sharp := sharp r (List.mem_pair.mpr (.inr rfl))
    have dl := discrete l (List.mem_pair.mpr (.inl rfl))
    have dr := discrete r (List.mem_pair.mpr (.inr rfl))
    cases op with
    | add => exact applied_arith .add hl hr dl dr h
    | subtract => exact applied_arith .subtract hl hr dl dr h
    | multiply => exact applied_arith .multiply hl hr dl dr h
    | divide => exact applied_arith .divide hl hr dl dr h
    | and =>
      refine applied_connective (f := Value.and) (fun c d => ?_) h
      exact applied_combine (α := Bool) (β := Bool) (γ := Bool) (by decide) fun _ _ _ => rfl
    | or =>
      refine applied_connective (f := Value.or) (fun c d => ?_) h
      exact applied_combine (α := Bool) (β := Bool) (γ := Bool) (by decide) fun _ _ _ => rfl
    | equal => exact applied_equal dl dr h
    | lessThan =>
      refine applied_comparison (f := Value.lessThan F) (fun m n => ?_) (fun x y => ?_) dl dr h
      · exact applied_combine (α := Int64) (β := Int64) (γ := Bool) (by decide) fun _ _ _ => rfl
      · exact applied_combine (α := Double) (β := Double) (γ := Bool) (by decide) fun _ _ _ => rfl
    | greaterThan =>
      refine applied_comparison (f := Value.greaterThan F) (fun m n => ?_) (fun x y => ?_) dl dr h
      · exact applied_combine (α := Int64) (β := Int64) (γ := Bool) (by decide) fun _ _ _ => rfl
      · exact applied_combine (α := Double) (β := Double) (γ := Bool) (by decide) fun _ _ _ => rfl
    | observe => cases plain
    | normal => cases plain
    | beta => cases plain
    | _ => cases h
  · cases op <;> cases h

end Chance
