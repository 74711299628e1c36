import Chance.Proofs.Evaluation

/-!
# Static kinds

The kind of a program's value can be read off the program: from its literals and from the operand
rules of its operations.  Kinds alone do not exclude every fault of the operands, since a parameter
of a distribution has to be certain; but each mass function of doubles that an evaluation reaches
is the certainty of one double.

* `Program.kind?`         the static kind, if the program has one;
* `Value.Sharp`           a value whose doubles, if it records doubles, are one that is certain;
* `Conforms`              how a result stands to a static kind, one constructor for each way;
* `apply_conforms`        one application of sharp operands conforms to the rule for their kinds;
* `eval_conforms`         and so does the evaluation of a program;
* `kind_sound`            values have the static kind, and a program that has one fails only for its
                          data or for a draw.
-/

namespace Chance

variable {M σ : Type} [Mass M] [Source σ]

/-! ## Certainty -/

/-- masses in which certainty times certainty is certainty -/
class Mass.Unital (M : Type) [Mass M] : Prop where
  zero_add_one : Mass.add Mass.zero Mass.one = (Mass.one : M)
  one_mul_one : Mass.mul Mass.one Mass.one = (Mass.one : M)
  nonzero_one : Mass.nonzero (Mass.one : M) = true

instance : Mass.Unital Float where
  zero_add_one := by decide
  one_mul_one := by decide
  nonzero_one := by decide

instance : Mass.Unital Rat where
  zero_add_one := Rat.zero_add 1
  one_mul_one := Rat.one_mul 1
  nonzero_one := rfl

namespace Pmf

open Mass.Unital

variable {α β γ : Type} [Outcome α] [Outcome β] [Outcome γ] [Mass.Unital M]

theorem entries_certain_one (v : α) : (certain v : Pmf α M).entries = [(v, Mass.one)] := by
  rw [entries_certain, zero_add_one]

theorem single_certain (v : α) : (certain v : Pmf α M).single = some v := by
  have kept : (certain v : Pmf α M).entries.filter (fun e => Mass.nonzero e.2) =
      [(v, Mass.one)] := by
    rw [entries_certain_one]
    exact List.filter_cons_of_pos nonzero_one
  unfold single
  rw [kept]

theorem pairs_certain (v : α) (w : β) :
    pairs (certain v : Pmf α M) (certain w) = [((v, w), Mass.one)] := by
  unfold pairs
  rw [entries_certain_one, entries_certain_one]
  show [((v, w), Mass.mul Mass.one Mass.one)] = _
  rw [one_mul_one]

theorem combine_certain (v : α) (w : β) (op : α → β → γ) :
    combine (certain v : Pmf α M) (certain w) op = certain (op v w) := by
  rw [combine, pairs_certain, ofList_eq_foldl]
  rfl

omit [Mass.Unital M] in
theorem arith_double (op : Arith) (l r : Pmf Double M) :
    l.arith op r = .ok (l.combine r (Double.lift op.onFloat)) := tryCombine_ok l r _

end Pmf

/-! ## Kinds -/

/-- what is known of a value before evaluation: its kind, and the shape of a distribution's
samples -/
inductive StaticKind where
  | bool
  | int
  | float
  | continuous
  | distribution (of : SampleKind)
deriving DecidableEq, Repr

-- one rule for each group of operations, from the kinds of the operands to that of the result
namespace StaticKind

def arithmetic? : StaticKind → StaticKind → Option StaticKind
  | .int, .int => some .int
  | .float, .float => some .float
  | .float, .continuous | .continuous, .float => some .continuous
  | _, _ => none

def connective? : StaticKind → StaticKind → Option StaticKind
  | .bool, .bool => some .bool
  | _, _ => none

def negation? : StaticKind → Option StaticKind
  | .bool => some .bool
  | _ => none

def equality? : StaticKind → StaticKind → Option StaticKind
  | .int, .int | .float, .float | .bool, .bool => some .bool
  | .float, .continuous | .continuous, .float => some .bool
  | _, _ => none

def comparison? : StaticKind → StaticKind → Option StaticKind
  | .int, .int | .float, .float => some .bool
  | .float, .continuous | .continuous, .float => some .bool
  | _, _ => none

def parameter? (of : SampleKind) : StaticKind → Option StaticKind
  | .float => some (.distribution of)
  | _ => none

def parameters? : StaticKind → StaticKind → Option StaticKind
  | .float, .float => some (.distribution .continuous)
  | _, _ => none

def ofSample : SampleKind → StaticKind
  | .discreteInt => .int
  | .discreteBool => .bool
  | .continuous => .continuous

def sampling? : StaticKind → Option StaticKind
  | .distribution of => some (ofSample of)
  | _ => none

/-- the rule of observation: a truth value, and a result of any kind -/
def observation? : StaticKind → StaticKind → Option StaticKind
  | .bool, k => some k
  | _, _ => none

end StaticKind

/-- the kind of an operation's result from the kinds of its operands -/
def Operation.kind? : Operation → List StaticKind → Option StaticKind
  | .add, [l, r] | .subtract, [l, r] | .multiply, [l, r] | .divide, [l, r] => l.arithmetic? r
  | .and, [l, r] | .or, [l, r] => l.connective? r
  | .not, [v] => v.negation?
  | .equal, [l, r] => l.equality? r
  | .lessThan, [l, r] | .greaterThan, [l, r] => l.comparison? r
  | .bernoulli, [p] => p.parameter? .discreteInt
  | .flip, [p] => p.parameter? .discreteBool
  | .normal, [l, r] | .beta, [l, r] => l.parameters? r
  | .sample, [d] => d.sampling?
  | .observe, [c, r] => c.observation? r
  | _, _ => none

def Literal.staticKind : Literal → StaticKind
  | .bool _ => .bool
  | .int _ => .int
  | .float _ => .float

namespace Program

mutual

/-- the static kind of a program -/
def kind? : Program → Option StaticKind
  | .const j =>
    match Literal.ofJson j with
    | .ok l => some l.staticKind
    | .error _ => none
  | .call op args =>
    match kinds? args with
    | some ks => op.kind? ks
    | none => none

def kinds? : List Program → Option (List StaticKind)
  | [] => some []
  | a :: as =>
    match kind? a, kinds? as with
    | some k, some ks => some (k :: ks)
    | _, _ => none

end

theorem kind?_call {op : Operation} {args : List Program} {k : StaticKind}
    (h : (call op args).kind? = some k) : ∃ ks, kinds? args = some ks ∧ op.kind? ks = some k := by
  rw [kind?] at h
  split at h
  · next ks hks => exact ⟨ks, hks, h⟩
  · cases h

theorem kinds?_cons {a : Program} {as : List Program} {ks : List StaticKind}
    (h : kinds? (a :: as) = some ks) :
    ∃ i is, a.kind? = some i ∧ kinds? as = some is ∧ ks = i :: is := by
  rw [kinds?] at h
  split at h
  · next i is hi his =>
    cases h
    exact ⟨i, is, hi, his, rfl⟩
  · cases h

end Program

namespace Value

def staticKind : Value M → StaticKind
  | .bool _ => .bool
  | .int _ => .int
  | .float _ => .float
  | .continuous _ => .continuous
  | .distribution d => .distribution d.declares

/-- a value whose doubles, if it records doubles, are one that is certain -/
def Sharp : Value M → Prop
  | .float s => ∃ x, s = Pmf.certain x
  | _ => True

theorem sharp_literal (l : Literal) : (l.toValue : Value M).Sharp := by
  cases l with
  | bool b => trivial
  | int n => trivial
  | float x => exact ⟨_, rfl⟩

theorem staticKind_literal (l : Literal) :
    (l.toValue : Value M).staticKind = l.staticKind := by
  cases l <;> rfl

end Value

/-- is the fault of a kind that no static kind excludes: of the data or of a draw? -/
def Fault.runtime : Fault M → Bool
  | .arithmetic _ => true
  | .observationFailed => true
  | .selectionExhausted _ => true
  | .noCumulative _ _ => true
  | _ => false

/-- How a result stands to a static kind: a sharp value has it, a fault of the data or of a draw
occurs with and without one, and all other faults without one only. -/
inductive Conforms : Option StaticKind → Except (Fault M) (Value M) → Prop
  | value {v : Value M} (sharp : v.Sharp) : Conforms (some v.staticKind) (.ok v)
  | runtime {k? : Option StaticKind} {f : Fault M} (h : f.runtime = true) : Conforms k? (.error f)
  | unkinded {f : Fault M} : Conforms none (.error f)

namespace Conforms

theorem bool (s : Pmf Bool M) : Conforms (some .bool) (.ok (.bool s)) :=
  @value M _ (.bool s) trivial

theorem int (s : Pmf Int64 M) : Conforms (some .int) (.ok (.int s)) :=
  @value M _ (.int s) trivial

theorem certain (x : Double) : Conforms (some .float) (.ok (.float (Pmf.certain x) : Value M)) :=
  @value M _ (.float (Pmf.certain x)) ⟨x, rfl⟩

theorem continuous (s : Affine) : Conforms (some .continuous) (.ok (.continuous s : Value M)) :=
  @value M _ (.continuous s) trivial

theorem distribution (d : Distribution) :
    Conforms (some (.distribution d.declares)) (.ok (.distribution d : Value M)) :=
  @value M _ (.distribution d) trivial

end Conforms

/-! ## The primitives -/

namespace Value

variable [Mass.Unital M] {l r v : Value M}

theorem numberWithSample?_certain (x : Double) (t : Affine) :
    numberWithSample? (.float (Pmf.certain x) : Value M) (.continuous t) = some (x.toFloat, t) ∧
    numberWithSample? (.continuous t) (.float (Pmf.certain x) : Value M) = some (x.toFloat, t) := by
  have found : ((Pmf.certain x : Pmf Double M).single.map fun v => (v.toFloat, t)) =
      some (x.toFloat, t) := by
    rw [Pmf.single_certain]
    rfl
  exact ⟨found, found⟩

theorem conforms_arith (op : Arith) (hl : l.Sharp) (hr : r.Sharp) :
    Conforms (l.staticKind.arithmetic? r.staticKind) (l.arith op r) := by
  cases l with
  | int s => cases r with
    | int t =>
      show Conforms (some .int) (ofArith .int (s.arith op t))
      cases s.arith op t with
      | ok u => exact .int u
      | error why => exact .runtime rfl
    | _ => exact .unkinded
  | float s => cases r with
    | float t =>
      obtain ⟨x, rfl⟩ := hl
      obtain ⟨y, rfl⟩ := hr
      show Conforms (some .float) (ofArith .float ((Pmf.certain x).arith op (Pmf.certain y)))
      rw [Pmf.arith_double, Pmf.combine_certain]
      exact .certain _
    | continuous t =>
      obtain ⟨x, rfl⟩ := hl
      unfold arith
      dsimp only
      rw [(numberWithSample?_certain x t).1]
      exact .continuous _
    | _ => exact .unkinded
  | continuous s => cases r with
    | float t =>
      obtain ⟨y, rfl⟩ := hr
      unfold arith
      dsimp only
      rw [(numberWithSample?_certain y s).2]
      exact .continuous _
    | _ => exact .unkinded
  | _ => cases r <;> exact .unkinded

omit [Mass.Unital M] in
theorem conforms_connective (op : Operation) (f : Pmf Bool M → Pmf Bool M → Pmf Bool M) :
    Conforms (l.staticKind.connective? r.staticKind) (connective op f l r) := by
  cases l with
  | bool s => cases r with
    | bool t => exact .bool _
    | _ => exact .unkinded
  | _ => cases r <;> exact .unkinded

omit [Mass.Unital M] in
theorem conforms_not : Conforms v.staticKind.negation? v.not := by
  cases v with
  | bool s => exact .bool _
  | _ => exact .unkinded

omit [Mass.Unital M] in
theorem conforms_equal : Conforms (l.staticKind.equality? r.staticKind) (l.equal r) := by
  cases l with
  | bool s => cases r with
    | bool t => exact .bool _
    | _ => exact .unkinded
  | int s => cases r with
    | int t => exact .bool _
    | _ => exact .unkinded
  | float s => cases r with
    | float t => exact .bool _
    | continuous t => exact .bool _
    | _ => exact .unkinded
  | continuous s => cases r with
    | float t => exact .bool _
    | _ => exact .unkinded
  | distribution d => cases r <;> exact .unkinded

omit [Mass.Unital M] in
theorem conforms_ofComparison (law : Law) (x : Except Float (Pmf Bool M)) :
    Conforms (some .bool) (ofComparison law x) := by
  cases x with
  | ok s => exact .bool _
  | error n => exact .runtime rfl

omit [Mass.Unital M] in
theorem conforms_comparison (op : Operation) (ints : Pmf Int64 M → Pmf Int64 M → Pmf Bool M)
    (doubles : Pmf Double M → Pmf Double M → Pmf Bool M)
    (left right : Affine → Pmf Double M → Except Float (Pmf Bool M)) :
    Conforms (l.staticKind.comparison? r.staticKind)
      (comparison op ints doubles left right l r) := by
  cases l with
  | int s => cases r with
    | int t => exact .bool _
    | _ => exact .unkinded
  | float s => cases r with
    | float t => exact .bool _
    | continuous t => exact conforms_ofComparison _ _
    | _ => exact .unkinded
  | continuous s => cases r with
    | float t => exact conforms_ofComparison _ _
    | _ => exact .unkinded
  | _ => cases r <;> exact .unkinded

theorem parameter_certain (family : Family) (name : String) (x : Double) :
    parameter family name (.float (Pmf.certain x) : Value M) = .ok x.toFloat := by
  unfold parameter
  dsimp only
  rw [Pmf.single_certain]

theorem conforms_ofParameter (family : Family) (name : String) {build : Float → Distribution}
    {of : SampleKind} (declared : ∀ x, (build x).declares = of) (hv : v.Sharp) :
    Conforms (v.staticKind.parameter? of) (ofParameter family name build v) := by
  cases v with
  | float s =>
    obtain ⟨x, rfl⟩ := hv
    unfold ofParameter
    rw [parameter_certain]
    dsimp only
    rw [show (Value.float (Pmf.certain x) : Value M).staticKind.parameter? of =
      some (.distribution (build x.toFloat).declares) by rw [declared]; rfl]
    exact .distribution _
  | _ => exact .unkinded

theorem conforms_ofParameters (family : Family) (first second : String)
    (build : Float → Float → Law) (hl : l.Sharp) (hr : r.Sharp) :
    Conforms (l.staticKind.parameters? r.staticKind)
      (ofParameters family first second build l r) := by
  cases l with
  | float s =>
    obtain ⟨x, rfl⟩ := hl
    unfold ofParameters
    rw [parameter_certain]
    cases r with
    | float t =>
      obtain ⟨y, rfl⟩ := hr
      dsimp only
      rw [parameter_certain]
      exact .distribution (.continuous _)
    | _ => exact .unkinded
  | _ => cases r <;> exact .unkinded

omit [Mass.Unital M] in
theorem conforms_sample : Conforms v.staticKind.sampling? v.sample := by
  cases v with
  | distribution d => cases d with
    | bernoulli p => exact .int _
    | flip p => exact .bool _
    | continuous law => exact .continuous _
  | _ => exact .unkinded

omit [Mass.Unital M] in
/-- what an observation lets pass is its second operand -/
theorem conforms_observe (hr : r.Sharp) (s : σ) :
    Conforms (v.staticKind.observation? r.staticKind) (v.observe r s).1 := by
  cases v with
  | bool c =>
    unfold observe
    dsimp only
    split
    · exact .value hr
    · exact .runtime rfl
    · exact .runtime rfl
  | _ => exact .unkinded

end Value

/-- an application of sharp operands conforms to the rule for their kinds -/
theorem Operation.apply_conforms [Mass.Unital M] (F : Cumulative) (op : Operation)
    {vs : List (Value M)} (sharp : ∀ v ∈ vs, v.Sharp) (s : σ) :
    Conforms (op.kind? (vs.map Value.staticKind)) (op.apply F vs s).1 := by
  rcases vs with _ | ⟨l, _ | ⟨r, _ | ⟨x, vs⟩⟩⟩
  · cases op <;> exact .unkinded
  · have hl : l.Sharp := sharp l (List.mem_singleton.mpr rfl)
    cases op with
    | not => exact Value.conforms_not
    | bernoulli => exact Value.conforms_ofParameter _ _ (fun _ => rfl) hl
    | flip => exact Value.conforms_ofParameter _ _ (fun _ => rfl) hl
    | sample => exact Value.conforms_sample
    | _ => exact .unkinded
  · have hl : l.Sharp := sharp l (by simp)
    have hr : r.Sharp := sharp r (by simp)
    cases op with
    | add => exact Value.conforms_arith .add hl hr
    | subtract => exact Value.conforms_arith .subtract hl hr
    | multiply => exact Value.conforms_arith .multiply hl hr
    | divide => exact Value.conforms_arith .divide hl hr
    | and => exact Value.conforms_connective ..
    | or => exact Value.conforms_connective ..
    | equal => exact Value.conforms_equal
    | lessThan => exact Value.conforms_comparison ..
    | greaterThan => exact Value.conforms_comparison ..
    | normal => exact Value.conforms_ofParameters _ _ _ _ hl hr
    | beta => exact Value.conforms_ofParameters _ _ _ _ hl hr
    | observe => exact Value.conforms_observe hr s
    | _ => exact .unkinded
  · cases op <;> exact .unkinded

/-! ## Programs -/

/-- how the results of operands stand to their static kinds -/
inductive ConformsAll : Option (List StaticKind) → Except (Fault M) (List (Value M)) → Prop
  | values {vs : List (Value M)} (sharp : ∀ v ∈ vs, v.Sharp) :
      ConformsAll (some (vs.map Value.staticKind)) (.ok vs)
  | runtime {ks? : Option (List StaticKind)} {f : Fault M} (h : f.runtime = true) :
      ConformsAll ks? (.error f)
  | unkinded {f : Fault M} : ConformsAll none (.error f)

namespace Program

theorem constant_conforms (j : Json) :
    Conforms (const j).kind? (Value.constant j : Except (Fault M) (Value M)) := by
  unfold kind? Value.constant
  cases Literal.ofJson j with
  | ok l =>
    dsimp only
    rw [← Value.staticKind_literal (M := M)]
    exact .value (Value.sharp_literal l)
  | error why => exact .unkinded

mutual

/-- the evaluation of a program conforms to its static kind -/
theorem eval_conforms [Mass.Unital M] (F : Cumulative) : ∀ (p : Program) (s : σ),
    Conforms p.kind? (p.eval F s : Evaluated M σ (Value M)).1
  | .const j, s => by
    rw [eval_const]
    exact constant_conforms j
  | .call op args, s => by
    have all := evalAll_conforms F args s
    rw [kind?]
    rcases h : (evalAll F args s : Evaluated M σ (List (Value M))) with ⟨f | vs, t⟩
    · rw [h] at all
      rw [eval_call_error h]
      generalize kinds? args = ks? at all
      cases all with
      | runtime hf => exact .runtime hf
      | unkinded => exact .unkinded
    · rw [h] at all
      rw [eval_call_ok h]
      generalize kinds? args = ks? at all
      cases all with
      | values sharp => exact Operation.apply_conforms F op sharp t

theorem evalAll_conforms [Mass.Unital M] (F : Cumulative) : ∀ (ps : List Program) (s : σ),
    ConformsAll (kinds? ps) (evalAll F ps s : Evaluated M σ (List (Value M))).1
  | [], s => by
    rw [evalAll_nil, kinds?]
    exact @ConformsAll.values M _ [] (fun v hv => absurd hv List.not_mem_nil)
  | a :: as, s => by
    have first := eval_conforms F a s
    rw [kinds?]
    rcases h : (eval F a s : Evaluated M σ (Value M)) with ⟨f | v, t⟩
    · rw [h] at first
      rw [evalAll_cons_error h]
      generalize a.kind? = k? at first
      cases first with
      | runtime hf => exact .runtime hf
      | unkinded => exact .unkinded
    · have rest := evalAll_conforms F as t
      rw [h] at first
      generalize a.kind? = k? at first
      cases first with
      | value sharp =>
        rcases hs : (evalAll F as t : Evaluated M σ (List (Value M))) with ⟨f | vs, u⟩
        · rw [hs] at rest
          rw [evalAll_cons_tail h hs]
          generalize kinds? as = ks? at rest
          cases rest with
          | runtime hf => exact .runtime hf
          | unkinded => exact .unkinded
        · rw [hs] at rest
          rw [evalAll_cons_ok h hs]
          generalize kinds? as = ks? at rest
          cases rest with
          | values sharpRest => exact .values (List.forall_mem_cons.mpr ⟨sharp, sharpRest⟩)

end

/-- **Static kinds are sound.**  A value has the static kind of its program; a program without one
has no value.  A program with one fails only in integer arithmetic, at an observation, or where
the law of a continuous sample has no cumulative probability. -/
theorem kind_sound (F : Cumulative) (p : Program) (s : σ) :
    (∀ v : Value Float, (p.eval F s).1 = .ok v → p.kind? = some v.staticKind) ∧
    (p.kind? = none → ∀ v : Value Float, (p.eval F s).1 ≠ .ok v) ∧
    (∀ (k : StaticKind) (f : Fault Float), p.kind? = some k → (p.eval F s).1 = .error f →
      (∃ why, f = .arithmetic why) ∨ f = .observationFailed ∨
        (∃ total, f = .selectionExhausted total) ∨ ∃ law n, f = .noCumulative law n) := by
  have conforms := eval_conforms (M := Float) F p s
  have kinded (v : Value Float) (h : (p.eval F s).1 = .ok v) : p.kind? = some v.staticKind := by
    rw [h] at conforms
    generalize p.kind? = k? at conforms
    cases conforms with
    | value _ => rfl
  refine ⟨kinded, ?_, ?_⟩
  · intro none v h
    have some := kinded v h
    rw [none] at some
    cases some
  · intro k f hk h
    rw [h, hk] at conforms
    cases conforms with
    | runtime hf =>
      unfold Fault.runtime at hf
      split at hf
      · exact .inl ⟨_, rfl⟩
      · exact .inr (.inl rfl)
      · exact .inr (.inr (.inl ⟨_, rfl⟩))
      · exact .inr (.inr (.inr ⟨_, _, rfl⟩))
      · cases hf

end Program
end Chance
