import Chance.Law.Cumulative
import Chance.Proofs.Evaluation
import Chance.Proofs.NullOutcomes

/-!
# Outcomes of probability zero

Operations cannot tell operands apart that are the same but for outcomes of mass zero: both sides
fail alike or give values with equal masses, and they leave the source at the same place.  The
exceptions are arithmetic on integers, which fails for any pair of recorded outcomes that has no
result, and a comparison with a continuous sample whose cumulative probability at an outcome of mass
zero is no finite number.

* `Value.Alike`, `SameResult`   operands that are the same, results that are;
* `NullPairFails`, `NullsAsked`   the two exceptions;
* `null_outcomes`         the operations;
* `null_outcomes_observed`   both exceptions happen.
-/

namespace Chance

/-! ## Values -/

namespace Value

/-- mass functions that are the same without their entries of mass zero, and equal values of the
other kinds -/
inductive Alike : Value Float → Value Float → Prop
  | bool {s t : Pmf Bool Float} (h : s.Alike t) : Alike (.bool s) (.bool t)
  | int {s t : Pmf Int64 Float} (h : s.Alike t) : Alike (.int s) (.int t)
  | float {s t : Pmf Double Float} (h : s.Alike t) : Alike (.float s) (.float t)
  | continuous (x : Affine) : Alike (.continuous x) (.continuous x)
  | distribution (d : Distribution) : Alike (.distribution d) (.distribution d)

/-- mass functions with equal masses at every outcome, and equal values of the other kinds -/
inductive EqualMasses : Value Float → Value Float → Prop
  | bool {s t : Pmf Bool Float} (h : s.EqualMasses t) : EqualMasses (.bool s) (.bool t)
  | int {s t : Pmf Int64 Float} (h : s.EqualMasses t) : EqualMasses (.int s) (.int t)
  | float {s t : Pmf Double Float} (h : s.EqualMasses t) : EqualMasses (.float s) (.float t)
  | continuous (x : Affine) : EqualMasses (.continuous x) (.continuous x)
  | distribution (d : Distribution) : EqualMasses (.distribution d) (.distribution d)

theorem EqualMasses.refl (v : Value Float) : EqualMasses v v := by
  cases v with
  | bool s => exact .bool fun _ => .refl _
  | int s => exact .int fun _ => .refl _
  | float s => exact .float fun _ => .refl _
  | continuous x => exact .continuous x
  | distribution d => exact .distribution d

theorem Alike.equalMasses {v w : Value Float} (h : v.Alike w) : v.EqualMasses w := by
  cases h with
  | bool h => exact .bool h.equalMasses
  | int h => exact .int h.equalMasses
  | float h => exact .float h.equalMasses
  | continuous x => exact .continuous x
  | distribution d => exact .distribution d

end Value

/-- two faults of one variant, or two values with the same masses -/
inductive SameResult :
    Except (Fault Float) (Value Float) → Except (Fault Float) (Value Float) → Prop
  | value {v w : Value Float} (h : v.EqualMasses w) : SameResult (.ok v) (.ok w)
  | fault {f g : Fault Float} (h : f.ctorIdx = g.ctorIdx) : SameResult (.error f) (.error g)

theorem SameResult.refl (r : Except (Fault Float) (Value Float)) : SameResult r r := by
  cases r with
  | ok v => exact .value (.refl v)
  | error f => exact .fault rfl

namespace Value

variable {v v' w w' : Value Float}

/-! ## One operand -/

theorem Alike.not (h : v.Alike w) : SameResult v.not w.not := by
  cases h with
  | bool h => exact .value (.bool h.equalMasses.not)
  | _ => exact .fault rfl

theorem Alike.sample (h : v.Alike w) : SameResult v.sample w.sample := by
  cases h with
  | distribution d => exact .refl _
  | _ => exact .fault rfl

/-- parameters are equal doubles, or both are none -/
theorem Alike.parameter (h : v.Alike w) (family : Family) (name : String) :
    (∃ x, parameter family name v = .ok x ∧ parameter family name w = .ok x) ∨
      ∃ why why', parameter family name v = .error (.parameter family name why) ∧
        parameter family name w = .error (.parameter family name why') := by
  cases h with
  | @float s t h =>
    have same := h.single
    unfold Value.parameter
    dsimp only
    cases hs : s.single with
    | none =>
      have ht : t.single = none := Option.map_eq_none_iff.mp (same.symm.trans (by rw [hs]; rfl))
      rw [ht]
      exact .inr ⟨_, _, rfl, rfl⟩
    | some x =>
      rw [hs] at same
      obtain ⟨y, ht, value⟩ := Option.map_eq_some_iff.mp same.symm
      rw [ht]
      exact .inl ⟨x.toFloat, rfl, congrArg Except.ok value⟩
  | _ => exact .inr ⟨_, _, rfl, rfl⟩

theorem Alike.ofParameter (h : v.Alike w) (family : Family) (name : String)
    (build : Float → Distribution) :
    SameResult (ofParameter family name build v) (ofParameter family name build w) := by
  unfold Value.ofParameter
  rcases h.parameter family name with ⟨x, hv, hw⟩ | ⟨why, why', hv, hw⟩
  · rw [hv, hw]
    exact .refl _
  · rw [hv, hw]
    exact .fault rfl

/-! ## Two operands -/

theorem Alike.ofParameters (hv : v.Alike v') (hw : w.Alike w') (family : Family)
    (first second : String) (build : Float → Float → Law) :
    SameResult (ofParameters family first second build v w)
      (ofParameters family first second build v' w') := by
  unfold Value.ofParameters
  rcases hv.parameter family first with ⟨x, hx, hx'⟩ | ⟨why, why', hx, hx'⟩
  · rw [hx, hx']
    rcases hw.parameter family second with ⟨y, hy, hy'⟩ | ⟨why, why', hy, hy'⟩
    · rw [hy, hy']
      exact .refl _
    · rw [hy, hy']
      exact .fault rfl
  · rw [hx, hx']
    exact .fault rfl

theorem Alike.connective (hv : v.Alike v') (hw : w.Alike w') (op : Operation)
    (f : Bool → Bool → Bool) : SameResult (connective op (fun s t => s.combine t f) v w)
      (connective op (fun s t => s.combine t f) v' w') := by
  cases hv with
  | bool hv => cases hw with
    | bool hw =>
      refine .value (.bool (hv.combine hw fun a a' b b' ha hb => ?_))
      rw [Pmf.eq_of_sameKey_bool a a' ha, Pmf.eq_of_sameKey_bool b b' hb]
      rfl
    | _ => exact .fault rfl
  | _ => cases hw <;> exact .fault rfl

theorem Alike.equal (hv : v.Alike v') (hw : w.Alike w') :
    SameResult (v.equal w) (v'.equal w') := by
  cases hv with
  | bool hv => cases hw with
    | bool hw => exact .value (.bool (hv.equal hw))
    | _ => exact .fault rfl
  | int hv => cases hw with
    | int hw => exact .value (.bool (hv.equal hw))
    | _ => exact .fault rfl
  | float hv => cases hw with
    | float hw => exact .value (.bool (hv.equal hw))
    | continuous x => exact .refl _
    | _ => exact .fault rfl
  | continuous x => cases hw with
    | float hw => exact .refl _
    | _ => exact .fault rfl
  | distribution d => cases hw <;> exact .fault rfl

/-- doubles of which the same one is certain, if any is, or values of one other kind, that are
equal if they are continuous -/
inductive SameNumber : Value Float → Value Float → Prop
  | float {s t : Pmf Double Float}
      (h : s.single.map Double.toFloat = t.single.map Double.toFloat) :
      SameNumber (.float s) (.float t)
  | continuous (x : Affine) : SameNumber (.continuous x) (.continuous x)
  | bool (s t : Pmf Bool Float) : SameNumber (.bool s) (.bool t)
  | int (s t : Pmf Int64 Float) : SameNumber (.int s) (.int t)
  | distribution (d : Distribution) : SameNumber (.distribution d) (.distribution d)

theorem single_with {s t : Pmf Double Float}
    (h : s.single.map Double.toFloat = t.single.map Double.toFloat) (x : Affine) :
    s.single.map (fun n => (n.toFloat, x)) = t.single.map fun n => (n.toFloat, x) := by
  have both := congrArg (Option.map fun n => (n, x)) h
  rwa [Option.map_map, Option.map_map] at both

/-- a certain double and a continuous sample are found in values of the same number -/
theorem SameNumber.numberWithSample (hv : v.SameNumber v') (hw : w.SameNumber w') :
    numberWithSample? v w = numberWithSample? v' w' := by
  cases hv with
  | float hv => cases hw with
    | continuous x => exact single_with hv x
    | _ => rfl
  | continuous x => cases hw with
    | float hw => exact single_with hw x
    | _ => rfl
  | _ => cases hw <;> rfl

theorem Alike.sameNumber (h : v.Alike w) : v.SameNumber w := by
  cases h with
  | float h => exact .float h.single
  | continuous x => exact .continuous x
  | bool _ => exact .bool _ _
  | int _ => exact .int _ _
  | distribution d => exact .distribution d

/-- some pair of recorded integers has no result, and one of the two has no mass -/
def NullPairFails (op : Arith) (v w : Value Float) : Prop :=
  ∃ s t, v = .int s ∧ w = .int t ∧ Pmf.NullPairFails op s t

/-- arithmetic of operands that are not two mass functions of one kind -/
def arithWithSample (op : Arith) (v w : Value Float) : Except (Fault Float) (Value Float) :=
  match numberWithSample? v w with
  | some (x, s) => .ok (.continuous (s.arith op x))
  | none => mismatch (operationOf op) v w

theorem Alike.arithWithSample (hv : v.Alike v') (hw : w.Alike w') (op : Arith) :
    SameResult (arithWithSample op v w) (arithWithSample op v' w') := by
  unfold Value.arithWithSample
  rw [hv.sameNumber.numberWithSample hw.sameNumber]
  cases numberWithSample? v' w' with
  | none => exact .fault rfl
  | some _ => exact .refl _

theorem Alike.arith (hv : v.Alike v') (hw : w.Alike w') {op : Arith}
    (defined : ¬ NullPairFails op v w) (defined' : ¬ NullPairFails op v' w') :
    SameResult (v.arith op w) (v'.arith op w') := by
  have other := hv.arithWithSample hw op
  cases hv with
  | @int s s' hv => cases hw with
    | @int t t' hw =>
      show SameResult (ofArith .int (s.arith op t)) (ofArith .int (s'.arith op t'))
      rcases hv.arith hw (fun fails => defined ⟨s, t, rfl, rfl, fails⟩)
        (fun fails => defined' ⟨s', t', rfl, rfl, fails⟩) with
        ⟨p, q, hp, hq, same⟩ | ⟨f, g, hf, hg⟩
      · rw [hp, hq]
        exact .value (.int same)
      · rw [hf, hg]
        exact .fault rfl
    | _ => exact other
  | @float s s' hv => cases hw with
    | @float t t' hw =>
      show SameResult (ofArith .float (s.arith op t)) (ofArith .float (s'.arith op t'))
      obtain ⟨p, q, hp, hq, same⟩ := hv.arith_double hw op
      rw [hp, hq]
      exact .value (.float same)
    | _ => exact other
  | _ => cases hw <;> exact other

/-- a fault of a pair is a fault of the operation, whatever masses the two have -/
theorem arith_of_nullPairFails {op : Arith} (h : NullPairFails op v w) :
    ∃ why, v.arith op w = .error (.arithmetic why) := by
  obtain ⟨s, t, rfl, rfl, e, he, f, hf, -, why, fails⟩ := h
  obtain ⟨why, fault⟩ := Pmf.arith_fails he hf fails
  refine ⟨why, ?_⟩
  show ofArith .int (s.arith op t) = _
  rw [fault]
  rfl

/-- a comparison of a continuous sample with doubles has a finite number to multiply each mass zero
with -/
def NullsAsked (F : Cumulative) (v w : Value Float) : Prop :=
  ∀ x s, (v = .continuous x ∧ w = .float s ∨ v = .float s ∧ w = .continuous x) →
    Pmf.NullsAsked F x s.entries

/-- two mass functions with the same masses, or two points without a cumulative probability -/
def SameTruths (r r' : Except Float (Pmf Bool Float)) : Prop :=
  (∃ p q, r = .ok p ∧ r' = .ok q ∧ p.EqualMasses q) ∨ ∃ a b, r = .error a ∧ r' = .error b

theorem SameTruths.ofComparison {r r' : Except Float (Pmf Bool Float)} (h : SameTruths r r')
    (law : Law) : SameResult (ofComparison law r) (ofComparison law r') := by
  rcases h with ⟨p, q, rfl, rfl, same⟩ | ⟨a, b, rfl, rfl⟩
  · exact .value (.bool same)
  · exact .fault rfl

/-- a comparison that does not tell alike numbers apart, nor, where cumulative probabilities are
asked for, doubles -/
theorem Alike.comparison {F : Cumulative}
    {ints : Pmf Int64 Float → Pmf Int64 Float → Pmf Bool Float}
    {doubles : Pmf Double Float → Pmf Double Float → Pmf Bool Float}
    {left right : Affine → Pmf Double Float → Except Float (Pmf Bool Float)}
    (hv : v.Alike v') (hw : w.Alike w')
    (onInts : ∀ {s s' t t'}, Pmf.Alike s s' → Pmf.Alike t t' → (ints s t).EqualMasses (ints s' t'))
    (onDoubles : ∀ {s s' t t'}, Pmf.Alike s s' → Pmf.Alike t t' →
      (doubles s t).EqualMasses (doubles s' t'))
    (onLeft : ∀ {x t t'}, Pmf.Alike t t' → Pmf.NullsAsked F x t.entries →
      Pmf.NullsAsked F x t'.entries → SameTruths (left x t) (left x t'))
    (onRight : ∀ {x s s'}, Pmf.Alike s s' → Pmf.NullsAsked F x s.entries →
      Pmf.NullsAsked F x s'.entries → SameTruths (right x s) (right x s'))
    (asked : NullsAsked F v w) (asked' : NullsAsked F v' w') (op : Operation) :
    SameResult (comparison op ints doubles left right v w)
      (comparison op ints doubles left right v' w') := by
  cases hv with
  | int hv => cases hw with
    | int hw => exact .value (.bool (onInts hv hw))
    | _ => exact .fault rfl
  | float hv => cases hw with
    | float hw => exact .value (.bool (onDoubles hv hw))
    | continuous x =>
      have truths := onRight hv (asked x _ (.inr ⟨rfl, rfl⟩)) (asked' x _ (.inr ⟨rfl, rfl⟩))
      exact truths.ofComparison x.law
    | _ => exact .fault rfl
  | continuous x => cases hw with
    | float hw =>
      have truths := onLeft hw (asked x _ (.inl ⟨rfl, rfl⟩)) (asked' x _ (.inl ⟨rfl, rfl⟩))
      exact truths.ofComparison x.law
    | _ => exact .fault rfl
  | _ => cases hw <;> exact .fault rfl

theorem Alike.lessThan {F : Cumulative} (hv : v.Alike v') (hw : w.Alike w')
    (asked : NullsAsked F v w) (asked' : NullsAsked F v' w') :
    SameResult (v.lessThan F w) (v'.lessThan F w') :=
  hv.comparison hw (fun hs ht => hs.lessThan ht Pmf.less_int64)
    (fun hs ht => hs.lessThan ht Pmf.less_double) Pmf.Alike.below Pmf.Alike.above asked asked' _

theorem Alike.greaterThan {F : Cumulative} (hv : v.Alike v') (hw : w.Alike w')
    (asked : NullsAsked F v w) (asked' : NullsAsked F v' w') :
    SameResult (v.greaterThan F w) (v'.greaterThan F w') :=
  hv.comparison hw (fun hs ht => hs.greaterThan ht Pmf.less_int64)
    (fun hs ht => hs.greaterThan ht Pmf.less_double) Pmf.Alike.above Pmf.Alike.below asked asked' _

/-- a draw selects the same truth value on both sides -/
theorem Alike.observe {σ : Type} [Source σ] (hv : v.Alike v') (hw : w.Alike w') (s : σ) :
    SameResult (v.observe w s).1 (v'.observe w' s).1 ∧ (v.observe w s).2 = (v'.observe w' s).2 := by
  cases hv with
  | @bool c c' hv =>
    unfold Value.observe
    dsimp only
    rw [hv.pick]
    cases c'.pick (Source.next s).1 with
    | error total => exact ⟨.fault rfl, rfl⟩
    | ok b => cases b with
      | true => exact ⟨.value hw.equalMasses, rfl⟩
      | false => exact ⟨.fault rfl, rfl⟩
  | _ => exact ⟨.fault rfl, rfl⟩

end Value

/-! ## Operations -/

namespace Operation

/-- arithmetic that fails for a pair of integers of which one has no mass -/
def NullPairFails (op : Operation) (args : List (Value Float)) : Prop :=
  ∃ a v w, op = Value.operationOf a ∧ args = [v, w] ∧ Value.NullPairFails a v w

/-- cumulative probabilities at outcomes of mass zero are finite numbers -/
def NullsAsked (F : Cumulative) (op : Operation) (args : List (Value Float)) : Prop :=
  ∀ v w, op = .lessThan ∨ op = .greaterThan → args = [v, w] → Value.NullsAsked F v w

variable {σ : Type} [Source σ] {F : Cumulative} {op : Operation} {args args' : List (Value Float)}

theorem draws_of_alike (h : List.Forall₂ Value.Alike args args') :
    op.draws args = op.draws args' := by
  cases op with
  | observe => rcases h with _ | ⟨_ | _ | _ | _ | _, _ | ⟨_, _ | _⟩⟩ <;> rfl
  | _ => rfl

/-- operands that are alike have the same result, but for the two exceptions -/
theorem sameResult_of_alike (h : List.Forall₂ Value.Alike args args')
    (asked : NullsAsked F op args) (asked' : NullsAsked F op args')
    (defined : ¬ NullPairFails op args) (defined' : ¬ NullPairFails op args') (s : σ) :
    SameResult (op.apply F args s).1 (op.apply F args' s).1 := by
  rcases h with _ | @⟨v, v', _, _, hv, _ | @⟨w, w', _, _, hw, _ | ⟨hx, rest⟩⟩⟩
  · cases op <;> exact .fault rfl
  · cases op with
    | not => exact hv.not
    | sample => exact hv.sample
    | bernoulli => exact hv.ofParameter .bernoulli "p" .bernoulli
    | flip => exact hv.ofParameter .flip "p" .flip
    | _ => exact .fault rfl
  · have arith (a : Arith) (hop : op = Value.operationOf a) :
        SameResult (v.arith a w) (v'.arith a w') :=
      hv.arith hw (fun fails => defined ⟨a, v, w, hop, rfl, fails⟩)
        fun fails => defined' ⟨a, v', w', hop, rfl, fails⟩
    cases op with
    | add => exact arith .add rfl
    | subtract => exact arith .subtract rfl
    | multiply => exact arith .multiply rfl
    | divide => exact arith .divide rfl
    | and => exact hv.connective hw .and _
    | or => exact hv.connective hw .or _
    | equal => exact hv.equal hw
    | lessThan => exact hv.lessThan hw (asked v w (.inl rfl) rfl) (asked' v' w' (.inl rfl) rfl)
    | greaterThan =>
      exact hv.greaterThan hw (asked v w (.inr rfl) rfl) (asked' v' w' (.inr rfl) rfl)
    | beta => exact hv.ofParameters hw .beta "a" "b" .beta
    | normal => exact hv.ofParameters hw .normal "mean" "sd" .normal
    | observe => exact (hv.observe hw s).1
    | _ => exact .fault rfl
  · cases op <;> exact .fault rfl

/-- **Outcomes of probability zero.**  Operands that are the same but for outcomes of mass zero have
the same result and leave the same source, unless integer arithmetic fails for a pair with such an
outcome; then it fails whatever the masses are. -/
theorem null_outcomes (h : List.Forall₂ Value.Alike args args') (asked : NullsAsked F op args)
    (asked' : NullsAsked F op args') (s : σ) :
    (¬ NullPairFails op args → ¬ NullPairFails op args' →
      SameResult (op.apply F args s).1 (op.apply F args' s).1) ∧
    (op.apply F args s).2 = (op.apply F args' s).2 ∧
    (NullPairFails op args → ∃ why, (op.apply F args s).1 = .error (.arithmetic why)) := by
  refine ⟨fun defined defined' => sameResult_of_alike h asked asked' defined defined' s, ?_, ?_⟩
  · rw [apply_source, apply_source, draws_of_alike h]
  · rintro ⟨a, v, w, rfl, rfl, fails⟩
    rw [apply_arith]
    exact Value.arith_of_nullPairFails fails

/-! ### A coin that is certain to come out one -/

/-- the sample of a Bernoulli distribution with parameter one: zero is recorded without mass -/
def sureCoin : Pmf Int64 Float := (Pmf.empty.add 1 1.0).add 0 (Mass.complement (1.0 : Float))

/-- one half, and without mass zero -/
def halfOrZero : Pmf Double Float := (Pmf.empty.add (.ofFloat 0.5) 1.0).add (.ofFloat 0.0) 0.0

/-- one half, and without mass what is no number -/
def halfOrNone : Pmf Double Float :=
  (Pmf.empty.add (.ofFloat 0.5) 1.0).add (.ofFloat noNumber) 0.0

theorem sureCoin_alike : sureCoin.Alike (Pmf.certain 1) :=
  Pmf.alike_certain (by decide +kernel) (by decide +kernel)

theorem halfOrZero_alike : halfOrZero.Alike (Pmf.certain (.ofFloat 0.5)) :=
  Pmf.alike_certain (by decide +kernel) (by decide +kernel)

theorem halfOrNone_alike : halfOrNone.Alike (Pmf.certain (.ofFloat 0.5)) :=
  Pmf.alike_certain (by decide +kernel) (by decide +kernel)

/-- no pair of recorded integers has to be refused -/
theorem not_nullPairFails {a : Arith} {s t : Pmf Int64 Float}
    (h : ∀ e ∈ s.entries, ∀ f ∈ t.entries, (a.checked e.1 f.1).isOk = true) :
    ¬ NullPairFails (Value.operationOf a) [.int s, .int t] := by
  rintro ⟨b, v, w, hop, hargs, p, q, rfl, rfl, e, he, f, hf, -, why, fails⟩
  have same : a = b := by cases a <;> cases b <;> first | rfl | cases hop
  cases hargs
  have ok := h e he f hf
  rw [same, fails] at ok
  cases ok

theorem nullsAsked_of_entries {x : Affine} {s : Pmf Double Float}
    (h : Pmf.NullsAsked F x s.entries) : NullsAsked F op [.continuous x, .float s] := by
  rintro v w - hargs y t (⟨rfl, rfl⟩ | ⟨rfl, rfl⟩)
  · cases hargs
    exact h
  · cases hargs

/-- two is added to the coin, and a uniform sample is compared with a half or nothing -/
theorem null_outcomes_unseen :
    List.Forall₂ Value.Alike [.int sureCoin, .int (Pmf.certain 2)]
      [.int (Pmf.certain 1), .int (Pmf.certain 2)] ∧
    SameResult
      (add.apply Law.cumulative [.int sureCoin, .int (Pmf.certain 2)]
        (⟨fun _ => 0.0, 0⟩ : Sequence)).1
      (add.apply Law.cumulative [.int (Pmf.certain 1), .int (Pmf.certain 2)]
        (⟨fun _ => 0.0, 0⟩ : Sequence)).1 ∧
    SameResult
      (lessThan.apply Law.cumulative [.continuous (.ofLaw (.beta 1.0 1.0)), .float halfOrZero]
        (⟨fun _ => 0.0, 0⟩ : Sequence)).1
      (lessThan.apply Law.cumulative
        [.continuous (.ofLaw (.beta 1.0 1.0)), .float (Pmf.certain (.ofFloat 0.5))]
        (⟨fun _ => 0.0, 0⟩ : Sequence)).1 := by
  have alike : List.Forall₂ Value.Alike [.int sureCoin, .int (Pmf.certain 2)]
      [.int (Pmf.certain 1), .int (Pmf.certain 2)] :=
    .cons (.int sureCoin_alike) (.cons (.int (.refl (by decide +kernel))) .nil)
  have asked (args : List (Value Float)) : NullsAsked Law.cumulative add args := by
    rintro v w (hop | hop) <;> cases hop
  have compared (args : List (Value Float)) : ¬ NullPairFails lessThan args := by
    rintro ⟨a, v, w, hop, -⟩
    cases a <;> cases hop
  have half : ¬ IsNull 1.0 := by
    unfold IsNull
    decide
  refine ⟨alike, ?_, ?_⟩
  · exact (null_outcomes alike (asked _) (asked _) _).1
      (not_nullPairFails (a := .add) (by decide +kernel))
      (not_nullPairFails (a := .add) (by decide +kernel))
  · exact (null_outcomes (.cons (.continuous _) (.cons (.float halfOrZero_alike) .nil))
      (nullsAsked_of_entries (List.forall_mem_cons.mpr
        ⟨fun null => absurd null half, List.forall_mem_singleton.mpr fun _ =>
          ⟨0.0, by decide +kernel, isFinite_zero⟩⟩))
      (nullsAsked_of_entries (List.forall_mem_singleton.mpr fun null => absurd null half))
      _).1 (compared _) (compared _)

/-- one over the coin fails, and one half is not below what is no number -/
theorem null_outcomes_observed :
    (sureCoin.Alike (Pmf.certain 1) ∧
      ¬ SameResult
        (divide.apply Law.cumulative [.int (Pmf.certain 1), .int sureCoin]
          (⟨fun _ => 0.0, 0⟩ : Sequence)).1
        (divide.apply Law.cumulative [.int (Pmf.certain 1), .int (Pmf.certain 1)]
          (⟨fun _ => 0.0, 0⟩ : Sequence)).1) ∧
    (halfOrNone.Alike (Pmf.certain (.ofFloat 0.5)) ∧
      ¬ SameResult
        (lessThan.apply Law.cumulative [.continuous (.ofLaw (.beta 1.0 1.0)), .float halfOrNone]
          (⟨fun _ => 0.0, 0⟩ : Sequence)).1
        (lessThan.apply Law.cumulative
          [.continuous (.ofLaw (.beta 1.0 1.0)), .float (Pmf.certain (.ofFloat 0.5))]
          (⟨fun _ => 0.0, 0⟩ : Sequence)).1) := by
  refine ⟨⟨sureCoin_alike, fun same => ?_⟩, halfOrNone_alike, fun same => ?_⟩
  · have failed : (Pmf.certain 1 : Pmf Int64 Float).arith .divide sureCoin =
        .error (.divisionByZero 1) := rfl
    have divided : (Pmf.certain 1 : Pmf Int64 Float).arith .divide (Pmf.certain 1) =
        .ok (Pmf.certain 1) := rfl
    have left : (divide.apply Law.cumulative [.int (Pmf.certain 1), .int sureCoin]
        (⟨fun _ => 0.0, 0⟩ : Sequence)).1 = .error (.arithmetic (.divisionByZero 1)) := by
      show Value.ofArith .int ((Pmf.certain 1 : Pmf Int64 Float).arith .divide sureCoin) = _
      rw [failed]
      rfl
    have right : (divide.apply Law.cumulative [.int (Pmf.certain 1), .int (Pmf.certain 1)]
        (⟨fun _ => 0.0, 0⟩ : Sequence)).1 = .ok (.int (Pmf.certain 1 : Pmf Int64 Float)) := by
      show Value.ofArith .int ((Pmf.certain 1 : Pmf Int64 Float).arith .divide (Pmf.certain 1)) = _
      rw [divided]
      rfl
    rw [left, right] at same
    cases same
  · have left : ∃ p : Pmf Bool Float, (lessThan.apply Law.cumulative
          [.continuous (.ofLaw (.beta 1.0 1.0)), .float halfOrNone]
          (⟨fun _ => 0.0, 0⟩ : Sequence)).1 = .ok (.bool p) ∧ (p.get true).isNaN = true :=
      ⟨_, rfl, by decide +kernel⟩
    have right : ∃ p : Pmf Bool Float, (lessThan.apply Law.cumulative
          [.continuous (.ofLaw (.beta 1.0 1.0)), .float (Pmf.certain (.ofFloat 0.5))]
          (⟨fun _ => 0.0, 0⟩ : Sequence)).1 = .ok (.bool p) ∧ p.get true = 0.5 :=
      ⟨_, rfl, by decide +kernel⟩
    obtain ⟨p, hp, none⟩ := left
    obtain ⟨q, hq, half⟩ := right
    rw [hp, hq] at same
    obtain ⟨⟨same⟩⟩ := same
    rcases same true with equal | ⟨-, null⟩
    · rw [equal, half] at none
      exact absurd none (by decide)
    · rw [half] at null
      exact absurd null (by unfold IsNull; decide)

end Operation
end Chance
