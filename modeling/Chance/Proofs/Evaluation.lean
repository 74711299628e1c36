import Chance.Program.Evaluation

/-!
# Evaluation, one application at a time

What later modules need of `Program.eval` without opening it again.

* `eval_call_error`, `eval_call_ok`   a call fails with its operands, or applies its operation;
* `evalAll_cons_error`, `evalAll_cons_tail`, `evalAll_cons_ok`   the three ways through a list of
                          operands;
* `Operation.draws`       the applications that draw: observations of a truth value;
* `apply_of_not_draws`    every other application gives one result on all sources and leaves
                          each as it was;
* `fault_apply`           the faults of such an application; only one that draws fails for a
                          draw (`draws_of_fault`);
* `Source.after`          a source after a number of draws.
-/

namespace Chance

variable {M σ τ : Type} [Mass M] [Source σ] [Source τ]

/-! ## Sources after draws -/

namespace Source

/-- the source after `n` draws -/
def after : Nat → σ → σ
  | 0, s => s
  | n + 1, s => after n (next s).2

theorem after_zero (s : σ) : after 0 s = s := rfl
theorem after_succ (n : Nat) (s : σ) : after (n + 1) s = after n (next s).2 := rfl

theorem after_add (m n : Nat) (s : σ) : after (m + n) s = after n (after m s) := by
  induction m generalizing s with
  | zero => rw [Nat.zero_add, after_zero]
  | succ m ih => rw [Nat.succ_add, after_succ, after_succ, ih]

theorem draws_add (m n : Nat) (s : σ) : draws (m + n) s = draws m s ++ draws n (after m s) := by
  induction m generalizing s with
  | zero => rw [Nat.zero_add, after_zero]; rfl
  | succ m ih =>
    rw [Nat.succ_add, after_succ]
    show (next s).1 :: draws (m + n) (next s).2 = (next s).1 :: draws m (next s).2 ++ _
    rw [ih, List.cons_append]

/-- sources that agree on `m + n` draws agree on the first `m`, and then on `n` more -/
theorem agree_add {m n : Nat} {s : σ} {t : τ} (h : draws (m + n) t = draws (m + n) s) :
    draws m t = draws m s ∧ draws n (after m t) = draws n (after m s) := by
  rw [draws_add, draws_add] at h
  exact List.append_inj h (by rw [length_draws, length_draws])

end Source

/-! ## Faults of the primitives -/

/-- does a fault come from a draw: a condition that came out false, or a draw beyond its mass? -/
def Fault.ofDraw : Fault M → Bool
  | .observationFailed => true
  | .selectionExhausted _ => true
  | _ => false

omit [Mass M] in
theorem Fault.eq_of_ofDraw {f : Fault M} (h : f.ofDraw = true) :
    f = .observationFailed ∨ ∃ m, f = .selectionExhausted m := by
  unfold ofDraw at h
  split at h
  · exact .inl rfl
  · exact .inr ⟨_, rfl⟩
  · cases h

namespace Value

variable {l r v : Value M} {f : Fault M} {op : Operation}
  {connected : Pmf Bool M → Pmf Bool M → Pmf Bool M} {ints : Pmf Int64 M → Pmf Int64 M → Pmf Bool M}
  {doubles : Pmf Double M → Pmf Double M → Pmf Bool M}
  {left right : Affine → Pmf Double M → Except Float (Pmf Bool M)}

omit [Mass M] in
theorem ofArith_eq_ok {α : Type} {wrap : α → Value M} {x : Except ArithFault α}
    (h : ofArith wrap x = .ok v) : ∃ s, x = .ok s ∧ v = wrap s := by
  cases x with
  | ok s => exact ⟨s, rfl, (Except.ok.inj h).symm⟩
  | error why => cases h

/-- arithmetic keeps the kind of two numbers, or moves and stretches a continuous sample -/
theorem arith_eq_ok {op : Arith} (h : l.arith op r = .ok v) :
    (∃ s t c, l = .int s ∧ r = .int t ∧ s.arith op t = .ok c ∧ v = .int c) ∨
      (∃ s t c, l = .float s ∧ r = .float t ∧ s.arith op t = .ok c ∧ v = .float c) ∨
      ∃ x t, numberWithSample? l r = some (x, t) ∧ v = .continuous (t.arith op x) := by
  unfold arith at h
  split at h
  · obtain ⟨c, hc, rfl⟩ := ofArith_eq_ok h
    exact .inl ⟨_, _, c, rfl, rfl, hc, rfl⟩
  · obtain ⟨c, hc, rfl⟩ := ofArith_eq_ok h
    exact .inr (.inl ⟨_, _, c, rfl, rfl, hc, rfl⟩)
  · split at h
    · next x t found => exact .inr (.inr ⟨x, t, found, (Except.ok.inj h).symm⟩)
    · cases h

theorem fault_arith {op : Arith} (h : l.arith op r = .error f) :
    (∃ why, f = .arithmetic why) ∨ f = .typeMismatch (operationOf op) [l.kind, r.kind] := by
  have ofArith_fault {α : Type} {wrap : α → Value M} {x : Except ArithFault α}
      (h : ofArith wrap x = .error f) : ∃ why, f = .arithmetic why := by
    cases x with
    | ok _ => cases h
    | error why => exact ⟨why, (Except.error.inj h).symm⟩
  unfold arith at h
  split at h
  · exact .inl (ofArith_fault h)
  · exact .inl (ofArith_fault h)
  · split at h
    · cases h
    · exact .inr (Except.error.inj h).symm

omit [Mass M] in
theorem fault_connective (h : connective op connected l r = .error f) :
    f = .typeMismatch op [l.kind, r.kind] := by
  unfold connective at h
  split at h
  · cases h
  · exact (Except.error.inj h).symm

omit [Mass M] in
/-- only truth values are connected -/
theorem connective_eq_ok (h : connective op connected l r = .ok v) :
    ∃ s t, l = .bool s ∧ r = .bool t ∧ v = .bool (connected s t) := by
  unfold connective at h
  split at h
  · cases h
    exact ⟨_, _, rfl, rfl, rfl⟩
  · cases h

theorem not_eq_ok {w : Value M} (h : w.not = .ok v) : ∃ s, w = .bool s ∧ v = .bool s.not := by
  unfold Value.not at h
  split at h
  · exact ⟨_, rfl, (Except.ok.inj h).symm⟩
  · cases h

theorem fault_not (h : v.not = .error f) : f = .typeMismatch .not [v.kind] := by
  unfold Value.not at h
  split at h
  · cases h
  · exact (Except.error.inj h).symm

theorem fault_equal (h : l.equal r = .error f) : f = .typeMismatch .equal [l.kind, r.kind] := by
  unfold Value.equal at h
  split at h
  · cases h
  · cases h
  · cases h
  · cases h
  · cases h
  · exact (Except.error.inj h).symm

omit [Mass M] in
theorem fault_ofComparison {law : Law} {x : Except Float (Pmf Bool M)}
    (h : ofComparison law x = .error f) : ∃ n, f = .noCumulative law n := by
  cases x with
  | ok _ => cases h
  | error n => exact ⟨n, (Except.error.inj h).symm⟩

omit [Mass M] in
theorem fault_comparison (h : comparison op ints doubles left right l r = .error f) :
    (∃ law n, f = .noCumulative law n) ∨ f = .typeMismatch op [l.kind, r.kind] := by
  unfold comparison at h
  split at h
  · cases h
  · cases h
  · exact .inl ⟨_, fault_ofComparison h⟩
  · exact .inl ⟨_, fault_ofComparison h⟩
  · exact .inr (Except.error.inj h).symm

omit [Mass M] in
theorem ofComparison_eq_ok {law : Law} {x : Except Float (Pmf Bool M)}
    (h : ofComparison law x = .ok v) : ∃ c, x = .ok c ∧ v = .bool c := by
  cases x with
  | ok c => exact ⟨c, rfl, (Except.ok.inj h).symm⟩
  | error n => cases h

omit [Mass M] in
/-- a comparison gives a truth value, of two numbers or of a double and a continuous sample -/
theorem comparison_eq_ok (h : comparison op ints doubles left right l r = .ok v) :
    ∃ c, v = .bool c ∧
      ((∃ s t, l = .int s ∧ r = .int t ∧ c = ints s t) ∨
        (∃ s t, l = .float s ∧ r = .float t ∧ c = doubles s t) ∨
        (∃ x t, l = .continuous x ∧ r = .float t ∧ left x t = .ok c) ∨
        ∃ s x, l = .float s ∧ r = .continuous x ∧ right x s = .ok c) := by
  unfold comparison at h
  split at h
  · cases h
    exact ⟨_, rfl, .inl ⟨_, _, rfl, rfl, rfl⟩⟩
  · cases h
    exact ⟨_, rfl, .inr (.inl ⟨_, _, rfl, rfl, rfl⟩)⟩
  · obtain ⟨c, asked, rfl⟩ := ofComparison_eq_ok h
    exact ⟨c, rfl, .inr (.inr (.inl ⟨_, _, rfl, rfl, asked⟩))⟩
  · obtain ⟨c, asked, rfl⟩ := ofComparison_eq_ok h
    exact ⟨c, rfl, .inr (.inr (.inr ⟨_, _, rfl, rfl, asked⟩))⟩
  · cases h

theorem fault_parameter {family : Family} {name : String}
    (h : parameter family name v = .error f) : ∃ why, f = .parameter family name why := by
  unfold parameter at h
  split at h
  · split at h
    · cases h
    · exact ⟨_, (Except.error.inj h).symm⟩
  · exact ⟨_, (Except.error.inj h).symm⟩

theorem parameter_eq_ok {family : Family} {name : String} {x : Float}
    (h : parameter family name v = .ok x) :
    ∃ s, v = .float s ∧ x ∈ (s.single.map Double.toFloat).toList := by
  unfold parameter at h
  split at h
  · next s =>
    split at h
    · next y hy =>
      cases h
      exact ⟨s, rfl, by rw [hy]; exact List.mem_singleton.mpr rfl⟩
    · cases h
  · cases h

/-- the parameter of a distribution is the double that is certain -/
theorem ofParameter_eq_ok {family : Family} {name : String} {build : Float → Distribution}
    {w : Value M} (h : ofParameter family name build w = .ok v) :
    ∃ s x, w = .float s ∧ x ∈ (s.single.map Double.toFloat).toList ∧
      v = .distribution (build x) := by
  unfold ofParameter at h
  split at h
  · cases h
  · next x hx =>
    obtain ⟨s, rfl, taken⟩ := parameter_eq_ok hx
    exact ⟨s, x, rfl, taken, (Except.ok.inj h).symm⟩

theorem ofParameters_eq_ok {family : Family} {first second : String}
    {build : Float → Float → Law} (h : ofParameters family first second build l r = .ok v) :
    ∃ x y, v = .distribution (.continuous (build x y)) := by
  unfold ofParameters at h
  split at h
  · cases h
  · split at h
    · cases h
    · exact ⟨_, _, (Except.ok.inj h).symm⟩

theorem fault_ofParameter {family : Family} {name : String} {build : Float → Distribution}
    (h : ofParameter family name build v = .error f) : ∃ why, f = .parameter family name why := by
  unfold ofParameter at h
  split at h
  · next hp => exact fault_parameter (Except.error.inj h ▸ hp)
  · cases h

theorem fault_ofParameters {family : Family} {first second : String}
    {build : Float → Float → Law} (h : ofParameters family first second build l r = .error f) :
    ∃ name why, f = .parameter family name why := by
  unfold ofParameters at h
  split at h
  · next hp => exact ⟨_, fault_parameter (Except.error.inj h ▸ hp)⟩
  · split at h
    · next hp => exact ⟨_, fault_parameter (Except.error.inj h ▸ hp)⟩
    · cases h

/-- sampling a distribution never fails: the shape is the one that was declared -/
theorem sample_distribution (d : Distribution) :
    ∃ w : Value M, (Value.distribution d : Value M).sample = .ok w ∧ w.kind = d.declares.kind := by
  cases d with
  | bernoulli p => exact ⟨_, rfl, rfl⟩
  | flip p => exact ⟨_, rfl, rfl⟩
  | continuous law => exact ⟨_, rfl, rfl⟩

theorem fault_sample (h : v.sample = .error f) : f = .typeMismatch .sample [v.kind] := by
  cases v with
  | distribution d =>
    obtain ⟨w, hw, -⟩ := sample_distribution (M := M) d
    rw [hw] at h
    cases h
  | bool s => exact (Except.error.inj h).symm
  | int s => exact (Except.error.inj h).symm
  | float s => exact (Except.error.inj h).symm
  | continuous s => exact (Except.error.inj h).symm

/-- an observation gives what it lets pass -/
theorem observe_eq_ok {s : σ} (h : (l.observe r s).1 = .ok v) : v = r := by
  cases l with
  | bool c =>
    unfold observe at h
    dsimp only at h
    split at h <;> cases h
    rfl
  | _ => cases h

end Value

/-! ## Applications -/

namespace Operation

/-- does an application draw?  Only the observation of a truth value does. -/
def draws : Operation → List (Value M) → Bool
  | .observe, [.bool _, _] => true
  | _, _ => false

omit [Mass M] in
theorem eq_of_draws {op : Operation} {vs : List (Value M)} (h : op.draws vs = true) :
    ∃ s r, op = .observe ∧ vs = [.bool s, r] := by
  unfold draws at h
  split at h
  · exact ⟨_, _, rfl, rfl⟩
  · exact absurd h (by decide)

/-- an application that does not draw has one result and leaves the source alone -/
theorem apply_of_not_draws (F : Cumulative) {op : Operation} {vs : List (Value M)}
    (h : op.draws vs = false) (s : σ) (t : τ) :
    (op.apply F vs s : Evaluated M σ (Value M)) = ((op.apply F vs t).1, s) := by
  cases op <;> rcases vs with _ | ⟨v, _ | ⟨w, _ | ⟨x, vs⟩⟩⟩ <;> try rfl
  -- what is left is an observation of two operands, whose condition is no truth value
  cases v with
  | bool c => exact absurd h (by simp [draws])
  | int _ => rfl
  | float _ => rfl
  | continuous _ => rfl
  | distribution _ => rfl

theorem apply_observe (F : Cumulative) (c : Pmf Bool M) (r : Value M) (s : σ) :
    observe.apply F [.bool c, r] s = Value.observe (.bool c) r s := rfl

theorem apply_arith (F : Cumulative) (a : Arith) (l r : Value M) (s : σ) :
    (Value.operationOf a).apply F [l, r] s = (l.arith a r, s) := by
  cases a <;> rfl

/-- the faults of an application that does not draw -/
theorem fault_apply {F : Cumulative} {op : Operation} {vs : List (Value M)} {s : σ} {f : Fault M}
    (hd : op.draws vs = false) (h : (op.apply F vs s).1 = .error f) :
    f = .typeMismatch op (vs.map Value.kind) ∨ f = .arity op vs.length ∨
      (∃ family name why, f = .parameter family name why) ∨ (∃ why, f = .arithmetic why) ∨
      ∃ law n, f = .noCumulative law n := by
  unfold apply at h
  split at h
  · exact .inl (Value.fault_not h)
  · exact .inr (.inr (.inl ⟨_, _, Value.fault_ofParameter h⟩))
  · exact .inr (.inr (.inl ⟨_, _, Value.fault_ofParameter h⟩))
  · exact .inl (Value.fault_sample h)
  · exact (Value.fault_arith h).elim (fun a => .inr (.inr (.inr (.inl a)))) .inl
  · exact (Value.fault_arith h).elim (fun a => .inr (.inr (.inr (.inl a)))) .inl
  · exact (Value.fault_arith h).elim (fun a => .inr (.inr (.inr (.inl a)))) .inl
  · exact (Value.fault_arith h).elim (fun a => .inr (.inr (.inr (.inl a)))) .inl
  · exact .inl (Value.fault_connective h)
  · exact .inl (Value.fault_connective h)
  · exact .inl (Value.fault_equal h)
  · exact (Value.fault_comparison h).elim (fun c => .inr (.inr (.inr (.inr c)))) .inl
  · exact (Value.fault_comparison h).elim (fun c => .inr (.inr (.inr (.inr c)))) .inl
  · exact .inr (.inr (.inl ⟨_, Value.fault_ofParameters h⟩))
  · exact .inr (.inr (.inl ⟨_, Value.fault_ofParameters h⟩))
  · next c r =>
    cases c with
    | bool c => cases hd
    | int _ => exact .inl (Except.error.inj h).symm
    | float _ => exact .inl (Except.error.inj h).symm
    | continuous _ => exact .inl (Except.error.inj h).symm
    | distribution _ => exact .inl (Except.error.inj h).symm
  · exact .inr (.inl (Except.error.inj h).symm)

/-- only an application that draws fails for a draw -/
theorem draws_of_fault {F : Cumulative} {op : Operation} {vs : List (Value M)} {s : σ}
    {f : Fault M} (h : (op.apply F vs s).1 = .error f) (hf : f.ofDraw = true) :
    op.draws vs = true := by
  cases hd : op.draws vs with
  | true => rfl
  | false =>
    obtain rfl | rfl | ⟨_, _, _, rfl⟩ | ⟨_, rfl⟩ | ⟨_, _, rfl⟩ := fault_apply hd h <;> cases hf

theorem apply_source (F : Cumulative) (op : Operation) (vs : List (Value M)) (s : σ) :
    (op.apply F vs s : Evaluated M σ (Value M)).2 = Source.after (op.draws vs).toNat s := by
  cases h : op.draws vs with
  | false => rw [apply_of_not_draws F h s s]; rfl
  | true =>
    obtain ⟨c, r, rfl, rfl⟩ := eq_of_draws h
    rw [apply_observe]
    unfold Value.observe
    dsimp only
    split <;> rfl

/-- the result of an application depends on the draw that it uses, and on no more -/
theorem apply_congr (F : Cumulative) (op : Operation) (vs : List (Value M)) {s : σ} {t : τ}
    (h : Source.draws (op.draws vs).toNat t = Source.draws (op.draws vs).toNat s) :
    (op.apply F vs t).1 = (op.apply F vs s).1 := by
  cases hd : op.draws vs with
  | false => rw [apply_of_not_draws F hd t s]
  | true =>
    obtain ⟨c, r, rfl, rfl⟩ := eq_of_draws hd
    have first : (Source.next t).1 = (Source.next s).1 := (List.cons.inj h).1
    rw [apply_observe, apply_observe]
    unfold Value.observe
    dsimp only
    rw [first]
    split <;> rfl

theorem draws_of_apply_observe {F : Cumulative} {vs : List (Value M)} {s : σ} {v : Value M}
    (h : (observe.apply F vs s).1 = .ok v) : observe.draws vs = true := by
  cases hd : observe.draws vs with
  | true => rfl
  | false =>
    rcases vs with _ | ⟨c, _ | ⟨r, _ | ⟨x, vs⟩⟩⟩
    · cases h
    · cases h
    · cases c with
      | bool c => cases hd
      | int _ => cases h
      | float _ => cases h
      | continuous _ => cases h
      | distribution _ => cases h
    · cases h

end Operation

/-! ## Programs -/

namespace Program

variable {F : Cumulative} {op : Operation} {a : Program} {as args : List Program} {s t u : σ}
  {f : Fault M} {v : Value M} {vs : List (Value M)}

theorem eval_const (F : Cumulative) (j : Json) (s : σ) :
    ((const j).eval F s : Evaluated M σ (Value M)) = (Value.constant j, s) := by
  rw [eval]

theorem eval_call_error (h : evalAll F args s = (.error f, t)) :
    (call op args).eval F s = (.error f, t) := by
  rw [eval, h]

theorem eval_call_ok (h : evalAll F args s = (.ok vs, t)) :
    (call op args).eval F s = op.apply F vs t := by
  rw [eval, h]

theorem evalAll_nil (F : Cumulative) (s : σ) :
    (evalAll F [] s : Evaluated M σ (List (Value M))) = (.ok [], s) := by
  rw [evalAll]

theorem evalAll_cons_error (h : a.eval F s = (.error f, t)) :
    evalAll F (a :: as) s = (.error f, t) := by
  rw [evalAll, h]

theorem evalAll_cons_tail (h : a.eval F s = (.ok v, t)) (hs : evalAll F as t = (.error f, u)) :
    evalAll F (a :: as) s = (.error f, u) := by
  rw [evalAll, h]
  dsimp only
  rw [hs]

theorem evalAll_cons_ok (h : a.eval F s = (.ok v, t)) (hs : evalAll F as t = (.ok vs, u)) :
    evalAll F (a :: as) s = (.ok (v :: vs), u) := by
  rw [evalAll, h]
  dsimp only
  rw [hs]

end Program
end Chance
