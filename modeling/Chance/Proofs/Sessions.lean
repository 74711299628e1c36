import Chance.Proofs.Draws

/-!
# Sessions

Calls of the operations one after the other, outside any program: the operands of a call are
results of earlier calls, and a result can be an operand any number of times.

* `Call`, `Answer`        what is called and what comes back;
* `Session.step`, `run`   one call, and a list of them;
* `Session.applications`  the operations that a list of calls comes to apply, with their operands;
* `Session.run_keeps`, `run_values`   what holds of literals and is kept by the operations that are
                          applied holds of all values of a session;
* `Program.eval_keeps`    and of the value of a program and of all operands in its evaluation;
* `Program.operations`    the operations of a program, among which are those that it applies.
-/

namespace Chance

variable {M σ : Type} [Mass M] [Source σ]

inductive Call where
  | constant (l : Literal)
  /-- an operation on earlier results, each told by its place -/
  | apply (op : Operation) (operands : List Nat)

inductive Answer (M : Type) where
  | value (v : Value M)
  | fault (f : Fault M)
  /-- an operand is told by a place that holds no value -/
  | unresolved

namespace Answer

def ofResult : Except (Fault M) (Value M) → Answer M
  | .ok v => .value v
  | .error f => .fault f

def value? : Answer M → Option (Value M)
  | .value v => some v
  | _ => none

omit [Mass M] in
theorem ofResult_eq_fault {r : Except (Fault M) (Value M)} {f : Fault M} :
    ofResult r = .fault f ↔ r = .error f := by
  cases r <;> simp [ofResult]

omit [Mass M] in
theorem value?_ofResult {r : Except (Fault M) (Value M)} {v : Value M} :
    (ofResult r).value? = some v ↔ r = .ok v := by
  cases r <;> simp [ofResult, value?]

end Answer

/-- the answers so far, the first one first, and the source for the next draw -/
structure Session (M σ : Type) where
  answers : List (Answer M)
  source : σ

namespace Session

def start (s : σ) : Session M σ := ⟨[], s⟩

def values (t : Session M σ) : List (Value M) := t.answers.filterMap Answer.value?

/-- the value at a place -/
def operand? (t : Session M σ) (k : Nat) : Option (Value M) := t.answers[k]?.bind Answer.value?

/-- the operation that a call applies, with its operands -/
def application? (t : Session M σ) : Call → Option (Operation × List (Value M))
  | .constant _ => none
  | .apply op ks => (ks.mapM t.operand?).map fun vs => (op, vs)

def answer (F : Cumulative) (t : Session M σ) : Call → Answer M × σ
  | .constant l => (.value l.toValue, t.source)
  | .apply op ks =>
    match t.application? (.apply op ks) with
    | none => (.unresolved, t.source)
    | some (op, vs) =>
      match op.apply F vs t.source with
      | (r, s) => (.ofResult r, s)

/-- a call with its answer recorded -/
def step (F : Cumulative) (t : Session M σ) (c : Call) : Session M σ :=
  match t.answer F c with
  | (a, s) => ⟨t.answers ++ [a], s⟩

def run (F : Cumulative) : List Call → Session M σ → Session M σ
  | [], t => t
  | c :: calls, t => run F calls (t.step F c)

/-- the operations that a list of calls applies, in order -/
def applications (F : Cumulative) : List Call → Session M σ → List (Operation × List (Value M))
  | [], _ => []
  | c :: calls, t => (t.application? c).toList ++ applications F calls (t.step F c)

section

variable {F : Cumulative} {t : Session M σ} {c : Call} {op : Operation} {ks : List Nat}
  {vs : List (Value M)}

omit [Mass M] [Source σ] in
theorem mem_values_of_operand {k : Nat} {v : Value M} (h : t.operand? k = some v) :
    v ∈ t.values := by
  obtain ⟨a, place, value⟩ := Option.bind_eq_some_iff.mp h
  exact List.mem_filterMap.mpr ⟨a, List.mem_of_getElem? place, value⟩

omit [Mass M] [Source σ] in
/-- operands are values of the session -/
theorem mem_values_of_operands (h : ks.mapM t.operand? = some vs) : ∀ v ∈ vs, v ∈ t.values := by
  induction ks generalizing vs with
  | nil =>
    cases h
    exact fun v hv => absurd hv List.not_mem_nil
  | cons k ks ih =>
    rw [List.mapM_cons] at h
    obtain ⟨w, hw, rest⟩ := Option.bind_eq_some_iff.mp h
    obtain ⟨ws, hws, all⟩ := Option.bind_eq_some_iff.mp rest
    cases all
    exact List.forall_mem_cons.mpr ⟨mem_values_of_operand hw, ih hws⟩

omit [Mass M] [Source σ] in
theorem eq_of_application? (h : t.application? c = some (op, vs)) :
    (∃ ks, c = .apply op ks) ∧ ∀ v ∈ vs, v ∈ t.values := by
  cases c with
  | constant l => cases h
  | apply op' ks =>
    obtain ⟨ws, operands, same⟩ := Option.map_eq_some_iff.mp h
    cases same
    exact ⟨⟨ks, rfl⟩, mem_values_of_operands operands⟩

theorem answer_of_application? (h : t.application? c = some (op, vs)) :
    t.answer F c = (.ofResult (op.apply F vs t.source).1, (op.apply F vs t.source).2) := by
  obtain ⟨⟨ks, rfl⟩, -⟩ := eq_of_application? h
  rw [answer, h]

/-- an answer that is no application is a literal, or tells of a missing operand -/
theorem answer_of_no_application (h : t.application? c = none) :
    (∃ l, c = .constant l ∧ (t.answer F c).1 = .value l.toValue) ∨
      (t.answer F c).1 = .unresolved := by
  cases c with
  | constant l => exact .inl ⟨l, rfl, rfl⟩
  | apply op ks =>
    right
    rw [answer, h]

theorem values_step : (t.step F c).values = t.values ++ ((t.answer F c).1.value?).toList := by
  unfold step values
  rw [List.filterMap_append, List.filterMap_cons, List.filterMap_nil]
  cases (t.answer F c).1.value? <;> rfl

end

/-- a session applies the operations that are called -/
theorem exists_call (F : Cumulative) {op : Operation} {vs : List (Value M)} {calls : List Call}
    {t : Session M σ} (h : (op, vs) ∈ applications F calls t) :
    ∃ ks, Call.apply op ks ∈ calls := by
  induction calls generalizing t with
  | nil => exact absurd h List.not_mem_nil
  | cons c calls ih =>
    rcases List.mem_append.mp h with first | rest
    · obtain ⟨⟨ks, rfl⟩, -⟩ := eq_of_application? (Option.mem_toList.mp first)
      exact ⟨ks, List.mem_cons_self⟩
    · obtain ⟨ks, hks⟩ := ih rest
      exact ⟨ks, List.mem_cons_of_mem c hks⟩

/-! ## What a session keeps -/

section

variable {F : Cumulative} {P : Value M → Prop} {Q : Operation × List (Value M) → Prop}

/-- one call -/
theorem step_values {c : Call} (literal : ∀ l : Literal, c = .constant l → P l.toValue)
    (keeps : ∀ op vs (s : σ) v, Q (op, vs) → (∀ w ∈ vs, P w) → (op.apply F vs s).1 = .ok v → P v)
    {t : Session M σ} (before : ∀ v ∈ t.values, P v)
    (fits : ∀ a ∈ t.application? c, Q a) : ∀ v ∈ (t.step F c).values, P v := by
  intro v hv
  rw [values_step, List.mem_append] at hv
  rcases hv with old | new
  · exact before v old
  · rw [Option.mem_toList] at new
    cases h : t.application? c with
    | none =>
      rcases answer_of_no_application (F := F) h with ⟨l, constant, value⟩ | missing
      · rw [value] at new
        cases new
        exact literal l constant
      · rw [missing] at new
        cases new
    | some a =>
      obtain ⟨op, vs⟩ := a
      rw [answer_of_application? h] at new
      exact keeps op vs t.source v (fits _ h)
        (fun u hu => before u ((eq_of_application? h).2 u hu)) (Answer.value?_ofResult.mp new)

/-- a list of calls with certain literals -/
theorem run_keeps
    (keeps : ∀ op vs (s : σ) v, Q (op, vs) → (∀ w ∈ vs, P w) → (op.apply F vs s).1 = .ok v → P v)
    (calls : List Call) (literal : ∀ l : Literal, .constant l ∈ calls → P l.toValue)
    {t : Session M σ} (before : ∀ v ∈ t.values, P v)
    (fits : ∀ a ∈ applications F calls t, Q a) : ∀ v ∈ (run F calls t).values, P v := by
  induction calls generalizing t with
  | nil => exact before
  | cons c calls ih =>
    have first := step_values (fun l hl => literal l (hl ▸ List.mem_cons_self)) keeps before
      fun a ha => fits a (List.mem_append_left _ (Option.mem_toList.mpr ha))
    exact ih (fun l hl => literal l (List.mem_cons_of_mem c hl)) first
      fun a ha => fits a (List.mem_append_right _ ha)

/-- a list of calls -/
theorem run_values (literal : ∀ l : Literal, P l.toValue)
    (keeps : ∀ op vs (s : σ) v, Q (op, vs) → (∀ w ∈ vs, P w) → (op.apply F vs s).1 = .ok v → P v)
    (calls : List Call) {t : Session M σ} (before : ∀ v ∈ t.values, P v)
    (fits : ∀ a ∈ applications F calls t, Q a) : ∀ v ∈ (run F calls t).values, P v :=
  run_keeps keeps calls (fun l _ => literal l) before fits

end

end Session

/-! ## What an evaluation keeps -/

namespace Program

section

variable {F : Cumulative} {P : Value M → Prop} {Q : Operation × List (Value M) → Prop}

mutual

/-- what holds of literals and is kept by the applications of an evaluation holds of its value and
of all operands -/
theorem eval_keeps (literal : ∀ l : Literal, P l.toValue)
    (keeps : ∀ op vs (s : σ) v, Q (op, vs) → (∀ w ∈ vs, P w) → (op.apply F vs s).1 = .ok v → P v) :
    ∀ (p : Program) (s : σ),
      (∀ a ∈ (p.applications F s : List (Operation × List (Value M))), Q a) →
      (∀ v, (p.eval F s).1 = .ok v → P v) ∧ ∀ a ∈ p.applications F s, ∀ w ∈ a.2, P w
  | .const j, s, _ => by
    rw [eval_const, applications_const]
    refine ⟨?_, fun a ha => absurd ha List.not_mem_nil⟩
    intro v hv
    unfold Value.constant at hv
    split at hv
    · next l _ =>
      cases hv
      exact literal l
    · cases hv
  | .call op args, s, fits => by
    rcases h : (evalAll F args s : Evaluated M σ (List (Value M))) with ⟨f | vs, t⟩
    · rw [applications_call_error h] at fits ⊢
      rw [eval_call_error h]
      exact ⟨fun v hv => (nomatch hv), (evalAll_keeps literal keeps args s fits).2⟩
    · rw [applications_call_ok h] at fits ⊢
      rw [eval_call_ok h]
      obtain ⟨values, operands⟩ := evalAll_keeps literal keeps args s fun a ha =>
        fits a (List.mem_append_left _ ha)
      rw [h] at values
      have last := fits (op, vs) (List.mem_append_right _ (List.mem_singleton.mpr rfl))
      refine ⟨fun v hv => keeps op vs t v last (values vs rfl) hv, fun a ha => ?_⟩
      rcases List.mem_append.mp ha with before | new
      · exact operands a before
      · rw [List.mem_singleton.mp new]
        exact values vs rfl

theorem evalAll_keeps (literal : ∀ l : Literal, P l.toValue)
    (keeps : ∀ op vs (s : σ) v, Q (op, vs) → (∀ w ∈ vs, P w) → (op.apply F vs s).1 = .ok v → P v) :
    ∀ (ps : List Program) (s : σ),
      (∀ a ∈ (applicationsAll F ps s : List (Operation × List (Value M))), Q a) →
      (∀ vs, (evalAll F ps s).1 = .ok vs → ∀ v ∈ vs, P v) ∧
        ∀ a ∈ applicationsAll F ps s, ∀ w ∈ a.2, P w
  | [], s, _ => by
    rw [evalAll_nil, applicationsAll_nil]
    refine ⟨?_, fun a ha => absurd ha List.not_mem_nil⟩
    intro vs hvs
    cases hvs
    exact fun v hv => absurd hv List.not_mem_nil
  | a :: as, s, fits => by
    rcases h : (eval F a s : Evaluated M σ (Value M)) with ⟨f | v, t⟩
    · rw [applicationsAll_cons_error h] at fits ⊢
      rw [evalAll_cons_error h]
      exact ⟨fun vs hvs => (nomatch hvs), (eval_keeps literal keeps a s fits).2⟩
    · rw [applicationsAll_cons_ok h] at fits ⊢
      obtain ⟨value, operands⟩ := eval_keeps literal keeps a s fun b hb =>
        fits b (List.mem_append_left _ hb)
      obtain ⟨values, others⟩ := evalAll_keeps literal keeps as t fun b hb =>
        fits b (List.mem_append_right _ hb)
      rw [h] at value
      refine ⟨?_, fun b hb => (List.mem_append.mp hb).elim (operands b) (others b)⟩
      rcases hs : (evalAll F as t : Evaluated M σ (List (Value M))) with ⟨f | ws, u⟩
      · rw [evalAll_cons_tail h hs]
        exact fun vs hvs => nomatch hvs
      · rw [hs] at values
        rw [evalAll_cons_ok h hs]
        intro vs hvs
        cases hvs
        exact List.forall_mem_cons.mpr ⟨value v rfl, values ws rfl⟩

end

end

mutual

/-- the operations that a program is built from -/
def operations : Program → List Operation
  | .const _ => []
  | .call op args => operationsAll args ++ [op]

def operationsAll : List Program → List Operation
  | [] => []
  | a :: as => operations a ++ operationsAll as

end

mutual

theorem mem_operations {F : Cumulative} : ∀ {p : Program} {s : σ} {a : Operation × List (Value M)},
    a ∈ p.applications F s → a.1 ∈ p.operations
  | .const j, s, a, h => by
    rw [applications_const] at h
    exact absurd h List.not_mem_nil
  | .call op args, s, a, h => by
    rw [operations, List.mem_append]
    rcases hs : (evalAll F args s : Evaluated M σ (List (Value M))) with ⟨f | vs, t⟩
    · rw [applications_call_error hs] at h
      exact .inl (mem_operationsAll h)
    · rw [applications_call_ok hs, List.mem_append] at h
      rcases h with before | last
      · exact .inl (mem_operationsAll before)
      · rw [List.mem_singleton.mp last]
        exact .inr (List.mem_singleton.mpr rfl)

theorem mem_operationsAll {F : Cumulative} : ∀ {ps : List Program} {s : σ}
    {a : Operation × List (Value M)}, a ∈ applicationsAll F ps s → a.1 ∈ operationsAll ps
  | [], s, a, h => by
    rw [applicationsAll_nil] at h
    exact absurd h List.not_mem_nil
  | b :: bs, s, a, h => by
    rw [operationsAll, List.mem_append]
    rcases hs : (eval F b s : Evaluated M σ (Value M)) with ⟨f | v, t⟩
    · rw [applicationsAll_cons_error hs] at h
      exact .inl (mem_operations h)
    · rw [applicationsAll_cons_ok hs, List.mem_append] at h
      exact h.elim (fun x => .inl (mem_operations x)) fun x => .inr (mem_operationsAll x)

end

end Program
end Chance
