import Chance.Proofs.Evaluation

/-!
# The draws of an evaluation

An evaluation is followed through the applications that it reaches.  The draws it makes are the
observations of a truth value among them, and nothing else of the source plays a part.

* `Program.applications`  the applications that are reached, with their evaluated operands, each
                          after the applications inside its operands; the one that fails is the
                          last;
* `Program.drawn`         how many of them draw;
* `eval_source`           the source is moved on by exactly that number of draws;
* `last_of_draw`          an evaluation that fails for a draw has stopped at it;
* `drawn_le_observes`, `drawn_eq_observes`   an evaluation draws at most once for each `observe`
                          node, and exactly once if it gives a value;
* `eval_agree`            two sources with the same draws, as far as they are drawn, are treated
                          alike;
* `draws_accounted`       all of this in one statement.
-/

namespace Chance

variable {M σ τ : Type} [Mass M] [Source σ] [Source τ]

namespace Operation

omit [Mass M] in
theorem draws_le (op : Operation) (vs : List (Value M)) :
    (op.draws vs).toNat ≤ if op = .observe then 1 else 0 := by
  cases h : op.draws vs with
  | false => exact Nat.zero_le _
  | true =>
    obtain ⟨c, r, rfl, -⟩ := eq_of_draws h
    exact Nat.le_refl 1

theorem draws_of_ok {F : Cumulative} {op : Operation} {vs : List (Value M)} {s : σ} {v : Value M}
    (h : (op.apply F vs s).1 = .ok v) : (op.draws vs).toNat = if op = .observe then 1 else 0 := by
  by_cases e : op = .observe
  · subst e
    rw [draws_of_apply_observe h]
    rfl
  · have none : op.draws vs = false := by
      cases hd : op.draws vs with
      | false => rfl
      | true =>
        obtain ⟨c, r, rfl, -⟩ := eq_of_draws hd
        exact absurd rfl e
    rw [none, if_neg e]
    rfl

end Operation

namespace Program

mutual

/-- the applications that an evaluation reaches, in order, each with its evaluated operands -/
def applications (F : Cumulative) : Program → σ → List (Operation × List (Value M))
  | .const _, _ => []
  | .call op args, s =>
    match (evalAll F args s : Evaluated M σ (List (Value M))) with
    | (.error _, _) => applicationsAll F args s
    | (.ok vs, _) => applicationsAll F args s ++ [(op, vs)]

def applicationsAll (F : Cumulative) : List Program → σ → List (Operation × List (Value M))
  | [], _ => []
  | a :: as, s =>
    match (eval F a s : Evaluated M σ (Value M)) with
    | (.error _, _) => applications F a s
    | (.ok _, t) => applications F a s ++ applicationsAll F as t

end

/-- how many applications of a list draw -/
def drawnBy (l : List (Operation × List (Value M))) : Nat := l.countP fun a => a.1.draws a.2

omit [Mass M] in
theorem drawnBy_append (l k : List (Operation × List (Value M))) :
    drawnBy (l ++ k) = drawnBy l + drawnBy k := List.countP_append

omit [Mass M] in
theorem drawnBy_singleton (op : Operation) (vs : List (Value M)) :
    drawnBy [(op, vs)] = (op.draws vs).toNat := by
  unfold drawnBy
  rw [List.countP_singleton]
  cases op.draws vs <;> rfl

variable (M) in
/-- how often an evaluation draws -/
def drawn (F : Cumulative) (p : Program) (s : σ) : Nat :=
  drawnBy (p.applications F s : List (Operation × List (Value M)))

mutual

/-- the number of `observe` nodes -/
def observes : Program → Nat
  | .const _ => 0
  | .call op args => observesAll args + if op = .observe then 1 else 0

def observesAll : List Program → Nat
  | [] => 0
  | a :: as => observes a + observesAll as

end

section

variable {F : Cumulative} {op : Operation} {a : Program} {as args : List Program} {s t : σ}
  {f : Fault M} {v : Value M} {vs : List (Value M)}

theorem applications_const (F : Cumulative) (j : Json) (s : σ) :
    ((const j).applications F s : List (Operation × List (Value M))) = [] := by
  rw [applications]

theorem applications_call_error (h : evalAll F args s = (.error f, t)) :
    ((call op args).applications F s : List (Operation × List (Value M))) =
      applicationsAll F args s := by
  rw [applications, h]

theorem applications_call_ok (h : evalAll F args s = (.ok vs, t)) :
    (call op args).applications F s = applicationsAll F args s ++ [(op, vs)] := by
  rw [applications, h]

theorem applicationsAll_nil (F : Cumulative) (s : σ) :
    (applicationsAll F [] s : List (Operation × List (Value M))) = [] := by
  rw [applicationsAll]

theorem applicationsAll_cons_error (h : a.eval F s = (.error f, t)) :
    (applicationsAll F (a :: as) s : List (Operation × List (Value M))) = a.applications F s := by
  rw [applicationsAll, h]

theorem applicationsAll_cons_ok (h : a.eval F s = (.ok v, t)) :
    (applicationsAll F (a :: as) s : List (Operation × List (Value M))) =
      a.applications F s ++ applicationsAll F as t := by
  rw [applicationsAll, h]

end

/-! ## The source after an evaluation -/

variable (M) in
def drawnAll (F : Cumulative) (ps : List Program) (s : σ) : Nat :=
  drawnBy (applicationsAll F ps s : List (Operation × List (Value M)))

mutual

/-- an evaluation moves the source on by its draws -/
theorem eval_source (F : Cumulative) : ∀ (p : Program) (s : σ),
    (p.eval F s : Evaluated M σ (Value M)).2 = Source.after (p.drawn M F s) s
  | .const v, s => by
    rw [eval_const, drawn, applications_const]
    rfl
  | .call op args, s => by
    have all := evalAll_source F args s
    rcases h : (evalAll F args s : Evaluated M σ (List (Value M))) with ⟨f | vs, t⟩
    · rw [h] at all
      rw [eval_call_error h, drawn, applications_call_error h]
      exact all
    · rw [h] at all
      rw [eval_call_ok h, drawn, applications_call_ok h, Operation.apply_source, drawnBy_append,
        drawnBy_singleton, Source.after_add]
      exact congrArg (Source.after _) all

theorem evalAll_source (F : Cumulative) : ∀ (ps : List Program) (s : σ),
    (evalAll F ps s : Evaluated M σ (List (Value M))).2 = Source.after (drawnAll M F ps s) s
  | [], s => by
    rw [evalAll_nil, drawnAll, applicationsAll_nil]
    rfl
  | a :: as, s => by
    have first := eval_source F a s
    rcases h : (eval F a s : Evaluated M σ (Value M)) with ⟨f | v, t⟩
    · rw [h] at first
      rw [evalAll_cons_error h, drawnAll, applicationsAll_cons_error h]
      exact first
    · have rest := evalAll_source F as t
      rw [h] at first
      rw [drawnAll, applicationsAll_cons_ok h, drawnBy_append, Source.after_add]
      have moved : Source.after (drawnBy (a.applications F s : List (Operation × List (Value M)))) s
          = t := first.symm
      rw [moved]
      rcases hs : (evalAll F as t : Evaluated M σ (List (Value M))) with ⟨f | vs, u⟩
      · rw [hs] at rest
        rw [evalAll_cons_tail h hs]
        exact rest
      · rw [hs] at rest
        rw [evalAll_cons_ok h hs]
        exact rest

end

theorem source_of_eval {F : Cumulative} {p : Program} {s t : σ} {r : Except (Fault M) (Value M)}
    (h : p.eval F s = (r, t)) : t = Source.after (p.drawn M F s) s :=
  (congrArg Prod.snd h).symm.trans (eval_source F p s)

theorem source_of_evalAll {F : Cumulative} {ps : List Program} {s t : σ}
    {r : Except (Fault M) (List (Value M))} (h : evalAll F ps s = (r, t)) :
    t = Source.after (drawnAll M F ps s) s :=
  (congrArg Prod.snd h).symm.trans (evalAll_source F ps s)

/-! ## How many draws -/

mutual

/-- an evaluation draws at most once for each `observe` node -/
theorem drawn_le_observes (F : Cumulative) : ∀ (p : Program) (s : σ), p.drawn M F s ≤ p.observes
  | .const v, s => by
    rw [drawn, applications_const]
    exact Nat.zero_le _
  | .call op args, s => by
    have all := drawnAll_le_observesAll F args s
    rw [observes]
    rcases h : (evalAll F args s : Evaluated M σ (List (Value M))) with ⟨f | vs, t⟩
    · rw [drawn, applications_call_error h]
      exact Nat.le_add_right_of_le all
    · rw [drawn, applications_call_ok h, drawnBy_append, drawnBy_singleton]
      exact Nat.add_le_add all (Operation.draws_le op vs)

theorem drawnAll_le_observesAll (F : Cumulative) : ∀ (ps : List Program) (s : σ),
    drawnAll M F ps s ≤ observesAll ps
  | [], s => by
    rw [drawnAll, applicationsAll_nil]
    exact Nat.zero_le _
  | a :: as, s => by
    have first := drawn_le_observes F a s
    rw [observesAll]
    rcases h : (eval F a s : Evaluated M σ (Value M)) with ⟨f | v, t⟩
    · rw [drawnAll, applicationsAll_cons_error h]
      exact Nat.le_add_right_of_le first
    · rw [drawnAll, applicationsAll_cons_ok h, drawnBy_append]
      exact Nat.add_le_add first (drawnAll_le_observesAll F as t)

end

mutual

/-- and exactly once if it gives a value -/
theorem drawn_eq_observes {F : Cumulative} : ∀ {p : Program} {s t : σ} {v : Value M},
    p.eval F s = (.ok v, t) → p.drawn M F s = p.observes
  | .const j, s, t, v, _ => by
    rw [drawn, applications_const, observes]
    rfl
  | .call op args, s, t, v, hv => by
    rcases h : (evalAll F args s : Evaluated M σ (List (Value M))) with ⟨f | vs, u⟩
    · rw [eval_call_error h] at hv
      cases hv
    · rw [eval_call_ok h] at hv
      have all := drawnAll_eq_observesAll h
      rw [drawn, applications_call_ok h, drawnBy_append, drawnBy_singleton, observes, ← all,
        Operation.draws_of_ok (congrArg Prod.fst hv)]
      rfl

theorem drawnAll_eq_observesAll {F : Cumulative} : ∀ {ps : List Program} {s t : σ}
    {vs : List (Value M)}, evalAll F ps s = (.ok vs, t) → drawnAll M F ps s = observesAll ps
  | [], s, t, vs, _ => by
    rw [drawnAll, applicationsAll_nil, observesAll]
    rfl
  | a :: as, s, t, vs, hvs => by
    rcases h : (eval F a s : Evaluated M σ (Value M)) with ⟨f | v, u⟩
    · rw [evalAll_cons_error h] at hvs
      cases hvs
    · rcases hs : (evalAll F as u : Evaluated M σ (List (Value M))) with ⟨f | ws, w⟩
      · rw [evalAll_cons_tail h hs] at hvs
        cases hvs
      · have first := drawn_eq_observes h
        have rest := drawnAll_eq_observesAll hs
        rw [drawnAll, applicationsAll_cons_ok h, drawnBy_append, observesAll, ← first, ← rest]
        rfl

end

/-! ## Sources that agree -/

mutual

/-- sources with the same draws, as far as they are drawn, are treated alike -/
theorem eval_agree {F : Cumulative} : ∀ (p : Program) {s : σ} {t : τ},
    Source.draws (p.drawn M F s) t = Source.draws (p.drawn M F s) s →
      (p.eval F t : Evaluated M τ (Value M)).1 = (p.eval F s).1 ∧
        (p.applications F t : List (Operation × List (Value M))) = p.applications F s
  | .const v, s, t, _ => by
    rw [eval_const, eval_const, applications_const, applications_const]
    exact ⟨rfl, rfl⟩
  | .call op args, s, t, agree => by
    rcases hs : (evalAll F args s : Evaluated M σ (List (Value M))) with ⟨f | vs, s'⟩
    · rw [drawn, applications_call_error hs] at agree
      obtain ⟨same, apps⟩ := evalAll_agree args agree
      rcases ht : (evalAll F args t : Evaluated M τ (List (Value M))) with ⟨r, t'⟩
      rw [hs, ht] at same
      cases same
      rw [eval_call_error hs, eval_call_error ht, applications_call_error hs,
        applications_call_error ht]
      exact ⟨rfl, apps⟩
    · rw [drawn, applications_call_ok hs, drawnBy_append, drawnBy_singleton] at agree
      obtain ⟨agreeArgs, agreeOp⟩ := Source.agree_add agree
      obtain ⟨same, apps⟩ := evalAll_agree args agreeArgs
      rcases ht : (evalAll F args t : Evaluated M τ (List (Value M))) with ⟨r, t'⟩
      rw [hs, ht] at same
      cases same
      -- both sources stand behind the draws of the operands, and these are as many
      have count : drawnAll M F args t = drawnAll M F args s := congrArg drawnBy apps
      have hs' : Source.after (drawnAll M F args s) s = s' := (source_of_evalAll hs).symm
      have ht' : Source.after (drawnAll M F args s) t = t' := count ▸ (source_of_evalAll ht).symm
      rw [← drawnAll, hs', ht'] at agreeOp
      rw [eval_call_ok hs, eval_call_ok ht, applications_call_ok hs, applications_call_ok ht, apps]
      exact ⟨Operation.apply_congr F op vs agreeOp, rfl⟩

theorem evalAll_agree {F : Cumulative} : ∀ (ps : List Program) {s : σ} {t : τ},
    Source.draws (drawnAll M F ps s) t = Source.draws (drawnAll M F ps s) s →
      (evalAll F ps t : Evaluated M τ (List (Value M))).1 = (evalAll F ps s).1 ∧
        (applicationsAll F ps t : List (Operation × List (Value M))) = applicationsAll F ps s
  | [], s, t, _ => by
    rw [evalAll_nil, evalAll_nil, applicationsAll_nil, applicationsAll_nil]
    exact ⟨rfl, rfl⟩
  | a :: as, s, t, agree => by
    rcases hs : (eval F a s : Evaluated M σ (Value M)) with ⟨f | v, s'⟩
    · rw [drawnAll, applicationsAll_cons_error hs] at agree
      obtain ⟨same, apps⟩ := eval_agree a agree
      rcases ht : (eval F a t : Evaluated M τ (Value M)) with ⟨r, t'⟩
      rw [hs, ht] at same
      cases same
      rw [evalAll_cons_error hs, evalAll_cons_error ht, applicationsAll_cons_error hs,
        applicationsAll_cons_error ht]
      exact ⟨rfl, apps⟩
    · rw [drawnAll, applicationsAll_cons_ok hs, drawnBy_append] at agree
      obtain ⟨agreeHead, agreeTail⟩ := Source.agree_add agree
      obtain ⟨same, apps⟩ := eval_agree a agreeHead
      rcases ht : (eval F a t : Evaluated M τ (Value M)) with ⟨r, t'⟩
      rw [hs, ht] at same
      cases same
      have count : a.drawn M F t = a.drawn M F s := congrArg drawnBy apps
      have hs' : Source.after (a.drawn M F s) s = s' := (source_of_eval hs).symm
      have ht' : Source.after (a.drawn M F s) t = t' := count ▸ (source_of_eval ht).symm
      rw [← drawn, hs', ht'] at agreeTail
      obtain ⟨sameTail, appsTail⟩ := evalAll_agree as agreeTail
      rw [applicationsAll_cons_ok hs, applicationsAll_cons_ok ht, apps, appsTail]
      refine ⟨?_, rfl⟩
      rcases hss : (evalAll F as s' : Evaluated M σ (List (Value M))) with ⟨f | vs, s''⟩ <;>
        rcases hts : (evalAll F as t' : Evaluated M τ (List (Value M))) with ⟨r, t''⟩ <;>
        rw [hss, hts] at sameTail <;> cases sameTail
      · rw [evalAll_cons_tail hs hss, evalAll_cons_tail ht hts]
      · rw [evalAll_cons_ok hs hss, evalAll_cons_ok ht hts]

end

/-! ## The application that fails -/

mutual

/-- an evaluation that fails for a draw has reached no application after the one that drew -/
theorem last_of_draw {F : Cumulative} : ∀ {p : Program} {s t : σ} {f : Fault M},
    p.eval F s = (.error f, t) → f.ofDraw = true →
      ∃ (before : List (Operation × List (Value M))) (c : Pmf Bool M) (r : Value M),
        p.applications F s = before ++ [(.observe, [.bool c, r])]
  | .const v, s, t, f, h, hf => by
    rw [eval_const] at h
    have failed : Value.constant v = .error f := congrArg Prod.fst h
    unfold Value.constant at failed
    split at failed
    · cases failed
    · cases failed
      cases hf
  | .call op args, s, t, f, h, hf => by
    rcases hs : (evalAll F args s : Evaluated M σ (List (Value M))) with ⟨g | vs, s'⟩
    · rw [eval_call_error hs] at h
      cases h
      rw [applications_call_error hs]
      exact lastAll_of_draw hs hf
    · rw [eval_call_ok hs] at h
      have drew := Operation.draws_of_fault (congrArg Prod.fst h) hf
      obtain ⟨c, r, rfl, rfl⟩ := Operation.eq_of_draws drew
      exact ⟨_, c, r, applications_call_ok hs⟩

theorem lastAll_of_draw {F : Cumulative} : ∀ {ps : List Program} {s t : σ} {f : Fault M},
    evalAll F ps s = (.error f, t) → f.ofDraw = true →
      ∃ (before : List (Operation × List (Value M))) (c : Pmf Bool M) (r : Value M),
        applicationsAll F ps s = before ++ [(.observe, [.bool c, r])]
  | [], s, t, f, h, _ => by
    rw [evalAll_nil] at h
    cases h
  | a :: as, s, t, f, h, hf => by
    rcases hs : (eval F a s : Evaluated M σ (Value M)) with ⟨g | v, s'⟩
    · rw [evalAll_cons_error hs] at h
      cases h
      rw [applicationsAll_cons_error hs]
      exact last_of_draw hs hf
    · rcases hss : (evalAll F as s' : Evaluated M σ (List (Value M))) with ⟨g | vs, s''⟩
      · rw [evalAll_cons_tail hs hss] at h
        cases h
        obtain ⟨before, c, r, last⟩ := lastAll_of_draw hss hf
        exact ⟨a.applications F s ++ before, c, r, by
          rw [applicationsAll_cons_ok hs, last, List.append_assoc]⟩
      · rw [evalAll_cons_ok hs hss] at h
        cases h

end

/-! ## The account -/

/-- **The draws of an evaluation are accounted for.**  The source is moved on by as many draws as
observations of a truth value were reached, the last of them the one that failed if one did; no
other application draws.  These are at most the `observe` nodes, all of them if there is a value.
The result and their number are the same on every source with the same first draws, and where
nothing is observed on every source at all. -/
theorem draws_accounted (F : Cumulative) (p : Program) (s : σ) :
    (p.eval F s : Evaluated M σ (Value M)).2 = Source.after (p.drawn M F s) s ∧
    (∀ (op : Operation) (vs : List (Value M)) (u : σ), op.draws vs = false →
      (op.apply F vs u).2 = u) ∧
    (∀ f : Fault M, (p.eval F s).1 = .error f → f.ofDraw = true →
      ∃ (before : List (Operation × List (Value M))) (c : Pmf Bool M) (r : Value M),
        p.applications F s = before ++ [(.observe, [.bool c, r])]) ∧
    p.drawn M F s ≤ p.observes ∧
    (∀ v : Value M, (p.eval F s).1 = .ok v → p.drawn M F s = p.observes) ∧
    (∀ (τ : Type) [Source τ] (t : τ),
      Source.draws (p.drawn M F s) t = Source.draws (p.drawn M F s) s →
        (p.eval F t : Evaluated M τ (Value M)).1 = (p.eval F s).1 ∧
          p.drawn M F t = p.drawn M F s ∧
          (p.eval F t : Evaluated M τ (Value M)).2 = Source.after (p.drawn M F s) t) ∧
    (p.observes = 0 → (p.eval F s : Evaluated M σ (Value M)).2 = s ∧
      ∀ (τ : Type) [Source τ] (t : τ),
        p.eval F t = ((p.eval F s : Evaluated M σ (Value M)).1, t)) := by
  refine ⟨eval_source F p s, ?_, fun f h hf => last_of_draw (Prod.ext h rfl) hf,
    drawn_le_observes F p s, fun v h => drawn_eq_observes (Prod.ext h rfl), ?_, ?_⟩
  · intro op vs u undrawn
    rw [Operation.apply_of_not_draws F undrawn u u]
  · intro τ _ t agree
    obtain ⟨same, apps⟩ := eval_agree p agree
    have count : p.drawn M F t = p.drawn M F s := congrArg drawnBy apps
    refine ⟨same, count, ?_⟩
    rw [eval_source, count]
  · intro none
    have undrawn : p.drawn M F s = 0 := Nat.le_zero.mp (none ▸ drawn_le_observes F p s)
    refine ⟨by rw [eval_source, undrawn, Source.after_zero], fun τ _ t => ?_⟩
    have agree : Source.draws (p.drawn M F s) t = Source.draws (p.drawn M F s) s := by
      rw [undrawn]
      rfl
    obtain ⟨same, apps⟩ := eval_agree p agree
    have count : p.drawn M F t = 0 := (congrArg drawnBy apps).trans undrawn
    refine Prod.ext same ?_
    rw [eval_source, count, Source.after_zero]

end Program
end Chance
