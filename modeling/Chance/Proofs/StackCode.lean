import Chance.Proofs.Evaluation

/-!
# Programs as stack code

A tree fixes an order of calls and nothing more: written out in post-order, it runs on a stack.

* `Primitive`             a primitive with the number of its operands; `Operation.primitive` is the
                          table of them, which the arity check guards (`apply_of_arity`,
                          `apply_of_arity_ne`);
* `Instruction.step`, `Code.run`   the stack machine; an operation pops its operands, the last of
                          them from the top;
* `run_append`            code behind code goes on with the stack that it finds;
* `Program.flatten`       a program in post-order;
* `run_code`              its code, with any stack below it;
* `run_flatten`           the code and the tree end alike.
-/

namespace Chance

variable {M σ : Type} [Mass M] [Source σ]

/-! ## Primitives -/

/-- the function behind an operation of so many operands -/
inductive Primitive (M σ : Type) : Nat → Type where
  | unary (f : Value M → Except (Fault M) (Value M)) : Primitive M σ 1
  | binary (f : Value M → Value M → Except (Fault M) (Value M)) : Primitive M σ 2
  | drawing (f : Value M → Value M → σ → Evaluated M σ (Value M)) : Primitive M σ 2

def Primitive.call {n : Nat} : Primitive M σ n → (vs : List (Value M)) → vs.length = n → σ →
    Evaluated M σ (Value M)
  | .unary f, [v], _, s => (f v, s)
  | .binary f, [l, r], _, s => (f l r, s)
  | .drawing f, [l, r], _, s => f l r s

namespace Operation

def primitive (F : Cumulative) : (op : Operation) → Primitive M σ op.arity
  | .add => .binary (Value.arith .add)
  | .subtract => .binary (Value.arith .subtract)
  | .multiply => .binary (Value.arith .multiply)
  | .divide => .binary (Value.arith .divide)
  | .and => .binary Value.and
  | .or => .binary Value.or
  | .not => .unary Value.not
  | .equal => .binary Value.equal
  | .lessThan => .binary (Value.lessThan F)
  | .greaterThan => .binary (Value.greaterThan F)
  | .bernoulli => .unary Value.bernoulli
  | .beta => .binary Value.beta
  | .normal => .binary Value.normal
  | .flip => .unary Value.flip
  | .sample => .unary Value.sample
  | .observe => .drawing Value.observe

variable {F : Cumulative} {op : Operation} {vs : List (Value M)}

theorem apply_of_arity (h : vs.length = op.arity) (s : σ) :
    op.apply F vs s = (op.primitive F).call vs h s := by
  rcases vs with _ | ⟨v, _ | ⟨w, _ | ⟨x, vs⟩⟩⟩
  · cases op <;> simp [arity] at h
  · cases op with
    | not | bernoulli | flip | sample => rfl
    | _ => simp [arity] at h
  · cases op with
    | not | bernoulli | flip | sample => simp [arity] at h
    | _ => rfl
  · cases op <;> simp [arity] at h

theorem apply_of_arity_ne (h : vs.length ≠ op.arity) (s : σ) :
    op.apply F vs s = (.error (.arity op vs.length), s) := by
  rcases vs with _ | ⟨v, _ | ⟨w, _ | ⟨x, vs⟩⟩⟩
  · cases op <;> rfl
  · cases op with
    | not | bernoulli | flip | sample => exact absurd rfl h
    | _ => rfl
  · cases op with
    | not | bernoulli | flip | sample => rfl
    | _ => exact absurd rfl h
  · cases op <;> rfl

end Operation

/-! ## The machine -/

inductive Instruction where
  /-- push the certain value of a JSON literal -/
  | lift (value : Json)
  /-- replace as many values as are told by the result of an operation on them -/
  | apply (op : Operation) (operands : Nat)

/-- why a run stops before the end of its code -/
inductive Halt (M : Type) where
  | fault (f : Fault M)
  /-- an operation is told more operands than there are values -/
  | underflow

/-- a stack, its top first -/
abbrev Stack (M : Type) := List (Value M)

namespace Stack

/-- the stack with the value of an evaluation on top, unless that failed -/
def push (stack : Stack M) : Evaluated M σ (Value M) → Except (Halt M) (Stack M) × σ
  | (.error f, s) => (.error (.fault f), s)
  | (.ok v, s) => (.ok (v :: stack), s)

/-- the upper values, in the order in which they were pushed -/
def upper (n : Nat) (stack : Stack M) : List (Value M) := (stack.take n).reverse

/-- the stack with the values of an evaluation of operands on top, the last one highest -/
def pushAll (stack : Stack M) :
    Evaluated M σ (List (Value M)) → Except (Halt M) (Stack M) × σ
  | (.error f, s) => (.error (.fault f), s)
  | (.ok vs, s) => (.ok (vs.reverse ++ stack), s)

omit [Mass M] in
theorem length_upper {n : Nat} {stack : Stack M} (h : n ≤ stack.length) :
    (upper n stack).length = n := by
  rw [upper, List.length_reverse, List.length_take]
  omega

omit [Mass M] in
theorem upper_append (vs : List (Value M)) (stack : Stack M) :
    upper vs.length (vs.reverse ++ stack) = vs := by
  have top : (vs.reverse ++ stack).take vs.length = vs.reverse :=
    List.take_left' List.length_reverse
  rw [upper, top, List.reverse_reverse]

omit [Mass M] in
theorem drop_append (vs : List (Value M)) (stack : Stack M) :
    (vs.reverse ++ stack).drop vs.length = stack :=
  List.drop_left' List.length_reverse

end Stack

namespace Instruction

def step (F : Cumulative) : Instruction → Stack M → σ → Except (Halt M) (Stack M) × σ
  | .lift value, stack, s => stack.push (Value.constant value, s)
  | .apply op n, stack, s =>
    if enough : n ≤ stack.length then
      if fits : n = op.arity then
        Stack.push (stack.drop n)
          ((op.primitive F).call (stack.upper n) ((Stack.length_upper enough).trans fits) s)
      else (.error (.fault (.arity op n)), s)
    else (.error .underflow, s)

/-- an operation applies to what was pushed for its operands -/
theorem step_apply (F : Cumulative) (op : Operation) (vs : List (Value M)) (stack : Stack M)
    (s : σ) :
    (apply op vs.length).step F (vs.reverse ++ stack) s = stack.push (op.apply F vs s) := by
  have enough : vs.length ≤ (vs.reverse ++ stack).length := by simp
  have operands := Stack.upper_append vs stack
  have below := Stack.drop_append vs stack
  simp only [step, dif_pos enough]
  by_cases fits : vs.length = op.arity
  · simp only [dif_pos fits, below, operands, Operation.apply_of_arity fits]
  · simp only [dif_neg fits, Operation.apply_of_arity_ne fits, Stack.push]

end Instruction

abbrev Code := List Instruction

namespace Code

/-- the stack that a list of instructions leaves, unless one of them stops the run -/
def run (F : Cumulative) : Code → Stack M → σ → Except (Halt M) (Stack M) × σ
  | [], stack, s => (.ok stack, s)
  | i :: code, stack, s =>
    match i.step F stack s with
    | (.error h, s) => (.error h, s)
    | (.ok stack, s) => run F code stack s

/-- a run taken up with more code -/
def resume (F : Cumulative) (code : Code) :
    Except (Halt M) (Stack M) × σ → Except (Halt M) (Stack M) × σ
  | (.error h, s) => (.error h, s)
  | (.ok stack, s) => code.run F stack s

theorem run_cons (F : Cumulative) (i : Instruction) (code : Code) (stack : Stack M) (s : σ) :
    run F (i :: code) stack s = code.resume F (i.step F stack s) := by
  rw [run]
  rcases i.step F stack s with ⟨h | stack, s⟩ <;> rfl

theorem run_append (F : Cumulative) (c d : Code) (stack : Stack M) (s : σ) :
    run F (c ++ d) stack s = d.resume F (c.run F stack s) := by
  induction c generalizing stack s with
  | nil => rfl
  | cons i c ih =>
    rw [List.cons_append, run_cons, run_cons]
    rcases i.step F stack s with ⟨h | stack, s⟩
    · rfl
    · exact ih stack s

theorem run_singleton (F : Cumulative) (i : Instruction) (stack : Stack M) (s : σ) :
    run F [i] stack s = i.step F stack s := by
  rw [run_cons]
  rcases i.step F stack s with ⟨h | stack, s⟩ <;> rfl

end Code

/-! ## Programs in post-order -/

namespace Program

mutual

def flatten : Program → Code
  | .const value => [.lift value]
  | .call op args => flattenAll args ++ [.apply op args.length]

def flattenAll : List Program → Code
  | [] => []
  | a :: as => flatten a ++ flattenAll as

end

theorem length_of_evalAll {F : Cumulative} : ∀ {ps : List Program} {vs : List (Value M)} {s t : σ},
    evalAll F ps s = (.ok vs, t) → vs.length = ps.length
  | [], vs, s, t, h => by
    rw [evalAll_nil] at h
    cases h
    rfl
  | a :: as, vs, s, t, h => by
    rcases ha : (eval F a s : Evaluated M σ (Value M)) with ⟨f | v, u⟩
    · rw [evalAll_cons_error ha] at h
      cases h
    · rcases hs : (evalAll F as u : Evaluated M σ (List (Value M))) with ⟨f | ws, w⟩
      · rw [evalAll_cons_tail ha hs] at h
        cases h
      · rw [evalAll_cons_ok ha hs] at h
        cases h
        rw [List.length_cons, List.length_cons, length_of_evalAll hs]

mutual

/-- the code of a program pushes what its tree evaluates to -/
theorem run_code (F : Cumulative) : ∀ (p : Program) (stack : Stack M) (s : σ),
    p.flatten.run F stack s = stack.push (p.eval F s)
  | .const value, stack, s => by
    rw [flatten, Code.run_singleton, eval_const, Instruction.step]
  | .call op args, stack, s => by
    rw [flatten, Code.run_append, run_codeAll F args stack s]
    rcases h : (evalAll F args s : Evaluated M σ (List (Value M))) with ⟨f | vs, t⟩
    · rw [eval_call_error h]
      rfl
    · rw [eval_call_ok h, ← length_of_evalAll h]
      show Code.run F [.apply op vs.length] (vs.reverse ++ stack) t = _
      rw [Code.run_singleton, Instruction.step_apply]

/-- the code of operands pushes their values, the first one deepest -/
theorem run_codeAll (F : Cumulative) : ∀ (ps : List Program) (stack : Stack M) (s : σ),
    Code.run F (flattenAll ps) stack s = stack.pushAll (evalAll F ps s)
  | [], stack, s => by
    rw [flattenAll, evalAll_nil]
    rfl
  | a :: as, stack, s => by
    rw [flattenAll, Code.run_append, run_code F a stack s]
    rcases h : (eval F a s : Evaluated M σ (Value M)) with ⟨f | v, t⟩
    · rw [evalAll_cons_error h]
      rfl
    · show Code.run F (flattenAll as) (v :: stack) t = _
      rw [run_codeAll F as (v :: stack) t]
      rcases hs : (evalAll F as t : Evaluated M σ (List (Value M))) with ⟨f | vs, u⟩
      · rw [evalAll_cons_tail h hs]
        rfl
      · rw [evalAll_cons_ok h hs]
        simp [Stack.pushAll]

end

/-- **A program is a fixed order of calls.**  On every stack and every source its code ends as the
tree does: with the same value, pushed on the stack as it was, or with the same fault, and with the
same source.  So it never finds too few values. -/
theorem run_flatten (F : Cumulative) (p : Program) (stack : Stack M) (s : σ) :
    p.flatten.run F stack s =
      match p.eval F s with
      | (.ok v, t) => (.ok (v :: stack), t)
      | (.error f, t) => (.error (.fault f), t) := by
  rw [run_code]
  rcases p.eval F s with ⟨f | v, t⟩
  · rfl
  · rfl

end Program
end Chance
