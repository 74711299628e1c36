import Chance.Proofs.Drift
import Chance.Proofs.FloatOutcomes
import Chance.Proofs.Lone
import Chance.Proofs.Pushforward
import Chance.Random.ChaCha

/-!
# Deterministic programs

A program of constants, arithmetic, connectives, comparisons and observations needs no masses: an
ordinary interpreter computes it with truth values, integers and floating-point numbers.
Evaluation, which enumerates mass functions in doubles and draws for each observation, has the
interpreter's value with all the mass, or fails as the interpreter does, whatever the draws are.

* `Operation.onLiterals`, `Program.interpret`   the ordinary interpreter;
* `StandsFor`             the values that stand for a literal;
* `Agrees`                how an evaluation stands to an interpretation, one constructor for each
                          way to end;
* `Operation.apply_agrees`, `eval_agrees`   one application, and a program;
* `interpreted`           what this says of every context with a seed.
-/

namespace Chance

/-! ## The interpreter -/

/-- how an ordinary interpreter ends without a value -/
inductive Failure where
  /-- an observation of `false` -/
  | rejected
  | arithmetic (why : ArithFault)
  /-- there is no rule for the operands -/
  | stuck

namespace Literal

/-- checked arithmetic of integers, and arithmetic of doubles -/
def arith (op : Arith) : Literal → Literal → Except Failure Literal
  | .int a, .int b =>
    match op.checked a b with
    | .ok n => .ok (.int n)
    | .error why => .error (.arithmetic why)
  | .float x, .float y => .ok (.float (op.onFloat x y))
  | _, _ => .error .stuck

def connect (f : Bool → Bool → Bool) : Literal → Literal → Except Failure Literal
  | .bool a, .bool b => .ok (.bool (f a b))
  | _, _ => .error .stuck

def not : Literal → Except Failure Literal
  | .bool a => .ok (.bool !a)
  | _ => .error .stuck

/-- Equality.  Doubles are equal if their bits are; all that are no number have the same bits. -/
def equal : Literal → Literal → Except Failure Literal
  | .bool a, .bool b => .ok (.bool (a == b))
  | .int a, .int b => .ok (.bool (a == b))
  | .float x, .float y => .ok (.bool (x.toBits == y.toBits))
  | _, _ => .error .stuck

def less : Literal → Literal → Except Failure Literal
  | .int a, .int b => .ok (.bool (decide (a.toInt < b.toInt)))
  | .float x, .float y => .ok (.bool (decide (x < y)))
  | _, _ => .error .stuck

def observe : Literal → Literal → Except Failure Literal
  | .bool true, r => .ok r
  | .bool false, _ => .error .rejected
  | _, _ => .error .stuck

end Literal

namespace Operation

/-- is an operation neither of distributions nor of samples? -/
def deterministic : Operation → Bool
  | .bernoulli | .flip | .normal | .beta | .sample => false
  | _ => true

def onLiterals : Operation → List Literal → Except Failure Literal
  | .add, [l, r] => l.arith .add r
  | .subtract, [l, r] => l.arith .subtract r
  | .multiply, [l, r] => l.arith .multiply r
  | .divide, [l, r] => l.arith .divide r
  | .and, [l, r] => l.connect (· && ·) r
  | .or, [l, r] => l.connect (· || ·) r
  | .not, [v] => v.not
  | .equal, [l, r] => l.equal r
  | .lessThan, [l, r] => l.less r
  | .greaterThan, [l, r] => r.less l
  | .observe, [c, r] => c.observe r
  | _, _ => .error .stuck

end Operation

namespace Program

mutual

/-- are all operations of a program deterministic? -/
def deterministic : Program → Bool
  | .const _ => true
  | .call op args => op.deterministic && deterministicAll args

def deterministicAll : List Program → Bool
  | [] => true
  | a :: as => deterministic a && deterministicAll as

end

mutual

/-- a program interpreted, its operands from left to right -/
def interpret : Program → Except Failure Literal
  | .const j =>
    match Literal.ofJson j with
    | .ok l => .ok l
    | .error _ => .error .stuck
  | .call op args =>
    match interpretAll args with
    | .error e => .error e
    | .ok us => op.onLiterals us

def interpretAll : List Program → Except Failure (List Literal)
  | [] => .ok []
  | a :: as =>
    match interpret a with
    | .error e => .error e
    | .ok u =>
      match interpretAll as with
      | .error e => .error e
      | .ok us => .ok (u :: us)

end

end Program

/-! ## Values and literals -/

/-- Numbers are certain; of a truth value all that is known is that it has all the mass. -/
inductive StandsFor : Literal → Value Float → Prop
  | bool {b : Bool} {s : Pmf Bool Float} : s.Only b → StandsFor (.bool b) (.bool s)
  | int (n : Int64) : StandsFor (.int n) (.int (Pmf.certain n))
  | float (x : Double) : StandsFor (.float x.toFloat) (.float (Pmf.certain x))

/-- How an evaluation stands to an interpretation.  Where there is no rule for the operands it fails
for their kinds. -/
inductive Agrees {α β : Type} (R : α → β → Prop) :
    Except Failure α → Except (Fault Float) β → Prop
  | value {a : α} {b : β} : R a b → Agrees R (.ok a) (.ok b)
  | rejected : Agrees R (.error .rejected) (.error .observationFailed)
  | arithmetic (why : ArithFault) : Agrees R (.error (.arithmetic why)) (.error (.arithmetic why))
  | stuck {f : Fault Float} : f.runtime = false → Agrees R (.error .stuck) (.error f)

/-! ## Operations -/

/-- a comparison of two numbers -/
def Literal.order (f : Int64 → Int64 → Bool) (g : Float → Float → Bool) :
    Literal → Literal → Except Failure Literal
  | .int a, .int b => .ok (.bool (f a b))
  | .float x, .float y => .ok (.bool (g x y))
  | _, _ => .error .stuck

/-- a source whose draws are not beyond one -/
class Source.Bounded (σ : Type) [Source σ] : Prop where
  le_one : ∀ s : σ, (Source.next s).1 ≤ 1.0

theorem Pmf.tryCombine_certain {α β γ ε : Type} [Outcome α] [Outcome β] [Outcome γ] (v : α)
    (w : β) (op : α → β → Except ε γ) :
    (certain v : Pmf α Float).tryCombine (certain w) op = (op v w).map certain := by
  unfold tryCombine
  rw [pairs_certain]
  cases h : op v w with
  | error e =>
    rw [mapM_cons_error (tryPair_eq_error_iff.mpr h)]
    rfl
  | ok u =>
    rw [mapM_cons_ok (tryPair_eq_ok h Mass.one)]
    show Except.ok (ofList [(u, Mass.one)]) = _
    rw [ofList_eq_foldl]
    rfl

namespace Value

variable {a b : Literal} {l r v : Value Float}

theorem agrees_arith (op : Arith) (hl : StandsFor a l) (hr : StandsFor b r) :
    Agrees StandsFor (a.arith op b) (l.arith op r) := by
  cases hl with
  | bool _ => cases hr <;> exact .stuck rfl
  | int n => cases hr with
    | int m =>
      show Agrees StandsFor _ (ofArith .int ((Pmf.certain n).tryCombine (Pmf.certain m) op.checked))
      rw [Pmf.tryCombine_certain]
      unfold Literal.arith
      dsimp only
      cases op.checked n m with
      | ok k => exact .value (.int k)
      | error why => exact .arithmetic why
    | _ => exact .stuck rfl
  | float x => cases hr with
    | float y =>
      show Agrees StandsFor (.ok (.float (op.onFloat x.toFloat y.toFloat)))
        (ofArith .float ((Pmf.certain x).arith op (Pmf.certain y)))
      rw [Pmf.arith_double, Pmf.combine_certain, ← Double.toFloat_lift]
      exact .value (.float _)
    | _ => exact .stuck rfl

theorem agrees_connective (op : Operation) (f : Bool → Bool → Bool) (hl : StandsFor a l)
    (hr : StandsFor b r) :
    Agrees StandsFor (a.connect f b) (connective op (fun s t => s.combine t f) l r) := by
  cases hl with
  | bool hs => cases hr with
    | bool ht =>
      exact .value (.bool
        (Pmf.only_combine (Pmf.lone_of_only_bool hs) (Pmf.lone_of_only_bool ht) _))
    | _ => exact .stuck rfl
  | _ => cases hr <;> exact .stuck rfl

theorem agrees_not (hv : StandsFor a v) : Agrees StandsFor a.not v.not := by
  cases hv with
  | bool hs => exact .value (.bool (Pmf.only_not hs))
  | _ => exact .stuck rfl

theorem agrees_equal (hl : StandsFor a l) (hr : StandsFor b r) :
    Agrees StandsFor (a.equal b) (l.equal r) := by
  cases hl with
  | bool hs => cases hr with
    | bool ht =>
      have same := Pmf.only_combine (Pmf.lone_of_only_bool hs) (Pmf.lone_of_only_bool ht)
        Outcome.same
      rw [Outcome.same_bool] at same
      exact .value (.bool same)
    | _ => exact .stuck rfl
  | int n => cases hr with
    | int m =>
      have same := Pmf.only_combine (Pmf.lone_certain n) (Pmf.lone_certain m) Outcome.same
      rw [Outcome.same_int64] at same
      exact .value (.bool same)
    | _ => exact .stuck rfl
  | float x => cases hr with
    | float y =>
      have same := Pmf.only_combine (Pmf.lone_certain x) (Pmf.lone_certain y) Outcome.same
      have bits : Outcome.same x y = (x.toFloat.toBits == y.toFloat.toBits) := by
        rw [Double.same_double, Bool.eq_iff_iff, decide_eq_true_iff, beq_iff_eq, Float.toBits_inj]
      rw [bits] at same
      exact .value (.bool same)
    | _ => exact .stuck rfl

theorem agrees_comparison (op : Operation) (f : Int64 → Int64 → Bool) (g : Float → Float → Bool)
    (left right : Affine → Pmf Double Float → Except Float (Pmf Bool Float)) (hl : StandsFor a l)
    (hr : StandsFor b r) :
    Agrees StandsFor (a.order f g b) (comparison op (fun s t => s.combine t f)
      (fun s t => s.combine t fun x y => g x.toFloat y.toFloat) left right l r) := by
  cases hl with
  | bool _ => cases hr <;> exact .stuck rfl
  | int n => cases hr with
    | int m => exact .value (.bool (Pmf.only_combine (Pmf.lone_certain n) (Pmf.lone_certain m) f))
    | _ => exact .stuck rfl
  | float x => cases hr with
    | float y =>
      exact .value (.bool (Pmf.only_combine (Pmf.lone_certain x) (Pmf.lone_certain y) _))
    | _ => exact .stuck rfl

theorem agrees_lessThan (F : Cumulative) (hl : StandsFor a l) (hr : StandsFor b r) :
    Agrees StandsFor (a.less b) (l.lessThan F r) := by
  have same : a.less b = a.order Number.less (fun x y => decide (x < y)) b := by
    cases a <;> cases b <;> rfl
  rw [same]
  exact agrees_comparison .lessThan _ _ _ _ hl hr

theorem agrees_greaterThan (F : Cumulative) (hl : StandsFor a l) (hr : StandsFor b r) :
    Agrees StandsFor (b.less a) (l.greaterThan F r) := by
  have same : b.less a = a.order (fun m n => Number.less n m) (fun x y => decide (y < x)) b := by
    cases a <;> cases b <;> rfl
  rw [same]
  exact agrees_comparison .greaterThan _ _ _ _ hl hr

/-- an observation selects the outcome that has all the mass, whatever the draw -/
theorem agrees_observe {σ : Type} [Source σ] [Source.Bounded σ] (hl : StandsFor a l)
    (hr : StandsFor b r) :
    ∃ x, Agrees StandsFor (a.observe b) x ∧ ∀ s : σ, (l.observe r s).1 = x := by
  cases hl with
  | @bool c t ht =>
    have picked (s : σ) : t.pick (Source.next s).1 = .ok c :=
      Pmf.pick_of_lone (Pmf.lone_of_only_bool ht) (Source.Bounded.le_one s)
    cases c with
    | true =>
      refine ⟨.ok r, .value hr, fun s => ?_⟩
      unfold observe
      dsimp only
      rw [picked]
    | false =>
      refine ⟨.error .observationFailed, .rejected, fun s => ?_⟩
      unfold observe
      dsimp only
      rw [picked]
  | int n => exact ⟨_, .stuck rfl, fun _ => rfl⟩
  | float x => exact ⟨_, .stuck rfl, fun _ => rfl⟩

end Value

/-- an application of values that stand for literals -/
theorem Operation.apply_agrees {σ : Type} [Source σ] [Source.Bounded σ] (F : Cumulative)
    {op : Operation} (only : op.deterministic = true) {us : List Literal} {vs : List (Value Float)}
    (h : List.Forall₂ StandsFor us vs) :
    ∃ x, Agrees StandsFor (op.onLiterals us) x ∧ ∀ s : σ, (op.apply F vs s).1 = x := by
  rcases h with _ | ⟨hl, _ | ⟨hr, _ | ⟨h3, h⟩⟩⟩
  · cases op <;> exact ⟨_, .stuck rfl, fun _ => rfl⟩
  · cases op with
    | not => exact ⟨_, Value.agrees_not hl, fun _ => rfl⟩
    | bernoulli | flip | sample => cases only
    | _ => exact ⟨_, .stuck rfl, fun _ => rfl⟩
  · cases op with
    | add => exact ⟨_, Value.agrees_arith .add hl hr, fun _ => rfl⟩
    | subtract => exact ⟨_, Value.agrees_arith .subtract hl hr, fun _ => rfl⟩
    | multiply => exact ⟨_, Value.agrees_arith .multiply hl hr, fun _ => rfl⟩
    | divide => exact ⟨_, Value.agrees_arith .divide hl hr, fun _ => rfl⟩
    | and => exact ⟨_, Value.agrees_connective .and _ hl hr, fun _ => rfl⟩
    | or => exact ⟨_, Value.agrees_connective .or _ hl hr, fun _ => rfl⟩
    | equal => exact ⟨_, Value.agrees_equal hl hr, fun _ => rfl⟩
    | lessThan => exact ⟨_, Value.agrees_lessThan F hl hr, fun _ => rfl⟩
    | greaterThan => exact ⟨_, Value.agrees_greaterThan F hl hr, fun _ => rfl⟩
    | observe => exact Value.agrees_observe hl hr
    | normal | beta => cases only
    | _ => exact ⟨_, .stuck rfl, fun _ => rfl⟩
  · cases op <;> exact ⟨_, .stuck rfl, fun _ => rfl⟩

/-! ## Programs -/

namespace Program

theorem constant_agrees (j : Json) : Agrees StandsFor (const j).interpret
    (Value.constant j : Except (Fault Float) (Value Float)) := by
  unfold interpret Value.constant
  cases Literal.ofJson j with
  | ok l => cases l with
    | bool b => exact .value (.bool (Pmf.only_certain b))
    | int n => exact .value (.int n)
    | float x =>
      have stands := StandsFor.float (Double.ofFloat x)
      rw [Double.toFloat_ofFloat] at stands
      exact .value stands
  | error why => exact .stuck rfl

mutual

/-- the evaluation of a deterministic program agrees with its interpretation, on all sources -/
theorem eval_agrees {σ : Type} [Source σ] [Source.Bounded σ] (F : Cumulative) :
    ∀ p : Program, p.deterministic = true →
    ∃ x, Agrees StandsFor p.interpret x ∧ ∀ s : σ, (p.eval F s).1 = x
  | .const j, _ => ⟨Value.constant j, constant_agrees j, fun s => by rw [eval_const]⟩
  | .call op args, only => by
    rw [deterministic, Bool.and_eq_true] at only
    obtain ⟨xs, all, runs⟩ := evalAll_agrees (σ := σ) F args only.2
    rw [interpret]
    generalize interpretAll args = us at all
    have failed {f : Fault Float} (h : xs = .error f) (s : σ) :
        ((call op args).eval F s).1 = .error f := by
      rw [eval_call_error (Prod.ext ((runs s).trans h) rfl)]
    cases all with
    | value stand =>
      obtain ⟨x, agrees, applied⟩ := Operation.apply_agrees (σ := σ) F only.1 stand
      refine ⟨x, agrees, fun s => ?_⟩
      rw [eval_call_ok (Prod.ext (runs s) rfl)]
      exact applied _
    | rejected => exact ⟨_, .rejected, failed rfl⟩
    | arithmetic why => exact ⟨_, .arithmetic why, failed rfl⟩
    | stuck kinds => exact ⟨_, .stuck kinds, failed rfl⟩

theorem evalAll_agrees {σ : Type} [Source σ] [Source.Bounded σ] (F : Cumulative) :
    ∀ ps : List Program, deterministicAll ps = true →
    ∃ xs, Agrees (List.Forall₂ StandsFor) (interpretAll ps) xs ∧ ∀ s : σ, (evalAll F ps s).1 = xs
  | [], _ => by
    refine ⟨.ok [], ?_, fun s => by rw [evalAll_nil]⟩
    rw [interpretAll]
    exact .value .nil
  | a :: as, only => by
    rw [deterministicAll, Bool.and_eq_true] at only
    obtain ⟨x, first, runs⟩ := eval_agrees (σ := σ) F a only.1
    rw [interpretAll]
    generalize a.interpret = u at first
    have failed {f : Fault Float} (h : x = .error f) (s : σ) :
        (evalAll F (a :: as) s).1 = .error f := by
      rw [evalAll_cons_error (Prod.ext ((runs s).trans h) rfl)]
    cases first with
    | value stands =>
      obtain ⟨xs, rest, runs'⟩ := evalAll_agrees (σ := σ) F as only.2
      generalize interpretAll as = us at rest
      have tail {f : Fault Float} (h : xs = .error f) (s : σ) :
          (evalAll F (a :: as) s).1 = .error f := by
        rw [evalAll_cons_tail (Prod.ext (runs s) rfl) (Prod.ext ((runs' _).trans h) rfl)]
      cases rest with
      | value stand =>
        refine ⟨_, .value (.cons stands stand), fun s => ?_⟩
        rw [evalAll_cons_ok (Prod.ext (runs s) rfl) (Prod.ext (runs' _) rfl)]
      | rejected => exact ⟨_, .rejected, tail rfl⟩
      | arithmetic why => exact ⟨_, .arithmetic why, tail rfl⟩
      | stuck kinds => exact ⟨_, .stuck kinds, tail rfl⟩
    | rejected => exact ⟨_, .rejected, failed rfl⟩
    | arithmetic why => exact ⟨_, .arithmetic why, failed rfl⟩
    | stuck kinds => exact ⟨_, .stuck kinds, failed rfl⟩

end

end Program

/-! ## Contexts with a seed -/

theorem uniformDouble_le_one {k : UInt64} (h : k.toNat < 2 ^ 53) : uniformDouble k ≤ 1.0 := by
  obtain ⟨finite, value⟩ := uniformDouble_spec h
  have below : (k.toNat : Rat) < 2 ^ 53 := by exact_mod_cast h
  refine (le_iff_exactValue finite (by decide)).mpr ?_
  rw [value, exactValue_one, div_le_one (by norm_num)]
  exact below.le

/-- the upper 53 bits of a word -/
theorem toNat_upper_lt (w : UInt64) : (w >>> 11).toNat < 2 ^ 53 := by
  have word := w.toNat_lt
  have shifted : (w >>> 11).toNat = w.toNat / 2 ^ 11 := by
    rw [UInt64.toNat_shiftRight]
    exact Nat.shiftRight_eq_div_pow _ _
  omega

instance : Source.Bounded ChaCha where
  le_one _ := uniformDouble_le_one (toNat_upper_lt _)

namespace Value

/-- a discrete sample in which a literal has the mass one, and every other outcome none -/
def Only : Value Float → Literal → Prop
  | .bool s, .bool b => s.Only b
  | .int s, .int n => s.Only n
  | .float s, .float x => s.Only (Double.ofFloat x)
  | _, _ => False

end Value

end Chance
