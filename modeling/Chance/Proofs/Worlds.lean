import Chance.Proofs.Expectation
import Chance.Proofs.Kinds

/-!
# Possible worlds

A world of a program picks one of the two outcomes for each `sample` node, and in a world a program
is evaluated with scalars: one truth value or number for each node, in checked integer arithmetic
and double arithmetic.  Nothing is enumerated, and no mass takes part.

* `Operation.onScalars`   an operation applied to scalars;
* `Program.inWorld`       a program in a world, its choices in the order of evaluation;
* `Program.chances`       the parameters of the `sample` nodes in the same order;
* `weight`                the product of the masses of what a world picks;
* `nodup_worlds`, `overWorlds_weight`   each world counts once, and the weights sum up to one;
* `Program.mean`          a sum over all worlds with their weights;
* `mean_call`, `meanAll_cons`   the worlds of a program are those of its parts, put together;
* `Program.loosened`      a program in which the result of each negation is left to a coin.
-/

namespace Chance

/-- one outcome of a value, or a distribution -/
inductive Scalar where
  | bool (b : Bool)
  | int (n : Int64)
  | float (x : Double)
  | distribution (d : Distribution)

/-- how the evaluation of scalars fails -/
inductive Stop where
  | arithmetic (why : ArithFault)
  /-- there is no rule for the operands -/
  | stuck

namespace Scalar

def ofLiteral : Literal → Scalar
  | .bool b => .bool b
  | .int n => .int n
  | .float x => .float (Double.ofFloat x)

/-- are two scalars one outcome? -/
def same : Scalar → Scalar → Bool
  | .bool a, .bool b => Outcome.same a b
  | .int a, .int b => Outcome.same a b
  | .float a, .float b => Outcome.same a b
  | _, _ => false

def ofArith {α : Type} (wrap : α → Scalar) : Except ArithFault α → Except Stop Scalar
  | .ok a => .ok (wrap a)
  | .error why => .error (.arithmetic why)

def arith (op : Arith) : Scalar → Scalar → Except Stop Scalar
  | .int a, .int b => ofArith .int (op.checked a b)
  | .float a, .float b => .ok (.float (Double.lift op.onFloat a b))
  | _, _ => .error .stuck

def and : Scalar → Scalar → Except Stop Scalar
  | .bool a, .bool b => .ok (.bool (a && b))
  | _, _ => .error .stuck

def or : Scalar → Scalar → Except Stop Scalar
  | .bool a, .bool b => .ok (.bool (a || b))
  | _, _ => .error .stuck

def equal : Scalar → Scalar → Except Stop Scalar
  | .bool a, .bool b => .ok (.bool (Outcome.same a b))
  | .int a, .int b => .ok (.bool (Outcome.same a b))
  | .float a, .float b => .ok (.bool (Outcome.same a b))
  | _, _ => .error .stuck

def lessThan : Scalar → Scalar → Except Stop Scalar
  | .int a, .int b => .ok (.bool (Number.less a b))
  | .float a, .float b => .ok (.bool (Number.less a b))
  | _, _ => .error .stuck

end Scalar

namespace Distribution

/-- what a choice picks from a distribution: true or false, one or zero -/
def pick : Distribution → Bool → Except Stop Scalar
  | .bernoulli _, b => .ok (.int (if b then 1 else 0))
  | .flip _, b => .ok (.bool b)
  | .continuous _, _ => .error .stuck

/-- the parameter of a discrete distribution -/
def chance : Distribution → Float
  | .bernoulli p => p
  | .flip p => p
  | .continuous _ => 0

end Distribution

/-! ## Worlds and their weights -/

/-- all worlds of `n` choices -/
def worlds : Nat → List (List Bool)
  | 0 => [[]]
  | n + 1 => (worlds n).map (true :: ·) ++ (worlds n).map (false :: ·)

/-- the product of the masses of what is picked -/
def weight : List Float → List Bool → Rat
  | p :: ps, b :: ω => (if b then exactValue p else 1 - exactValue p) * weight ps ω
  | _, _ => 1

/-- the sum of a function over all worlds of `n` choices -/
def overWorlds (n : Nat) (f : List Bool → Rat) : Rat := ((worlds n).map f).sum

theorem mem_worlds {n : Nat} {ω : List Bool} : ω ∈ worlds n ↔ ω.length = n := by
  induction n generalizing ω with
  | zero =>
    rw [worlds, List.mem_singleton, List.length_eq_zero_iff]
  | succ n ih =>
    rw [worlds, List.mem_append, List.mem_map, List.mem_map]
    constructor
    · rintro (⟨ω', h, rfl⟩ | ⟨ω', h, rfl⟩)
      · rw [List.length_cons, ih.mp h]
      · rw [List.length_cons, ih.mp h]
    · intro h
      cases ω with
      | nil => cases h
      | cons b ω' =>
        have rest : ω' ∈ worlds n := ih.mpr (Nat.succ.inj h)
        cases b with
        | true => exact .inl ⟨ω', rest, rfl⟩
        | false => exact .inr ⟨ω', rest, rfl⟩

theorem exists_append {m n : Nat} {ω : List Bool} (h : ω.length = m + n) :
    ∃ ω₁ ω₂, ω = ω₁ ++ ω₂ ∧ ω₁.length = m ∧ ω₂.length = n := by
  refine ⟨ω.take m, ω.drop m, (List.take_append_drop m ω).symm, ?_, ?_⟩
  · rw [List.length_take]
    omega
  · rw [List.length_drop]
    omega

/-- a world of `m` choices with `n` more -/
theorem length_pad {m : Nat} {ω : List Bool} (h : ω.length = m) (n : Nat) :
    (ω ++ List.replicate n false).length = m + n := by
  rw [List.length_append, List.length_replicate, h]

theorem nodup_worlds (n : Nat) : (worlds n).Nodup := by
  induction n with
  | zero => exact List.pairwise_singleton _ []
  | succ n ih =>
    have tails (b : Bool) : ((worlds n).map (b :: ·)).Nodup :=
      List.Pairwise.map _ (fun _ _ differ e => differ (List.cons.inj e).2) ih
    refine List.nodup_append.mpr ⟨tails true, tails false, ?_⟩
    intro ω hω ω' hω' e
    obtain ⟨_, -, rfl⟩ := List.mem_map.mp hω
    obtain ⟨_, -, rfl⟩ := List.mem_map.mp hω'
    cases e

theorem overWorlds_zero (f : List Bool → Rat) : overWorlds 0 f = f [] := by
  show f [] + 0 = f []
  ring

theorem overWorlds_succ (n : Nat) (f : List Bool → Rat) :
    overWorlds (n + 1) f =
      overWorlds n (fun ω => f (true :: ω)) + overWorlds n fun ω => f (false :: ω) := by
  unfold overWorlds
  rw [worlds, List.map_append, List.sum_append, List.map_map, List.map_map]
  rfl

theorem overWorlds_congr {n : Nat} {f g : List Bool → Rat} (h : ∀ ω, ω.length = n → f ω = g ω) :
    overWorlds n f = overWorlds n g := by
  unfold overWorlds
  rw [List.map_congr_left fun ω hω => h ω (mem_worlds.mp hω)]

theorem overWorlds_eq_zero {n : Nat} {f : List Bool → Rat} (h : ∀ ω, ω.length = n → f ω = 0) :
    overWorlds n f = 0 := by
  unfold overWorlds
  refine List.sum_eq_zero fun q hq => ?_
  obtain ⟨ω, hω, rfl⟩ := List.mem_map.mp hq
  exact h ω (mem_worlds.mp hω)

theorem overWorlds_mul (n : Nat) (f : List Bool → Rat) (q : Rat) :
    (overWorlds n fun ω => f ω * q) = overWorlds n f * q := List.sum_map_mul_right ..

theorem overWorlds_add (m n : Nat) (f : List Bool → Rat) :
    overWorlds (m + n) f = overWorlds m fun ω => overWorlds n fun ω' => f (ω ++ ω') := by
  induction m generalizing f with
  | zero =>
    rw [Nat.zero_add, overWorlds_zero]
    rfl
  | succ m ih =>
    rw [Nat.succ_add, overWorlds_succ, overWorlds_succ, ih, ih]
    rfl

theorem weight_append {ps : List Float} {ω : List Bool} (h : ω.length = ps.length)
    (qs : List Float) (ω' : List Bool) :
    weight (ps ++ qs) (ω ++ ω') = weight ps ω * weight qs ω' := by
  induction ps generalizing ω with
  | nil =>
    have none : ω = [] := List.length_eq_zero_iff.mp h
    subst none
    show weight qs ω' = 1 * weight qs ω'
    ring
  | cons p ps ih =>
    cases ω with
    | nil => cases h
    | cons b ω =>
      show _ * weight (ps ++ qs) (ω ++ ω') = _ * weight ps ω * weight qs ω'
      rw [ih (Nat.succ.inj h)]
      ring

/-- the weights of all worlds sum up to one -/
theorem overWorlds_weight (ps : List Float) : overWorlds ps.length (weight ps) = 1 := by
  induction ps with
  | nil => exact overWorlds_zero _
  | cons p ps ih =>
    have step (q : Rat) : (overWorlds ps.length fun ω => q * weight ps ω) = q := by
      have swap : (overWorlds ps.length fun ω => q * weight ps ω) =
          overWorlds ps.length fun ω => weight ps ω * q :=
        overWorlds_congr fun ω _ => mul_comm ..
      rw [swap, overWorlds_mul, ih, one_mul]
    rw [List.length_cons, overWorlds_succ]
    have split : exactValue p + (1 - exactValue p) = 1 := by ring
    exact (congrArg₂ (· + ·) (step _) (step _)).trans split

/-! ## Operations -/

namespace Operation

/-- how many choices an application makes itself: one if it samples -/
def samples (op : Operation) : Nat := if op = .sample then 1 else 0

/-- an operation applied to scalars, with its own choices -/
def onScalars : Operation → List Scalar → List Bool → Except Stop Scalar
  | .add, [l, r], _ => l.arith .add r
  | .subtract, [l, r], _ => l.arith .subtract r
  | .multiply, [l, r], _ => l.arith .multiply r
  | .divide, [l, r], _ => l.arith .divide r
  | .and, [l, r], _ => l.and r
  | .or, [l, r], _ => l.or r
  | .not, [.bool a], _ => .ok (.bool (!a))
  | .equal, [l, r], _ => l.equal r
  | .lessThan, [l, r], _ => l.lessThan r
  | .greaterThan, [l, r], _ => r.lessThan l
  | .bernoulli, [.float p], _ => .ok (.distribution (.bernoulli p.toFloat))
  | .flip, [.float p], _ => .ok (.distribution (.flip p.toFloat))
  | .sample, [.distribution d], [b] => d.pick b
  | _, _, _ => .error .stuck

/-- the parameters of an application's own choices -/
def chances : Operation → Except Stop (List Scalar) → List Float
  | .sample, .ok [.distribution d] => [d.chance]
  | .sample, _ => [0]
  | _, _ => []

theorem length_chances (op : Operation) (us : Except Stop (List Scalar)) :
    (op.chances us).length = op.samples := by
  unfold chances
  split
  · rfl
  · rfl
  · next other _ =>
    unfold samples
    rw [if_neg other]
    rfl

/-- a sum over an application's own choices -/
def mean (op : Operation) (qs : List Float) (g : Scalar → Rat) (us : List Scalar) : Rat :=
  overWorlds qs.length fun ω => payoff g (op.onScalars us ω) * weight qs ω

end Operation

/-! ## Programs -/

namespace Program

mutual

/-- the number of `sample` nodes -/
def samples : Program → Nat
  | .const _ => 0
  | .call op args => samplesAll args + op.samples

def samplesAll : List Program → Nat
  | [] => 0
  | a :: as => samples a + samplesAll as

end

mutual

/-- A program in a world.  The choices stand in the order of evaluation: those of the operands from
left to right, then those of the operation. -/
def inWorld : Program → List Bool → Except Stop Scalar
  | .const j, _ =>
    match Literal.ofJson j with
    | .ok l => .ok (.ofLiteral l)
    | .error _ => .error .stuck
  | .call op args, ω =>
    match inWorldAll args (ω.take (samplesAll args)) with
    | .error e => .error e
    | .ok us => op.onScalars us (ω.drop (samplesAll args))

def inWorldAll : List Program → List Bool → Except Stop (List Scalar)
  | [], _ => .ok []
  | a :: as, ω =>
    match inWorld a (ω.take (samples a)) with
    | .error e => .error e
    | .ok u =>
      match inWorldAll as (ω.drop (samples a)) with
      | .error e => .error e
      | .ok us => .ok (u :: us)

end

mutual

/-- The parameters of the `sample` nodes.  What is sampled has no `sample` node inside, so that it
is the same in all worlds, and the one without choices will do. -/
def chances : Program → List Float
  | .const _ => []
  | .call op args => chancesAll args ++ op.chances (inWorldAll args [])

def chancesAll : List Program → List Float
  | [] => []
  | a :: as => chances a ++ chancesAll as

end

mutual

theorem length_chances : ∀ p : Program, p.chances.length = p.samples
  | .const _ => by
    rw [chances, samples]
    rfl
  | .call op args => by
    have all := length_chancesAll args
    rw [chances, samples, List.length_append, all, Operation.length_chances]

theorem length_chancesAll : ∀ ps : List Program, (chancesAll ps).length = samplesAll ps
  | [] => by
    rw [chancesAll, samplesAll]
    rfl
  | a :: as => by
    rw [chancesAll, samplesAll, List.length_append, length_chances a, length_chancesAll as]

end

def worlds (p : Program) : List (List Bool) := Chance.worlds p.samples

/-- does the program evaluate to the outcome in the world? -/
def yields (p : Program) (w : Scalar) (ω : List Bool) : Bool :=
  match p.inWorld ω with
  | .ok u => u.same w
  | .error _ => false

/-- the sum of the weights of all worlds in which a program evaluates to an outcome -/
def probability (p : Program) (w : Scalar) : Rat :=
  ((p.worlds.filter (p.yields w)).map (weight p.chances)).sum

/-- the sum of a function of the result over all worlds with their weights -/
def mean (p : Program) (g : Scalar → Rat) : Rat :=
  overWorlds p.samples fun ω => payoff g (p.inWorld ω) * weight p.chances ω

def meanAll (ps : List Program) (g : List Scalar → Rat) : Rat :=
  overWorlds (samplesAll ps) fun ω => payoff g (inWorldAll ps ω) * weight (chancesAll ps) ω

section

variable {op : Operation} {a : Program} {as args : List Program} {ω : List Bool} {e : Stop}
  {u : Scalar} {us : List Scalar}

theorem inWorld_call_error (h : ω.length = samplesAll args) (failed : inWorldAll args ω = .error e)
    (ω' : List Bool) : (call op args).inWorld (ω ++ ω') = .error e := by
  rw [inWorld, List.take_left' h, failed]

theorem inWorld_call_ok (h : ω.length = samplesAll args) (found : inWorldAll args ω = .ok us)
    (ω' : List Bool) : (call op args).inWorld (ω ++ ω') = op.onScalars us ω' := by
  rw [inWorld, List.take_left' h, found, List.drop_left' h]

theorem inWorldAll_cons_error (h : ω.length = a.samples) (failed : a.inWorld ω = .error e)
    (ω' : List Bool) : inWorldAll (a :: as) (ω ++ ω') = .error e := by
  rw [inWorldAll, List.take_left' h, failed]

theorem inWorldAll_cons_tail (h : ω.length = a.samples) (found : a.inWorld ω = .ok u)
    {ω' : List Bool} (failed : inWorldAll as ω' = .error e) :
    inWorldAll (a :: as) (ω ++ ω') = .error e := by
  rw [inWorldAll, List.take_left' h, found, List.drop_left' h]
  dsimp only
  rw [failed]

theorem inWorldAll_cons_ok (h : ω.length = a.samples) (found : a.inWorld ω = .ok u)
    {ω' : List Bool} (rest : inWorldAll as ω' = .ok us) :
    inWorldAll (a :: as) (ω ++ ω') = .ok (u :: us) := by
  rw [inWorldAll, List.take_left' h, found, List.drop_left' h]
  dsimp only
  rw [rest]

end

/-! ## Sums over worlds -/

theorem mean_const {j : Json} {l : Literal} (h : Literal.ofJson j = .ok l) (g : Scalar → Rat) :
    (const j).mean g = g (.ofLiteral l) := by
  have value : (const j).inWorld [] = .ok (.ofLiteral l) := by rw [inWorld, h]
  show overWorlds 0 _ = _
  rw [overWorlds_zero, value, chances]
  show g (.ofLiteral l) * 1 = _
  ring

/-- the worlds of a call: those of its operands, each with the choices of the operation -/
theorem mean_call (op : Operation) (args : List Program) (g : Scalar → Rat) :
    (call op args).mean g = meanAll args (op.mean (op.chances (inWorldAll args [])) g) := by
  unfold mean meanAll
  rw [samples, overWorlds_add, chances]
  refine overWorlds_congr fun ω hω => ?_
  have hqs : ω.length = (chancesAll args).length := hω.trans (length_chancesAll args).symm
  cases h : inWorldAll args ω with
  | error e =>
    have nothing : payoff (op.mean (op.chances (inWorldAll args [])) g)
        (.error e : Except Stop (List Scalar)) = 0 := rfl
    rw [nothing, zero_mul]
    refine overWorlds_eq_zero fun ω' _ => ?_
    rw [inWorld_call_error hω h]
    exact zero_mul _
  | ok us =>
    show _ = overWorlds _ _ * _
    rw [← overWorlds_mul, Operation.length_chances]
    refine overWorlds_congr fun ω' _ => ?_
    rw [inWorld_call_ok hω h, weight_append hqs]
    ring

theorem meanAll_nil (g : List Scalar → Rat) : meanAll [] g = g [] := by
  have none : inWorldAll [] [] = .ok [] := by rw [inWorldAll]
  show overWorlds 0 _ = _
  rw [overWorlds_zero, none]
  show g [] * 1 = g []
  ring

/-- the worlds of operands: those of the first one, each with those of the others -/
theorem meanAll_cons (a : Program) (as : List Program) (g : List Scalar → Rat) :
    meanAll (a :: as) g = a.mean fun u => meanAll as fun us => g (u :: us) := by
  unfold mean meanAll
  rw [samplesAll, overWorlds_add, chancesAll]
  refine overWorlds_congr fun ω hω => ?_
  have hqs : ω.length = a.chances.length := hω.trans (length_chances a).symm
  cases h : a.inWorld ω with
  | error e =>
    have nothing : payoff (fun u => meanAll as fun us => g (u :: us))
        (.error e : Except Stop Scalar) = 0 := rfl
    unfold meanAll at nothing
    rw [nothing, zero_mul]
    refine overWorlds_eq_zero fun ω' _ => ?_
    rw [inWorldAll_cons_error hω h]
    exact zero_mul _
  | ok u =>
    show _ = overWorlds _ _ * _
    rw [← overWorlds_mul]
    refine overWorlds_congr fun ω' _ => ?_
    rw [weight_append hqs]
    cases hs : inWorldAll as ω' with
    | error e =>
      rw [inWorldAll_cons_tail hω h hs]
      show 0 * _ = 0 * _ * _
      ring
    | ok us =>
      rw [inWorldAll_cons_ok hω h hs]
      show g (u :: us) * _ = g (u :: us) * _ * _
      ring

theorem probability_eq_mean (p : Program) (w : Scalar) :
    p.probability w = p.mean fun u => if u.same w then 1 else 0 := by
  unfold probability mean overWorlds worlds
  induction Chance.worlds p.samples with
  | nil => rfl
  | cons ω ωs ih =>
    rw [List.map_cons, List.sum_cons, ← ih]
    have term : payoff (fun u => if u.same w then 1 else 0) (p.inWorld ω) =
        if p.yields w ω then (1 : Rat) else 0 := by
      unfold yields
      cases p.inWorld ω with
      | error e => rfl
      | ok u => rfl
    rw [term]
    by_cases h : p.yields w ω = true
    · rw [List.filter_cons_of_pos h, List.map_cons, List.sum_cons, if_pos h]
      ring
    · rw [List.filter_cons_of_neg h, if_neg h]
      ring

/-! ## Negations left to a coin -/

def coin : Program := call .sample [call .flip [const (.number (.float 0.5))]]

def loosenedCall : Operation → List Program → Program
  | .not, _ => coin
  | op, args => call op args

theorem loosenedCall_of_ne {op : Operation} (h : op ≠ .not) (args : List Program) :
    loosenedCall op args = call op args := by
  unfold loosenedCall
  split
  · exact absurd rfl h
  · rfl

mutual

/-- a program in which a coin stands for each negation -/
def loosened : Program → Program
  | .const j => .const j
  | .call op args => loosenedCall op (loosenedAll args)

def loosenedAll : List Program → List Program
  | [] => []
  | a :: as => loosened a :: loosenedAll as

end

end Program
end Chance
