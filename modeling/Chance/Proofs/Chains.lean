import Chance.Proofs.Partiality
import Chance.Proofs.Thresholds
import Chance.Proofs.ZeroSums

/-!
# Chains of arithmetic on a continuous sample

A continuous sample goes through arithmetic with doubles, each of which stands in a mass function
as its only outcome with mass.  What is added and subtracted collects in the offset, what is
multiplied and divided by in the scale, and neither takes notice of the other.  So two chains with
the same shifts and the same factors, each in order, end at the same sample, however they are mixed.

* `LoneDouble`, `Link`    a double as an operand, and one step of a chain;
* `Value.chain`           the steps one after the other;
* `Affine.chained`        offset and scale at the end of a chain;
* `chain_eq`              a chain never fails and ends there;
* `shares`, `below_eq`    what each threshold adds to a comparison;
* `chained_apart`         chains and comparisons.
-/

namespace Chance

/-- a mass function in which one double alone has mass, whatever else is recorded -/
structure LoneDouble where
  sample : Pmf Double Float
  value : Double
  single : sample.single = some value

/-- arithmetic with a double, which is the left operand or the right one -/
structure Link where
  op : Arith
  scalar : LoneDouble
  scalarFirst : Bool

namespace Link

def apply (k : Link) (v : Value Float) : Except (Fault Float) (Value Float) :=
  if k.scalarFirst then (Value.float k.scalar.sample).arith k.op v
  else v.arith k.op (.float k.scalar.sample)

/-- what is added to the offset -/
def shift? (k : Link) : Option Float :=
  match k.op with
  | .add => some k.scalar.value.toFloat
  | .subtract => some (-k.scalar.value.toFloat)
  | _ => none

/-- what the scale is multiplied with -/
def factor? (k : Link) : Option Float :=
  match k.op with
  | .multiply => some k.scalar.value.toFloat
  | .divide => some (1.0 / k.scalar.value.toFloat)
  | _ => none

end Link

/-- one step after the other, up to the first fault -/
def Value.chain : List Link → Value Float → Except (Fault Float) (Value Float)
  | [], v => .ok v
  | k :: ks, v => (k.apply v).bind (chain ks)

/-- the sample at the end of a chain: shifts collect in the offset, factors in the scale -/
def Affine.chained (z : Affine) (ks : List Link) : Affine where
  law := z.law
  offset := (ks.filterMap Link.shift?).foldl (· + ·) z.offset
  scale := (ks.filterMap Link.factor?).foldl (· * ·) z.scale

/-! ## Chains -/

/-- one step -/
theorem Link.apply_continuous (k : Link) (z : Affine) :
    k.apply (.continuous z) = .ok (.continuous (z.arith k.op k.scalar.value.toFloat)) := by
  obtain ⟨first, second⟩ := Value.arith_single k.op k.scalar.single z
  unfold Link.apply
  split
  · exact first
  · exact second

theorem Affine.chained_cons (z : Affine) (k : Link) (ks : List Link) :
    z.chained (k :: ks) = (z.arith k.op k.scalar.value.toFloat).chained ks := by
  obtain ⟨op, scalar, scalarFirst⟩ := k
  cases op <;> rfl

/-- a chain never fails -/
theorem Value.chain_eq (ks : List Link) (z : Affine) :
    Value.chain ks (.continuous z) = .ok (.continuous (z.chained ks)) := by
  induction ks generalizing z with
  | nil => rfl
  | cons k ks ih =>
    rw [Value.chain, k.apply_continuous, Affine.chained_cons]
    exact ih _

theorem Affine.chained_congr (z : Affine) {ks ls : List Link}
    (shifts : ks.filterMap Link.shift? = ls.filterMap Link.shift?)
    (factors : ks.filterMap Link.factor? = ls.filterMap Link.factor?) :
    z.chained ks = z.chained ls := by
  unfold Affine.chained
  rw [shifts, factors]

/-! ## Comparisons -/

namespace Pmf

/-- what the cumulative probability at a threshold and its mass add to a comparison -/
def shares (cdf : Double → Float) (e : Double × Float) : List (Bool × Float) :=
  [(true, e.2 * cdf e.1), (false, e.2 * (1.0 - cdf e.1))]

variable {F : Cumulative} {x : Affine} {s : Pmf Double Float} {cdf : Double → Float}

/-- the shares of one threshold, whether or not they are put onto zero before -/
theorem addAlike_shares (e : Double × Float) :
    List.Forall₂ AddAlike
      [(true, e.2 * (0.0 + cdf e.1)), (false, e.2 * (0.0 + (1.0 - cdf e.1)))] (shares cdf e) :=
  .cons ⟨rfl, fun _ ht => ht.add_mul_zero_add _ _⟩
    (.cons ⟨rfl, fun _ ht => ht.add_mul_zero_add _ _⟩ .nil)

theorem below_eq (defined : ∀ v ∈ s.values, F x.law (x.point v.toFloat) = some (cdf v)) :
    below F x s = .ok (ofList (s.entries.flatMap (shares cdf))) := by
  have entry : ∀ e ∈ s.entries, belowEntry F x e = .ok
      [(true, e.2 * (0.0 + cdf e.1)), (false, e.2 * (0.0 + (1.0 - cdf e.1)))] := fun e he =>
    belowEntry_of_some (defined e.1 (List.mem_map_of_mem he))
  unfold below
  rw [mapM_eq_ok entry, List.flatMap_def]
  refine congrArg Except.ok (ofList_congr_sums ?_)
  induction s.entries with
  | nil => exact .nil
  | cons e es ih => exact List.rel_append (addAlike_shares e) ih

end Pmf

variable (F : Cumulative) (z : Affine) (ks : List Link)

/-- **Chains.**  Arithmetic with doubles on a continuous sample never fails.  It keeps the law, the
offset is the sum of what is added and subtracted, and the scale the product of what is multiplied
and divided by, each in order and on whichever side the doubles stand.  So chains with the same
shifts and the same factors end at the same sample.  A comparison with thresholds adds up the shares
of each of them, in order, at `t * scale + offset`, and breaks down where the law is not defined. -/
theorem chained_apart :
    Value.chain ks (.continuous z) = .ok (.continuous
      ⟨z.law, (ks.filterMap Link.shift?).foldl (· + ·) z.offset,
        (ks.filterMap Link.factor?).foldl (· * ·) z.scale⟩) ∧
    (∀ ls : List Link, ks.filterMap Link.shift? = ls.filterMap Link.shift? →
      ks.filterMap Link.factor? = ls.filterMap Link.factor? →
      Value.chain ks (.continuous z) = Value.chain ls (.continuous z)) ∧
    (∀ (s : Pmf Double Float) (cdf : Double → Float),
      (∀ t ∈ s.values, F z.law (t.toFloat * (z.chained ks).scale + (z.chained ks).offset) =
        some (cdf t)) →
      ((Value.chain ks (.continuous z)).bind fun v => v.lessThan F (.float s)) =
        .ok (.bool (Pmf.ofList (s.entries.flatMap fun e =>
          [(true, e.2 * cdf e.1), (false, e.2 * (1.0 - cdf e.1))])))) ∧
    (∀ s : Pmf Double Float,
      (∃ t ∈ s.values,
        F z.law (t.toFloat * (z.chained ks).scale + (z.chained ks).offset) = none) →
      BreaksDown ((Value.chain ks (.continuous z)).bind fun v => v.lessThan F (.float s))) := by
  refine ⟨Value.chain_eq ks z, ?_, ?_, ?_⟩
  · intro ls shifts factors
    rw [Value.chain_eq, Value.chain_eq, z.chained_congr shifts factors]
  · intro s cdf defined
    rw [Value.chain_eq]
    show Value.ofComparison z.law (Pmf.below F (z.chained ks) s) = _
    rw [Pmf.below_eq defined]
    rfl
  · intro s undefined
    rw [Value.chain_eq]
    exact (breaksDown_ofComparison z.law).mpr (Pmf.below_eq_error.mpr undefined)

/-! ### A uniform sample, shifted and scaled in two orders -/

/-- a quarter, and one without mass -/
def quarter : LoneDouble :=
  ⟨(Pmf.certain (.ofFloat 0.25)).add (.ofFloat 1.0) 0.0, .ofFloat 0.25, by rfl⟩

def two : LoneDouble := ⟨Pmf.certain (.ofFloat 2.0), .ofFloat 2.0, by rfl⟩

/-- a quarter is added, the sample divides two, and two are subtracted -/
def shiftedFirst : List Link :=
  [⟨.add, quarter, false⟩, ⟨.divide, two, true⟩, ⟨.subtract, two, false⟩]

def scaledFirst : List Link :=
  [⟨.divide, two, false⟩, ⟨.add, quarter, true⟩, ⟨.subtract, two, true⟩]

/-- four and five, as likely as each other -/
def fourOrFive : Pmf Double Float := (Pmf.empty.add (.ofFloat 4.0) 0.5).add (.ofFloat 5.0) 0.5

def noThreshold : Pmf Double Float := Pmf.certain Double.invalid

theorem chained_apart_uniform :
    Value.chain shiftedFirst (.continuous (.ofLaw (.beta 1.0 1.0))) =
      Value.chain scaledFirst (.continuous (.ofLaw (.beta 1.0 1.0))) ∧
    ((Value.chain shiftedFirst (.continuous (.ofLaw (.beta 1.0 1.0)))).bind fun v =>
      v.lessThan Law.cumulative (.float fourOrFive)) =
        .ok (.bool (Pmf.ofList [(true, 0.125), (false, 0.375), (true, 0.375), (false, 0.125)])) ∧
    BreaksDown ((Value.chain shiftedFirst (.continuous (.ofLaw (.beta 2.0 3.0)))).bind fun v =>
      v.lessThan Law.cumulative (.float noThreshold)) := by
  obtain ⟨-, mixed, compared, -⟩ :=
    chained_apart Law.cumulative (.ofLaw (.beta 1.0 1.0)) shiftedFirst
  obtain ⟨-, -, -, undefined⟩ := chained_apart Law.cumulative (.ofLaw (.beta 2.0 3.0)) shiftedFirst
  refine ⟨mixed scaledFirst (by decide +kernel) (by decide +kernel), ?_, ?_⟩
  · refine (compared fourOrFive (fun t => uniformCumulative (t.toFloat * 0.5 + -1.75))
      fun t _ => ?_).trans ?_
    · have ends : ((Affine.ofLaw (.beta 1.0 1.0)).chained shiftedFirst).scale = 0.5 ∧
          ((Affine.ofLaw (.beta 1.0 1.0)).chained shiftedFirst).offset = -1.75 := by decide +kernel
      rw [ends.1, ends.2]
      exact cumulative_uniform _
    · rfl
  · exact undefined noThreshold ⟨Double.invalid, List.mem_singleton.mpr rfl, rfl⟩

end Chance
