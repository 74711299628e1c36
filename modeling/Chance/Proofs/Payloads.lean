import Chance.Proofs.Sessions
import Chance.Proofs.Summaries
import Chance.Proofs.Unobservable

/-!
# Words that are no number

All words that are no number are one outcome.  Nothing that is computed tells them apart: calls on
operands that differ in such words alone have the same faults, or results that again differ in such
words alone, and leave the source at the same place.  The text of a value does not tell them apart
either.  Its summary does: it is sorted by words, and the words that are no number stand before all
numbers or behind them.

* `Pmf.Twins`             mass functions that differ in such words alone;
* `Pmf.twins_ofList`, `Pmf.Twins.combine`   what builds and combines them;
* `Value.Twins`, `Operation.twins_apply`   values and operations;
* `Session.Twins.run`     sessions, call by call;
* `Value.sorted_eq_append`, `Value.summary_eq_iff`   summaries;
* `payloads_unobserved`   all of this.
-/

namespace Chance

variable {α β γ M : Type}

/-! ## Lists in step -/

section

variable {ε : Type} {R : α → β → Prop} {xs : List α} {ys : List β}

theorem map_eq_of_forall₂ {f : α → γ} {g : β → γ} (h : List.Forall₂ R xs ys)
    (same : ∀ x y, R x y → f x = g y) : xs.map f = ys.map g := by
  rw [← List.forall₂_eq_eq_eq, List.forall₂_map_left_iff, List.forall₂_map_right_iff]
  exact h.imp same

theorem mapM_eq_of_forall₂ {f : α → Except ε γ} {g : β → Except ε γ} (h : List.Forall₂ R xs ys)
    (same : ∀ x y, R x y → f x = g y) : xs.mapM f = ys.mapM g := by
  induction h with
  | nil => rfl
  | cons first _ ih => rw [List.mapM_cons, List.mapM_cons, same _ _ first, ih]

end

/-! ## Mass functions -/

variable [Outcome α] [Outcome β] [Outcome γ]

namespace Pmf

/-- one outcome with one mass -/
def SameEntry (e f : α × M) : Prop := SameKey e.1 f.1 ∧ e.2 = f.2

/-- the same outcomes with the same masses, in the same order -/
def Twins (s t : Pmf α M) : Prop := List.Forall₂ SameEntry s.entries t.entries

theorem Twins.refl (s : Pmf α M) : s.Twins s := List.forall₂_same.mpr fun _ _ => ⟨rfl, rfl⟩

theorem Twins.size {s t : Pmf α M} (h : s.Twins t) : s.size = t.size := h.length_eq

/-- where every outcome has a key of its own, nothing is left to differ -/
theorem Twins.eq [Outcome.Exact α] {s t : Pmf α M} (h : s.Twins t) : s = t := by
  refine ext_entries ?_
  rw [← List.forall₂_eq_eq_eq]
  exact h.imp fun e f same => Prod.ext (Outcome.Exact.eq_of_key same.1) same.2

variable [Mass M]

theorem sameEntry_accumulate {es fs : List (α × M)} (h : List.Forall₂ SameEntry es fs) {v w : α}
    (key : SameKey v w) (p : M) :
    List.Forall₂ SameEntry (accumulate v p es) (accumulate w p fs) := by
  unfold SameKey at key
  induction h with
  | nil => exact .cons ⟨key, rfl⟩ .nil
  | @cons e f es fs first rest ih =>
    obtain ⟨outcome, mass⟩ := first
    unfold SameKey at outcome
    rw [accumulate, accumulate, outcome, key, mass]
    split
    · exact .cons ⟨outcome, rfl⟩ rest
    · exact .cons ⟨outcome, rfl⟩ ih

theorem twins_ofList {l l' : List (α × M)} (h : List.Forall₂ SameEntry l l') :
    (ofList l).Twins (ofList l') := by
  have added : ∀ s t : Pmf α M, s.Twins t →
      (l.foldl (fun s e => s.add e.1 e.2) s).Twins (l'.foldl (fun s e => s.add e.1 e.2) t) := by
    induction h with
    | nil => exact fun _ _ twins => twins
    | cons first _ ih =>
      intro s t twins
      refine ih _ _ ?_
      unfold Twins
      rw [entries_add, entries_add, first.2]
      exact sameEntry_accumulate twins first.1 _
  rw [ofList_eq_foldl, ofList_eq_foldl]
  exact added _ _ (.refl empty)

/-- pairs of outcomes with one mass -/
def SamePair (e f : (α × β) × M) : Prop :=
  SameKey e.1.1 f.1.1 ∧ SameKey e.1.2 f.1.2 ∧ e.2 = f.2

theorem twins_pairs {l l' : Pmf α M} {r r' : Pmf β M} (hl : l.Twins l') (hr : r.Twins r') :
    List.Forall₂ SamePair (l.pairs r) (l'.pairs r') := by
  refine List.rel_flatMap hl fun e f same => List.rel_map (fun a b same' => ?_) hr
  refine ⟨same.1, same'.1, ?_⟩
  show Mass.mul e.2 a.2 = Mass.mul f.2 b.2
  rw [same.2, same'.2]

theorem Twins.combine {l l' : Pmf α M} {r r' : Pmf β M} (hl : l.Twins l') (hr : r.Twins r')
    {op : α → β → γ}
    (respects : ∀ a a' b b', SameKey a a' → SameKey b b' → SameKey (op a b) (op a' b')) :
    (l.combine r op).Twins (l'.combine r' op) :=
  twins_ofList (List.rel_map (fun _ _ same => ⟨respects _ _ _ _ same.1 same.2.1, same.2.2⟩)
    (twins_pairs hl hr))

/-- a relation on outcomes gives the same truth values -/
theorem Twins.combine_eq {l l' : Pmf α M} {r r' : Pmf β M} (hl : l.Twins l') (hr : r.Twins r')
    {op : α → β → Bool}
    (respects : ∀ a a' b b', SameKey a a' → SameKey b b' → op a b = op a' b') :
    l.combine r op = l'.combine r' op :=
  (hl.combine hr fun a a' b b' ha hb => congrArg Outcome.key (respects a a' b b' ha hb)).eq

/-! ### Doubles -/

variable {s s' t t' : Pmf Double M}

theorem Twins.arith (hs : s.Twins s') (ht : t.Twins t') (op : Arith) :
    ∃ p q, s.arith op t = .ok p ∧ s'.arith op t' = .ok q ∧ p.Twins q := by
  refine ⟨_, _, arith_double op s t, arith_double op s' t', ?_⟩
  refine hs.combine ht fun a a' b b' ha hb => sameKey_double.mpr ?_
  rw [Double.toFloat_lift, Double.toFloat_lift, sameKey_double.mp ha, sameKey_double.mp hb]

theorem Twins.equal (hs : s.Twins s') (ht : t.Twins t') : s.equal t = s'.equal t' := by
  refine hs.combine_eq ht fun a a' b b' ha hb => ?_
  rw [same_of_sameKey ha, Outcome.same_comm, same_of_sameKey hb, Outcome.same_comm]

theorem Twins.lessThan (hs : s.Twins s') (ht : t.Twins t') : s.lessThan t = s'.lessThan t' :=
  hs.combine_eq ht less_double

theorem Twins.greaterThan (hs : s.Twins s') (ht : t.Twins t') :
    s.greaterThan t = s'.greaterThan t' :=
  hs.combine_eq ht fun a a' b b' ha hb => less_double b b' a a' hb ha

theorem Twins.below (h : s.Twins t) (F : Cumulative) (x : Affine) :
    below F x s = below F x t := by
  unfold Pmf.below
  rw [mapM_eq_of_forall₂ h fun e f same => ?_]
  unfold belowEntry
  rw [sameKey_double.mp same.1, same.2]

theorem Twins.above (h : s.Twins t) (F : Cumulative) (x : Affine) :
    above F x s = above F x t := by
  unfold Pmf.above
  rw [h.below]

theorem Twins.single (h : s.Twins t) :
    s.single.map Double.toFloat = t.single.map Double.toFloat := by
  have kept : List.Forall₂ SameEntry (s.entries.filter fun e => Mass.nonzero e.2)
      (t.entries.filter fun e => Mass.nonzero e.2) :=
    List.rel_filter (fun e f same => iff_of_eq (congrArg (Mass.nonzero · = true) same.2)) h
  unfold Pmf.single
  revert kept
  generalize s.entries.filter (fun e => Mass.nonzero e.2) = es
  generalize t.entries.filter (fun e => Mass.nonzero e.2) = fs
  rintro (_ | ⟨first, _ | _⟩)
  · rfl
  · exact congrArg some (sameKey_double.mp first.1)
  · rfl

theorem Twins.text {s t : Pmf Double Float} (h : s.Twins t) : s.text = t.text := by
  unfold Pmf.text
  rw [map_eq_of_forall₂ h fun e f same => ?_]
  show FloatLayout.plain.text e.1.toFloat ++ _ ++ _ = FloatLayout.plain.text f.1.toFloat ++ _ ++ _
  rw [sameKey_double.mp same.1, same.2]

end Pmf

/-! ## Values -/

namespace Value

/-- doubles that differ in words that are no number alone, and equal values of the other kinds -/
inductive Twins : Value Float → Value Float → Prop
  | bool (s : Pmf Bool Float) : Twins (.bool s) (.bool s)
  | int (s : Pmf Int64 Float) : Twins (.int s) (.int s)
  | float {s t : Pmf Double Float} (h : s.Twins t) : Twins (.float s) (.float t)
  | continuous (x : Affine) : Twins (.continuous x) (.continuous x)
  | distribution (d : Distribution) : Twins (.distribution d) (.distribution d)

theorem Twins.refl (v : Value Float) : v.Twins v := by
  cases v with
  | bool s => exact .bool s
  | int s => exact .int s
  | float s => exact .float (.refl s)
  | continuous x => exact .continuous x
  | distribution d => exact .distribution d

variable {v v' w w' : Value Float}

theorem Twins.kind (h : v.Twins w) : v.kind = w.kind := by cases h <;> rfl

theorem Twins.text (h : v.Twins w) : v.text = w.text := by
  cases h with
  | float h => exact h.text
  | _ => rfl

end Value

/-- values that are twins, or one and the same fault -/
inductive Answer.Twins : Answer Float → Answer Float → Prop
  | value {v w : Value Float} (h : v.Twins w) : Twins (.value v) (.value w)
  | fault (f : Fault Float) : Twins (.fault f) (.fault f)
  | unresolved : Twins .unresolved .unresolved

theorem Answer.Twins.refl (a : Answer Float) : a.Twins a := by
  cases a with
  | value v => exact .value (.refl v)
  | fault f => exact .fault f
  | unresolved => exact .unresolved

theorem Answer.Twins.of_eq {a b : Answer Float} (h : a = b) : a.Twins b := h ▸ .refl a

/-- results that are twins -/
def TwinResults (r r' : Except (Fault Float) (Value Float)) : Prop :=
  (Answer.ofResult r).Twins (Answer.ofResult r')

theorem TwinResults.of_eq {r r' : Except (Fault Float) (Value Float)} (h : r = r') :
    TwinResults r r' := Answer.Twins.of_eq (congrArg Answer.ofResult h)

namespace Value

variable {v v' w w' : Value Float}

theorem Twins.mismatch (hv : v.Twins v') (hw : w.Twins w') (op : Operation) :
    mismatch op v w = mismatch op v' w' := by
  unfold Value.mismatch
  rw [hv.kind, hw.kind]

theorem Twins.not (h : v.Twins w) : TwinResults v.not w.not := by
  cases h <;> exact .of_eq rfl

theorem Twins.sample (h : v.Twins w) : v.sample = w.sample := by
  cases h <;> rfl

theorem Twins.parameter (h : v.Twins w) (family : Family) (name : String) :
    parameter family name v = (parameter family name w : Except (Fault Float) Float) := by
  cases h with
  | @float s t h =>
    have same := h.single
    unfold Value.parameter
    dsimp only
    rw [h.size]
    cases hs : s.single with
    | none =>
      rw [Option.map_eq_none_iff.mp (same.symm.trans (by rw [hs]; rfl))]
    | some x =>
      rw [hs] at same
      obtain ⟨y, ht, value⟩ := Option.map_eq_some_iff.mp same.symm
      rw [ht]
      exact congrArg Except.ok value.symm
  | _ => rfl

theorem Twins.ofParameter (h : v.Twins w) (family : Family) (name : String)
    (build : Float → Distribution) :
    ofParameter family name build v = ofParameter family name build w := by
  unfold Value.ofParameter
  rw [h.parameter]

theorem Twins.ofParameters (hv : v.Twins v') (hw : w.Twins w') (family : Family)
    (first second : String) (build : Float → Float → Law) :
    ofParameters family first second build v w = ofParameters family first second build v' w' := by
  unfold Value.ofParameters
  rw [hv.parameter, hw.parameter]

theorem Twins.sameNumber (h : v.Twins w) : v.SameNumber w := by
  cases h with
  | float h => exact .float h.single
  | continuous x => exact .continuous x
  | bool s => exact .bool s s
  | int s => exact .int s s
  | distribution d => exact .distribution d

theorem Twins.arith (hv : v.Twins v') (hw : w.Twins w') (op : Arith) :
    TwinResults (v.arith op w) (v'.arith op w') := by
  have other : TwinResults (arithWithSample op v w) (arithWithSample op v' w') := by
    unfold arithWithSample
    rw [hv.sameNumber.numberWithSample hw.sameNumber, hv.mismatch hw]
    exact .of_eq rfl
  cases hv with
  | int s => cases hw with
    | int t => exact .of_eq rfl
    | _ => exact other
  | @float s s' hv => cases hw with
    | @float t t' hw =>
      obtain ⟨p, q, hp, hq, twins⟩ := hv.arith hw op
      show TwinResults (ofArith .float (s.arith op t)) (ofArith .float (s'.arith op t'))
      rw [hp, hq]
      exact .value (.float twins)
    | _ => exact other
  | _ => cases hw <;> exact other

theorem Twins.connective (hv : v.Twins v') (hw : w.Twins w') (op : Operation)
    (f : Pmf Bool Float → Pmf Bool Float → Pmf Bool Float) :
    connective op f v w = connective op f v' w' := by
  cases hv <;> cases hw <;> rfl

theorem Twins.equal (hv : v.Twins v') (hw : w.Twins w') : v.equal w = v'.equal w' := by
  cases hv with
  | float hv => cases hw with
    | float hw => exact congrArg (fun s => Except.ok (Value.bool s)) (hv.equal hw)
    | _ => rfl
  | _ => cases hw <;> rfl

/-- a comparison that does not tell words apart, with a continuous sample or without -/
theorem Twins.comparison {ints : Pmf Int64 Float → Pmf Int64 Float → Pmf Bool Float}
    {doubles : Pmf Double Float → Pmf Double Float → Pmf Bool Float}
    {left right : Affine → Pmf Double Float → Except Float (Pmf Bool Float)}
    (hv : v.Twins v') (hw : w.Twins w')
    (onDoubles : ∀ {s s' t t'}, Pmf.Twins s s' → Pmf.Twins t t' → doubles s t = doubles s' t')
    (onLeft : ∀ {t t'}, Pmf.Twins t t' → ∀ x, left x t = left x t')
    (onRight : ∀ {s s'}, Pmf.Twins s s' → ∀ x, right x s = right x s') (op : Operation) :
    comparison op ints doubles left right v w = comparison op ints doubles left right v' w' := by
  cases hv with
  | float hv => cases hw with
    | float hw => exact congrArg (fun s => Except.ok (Value.bool s)) (onDoubles hv hw)
    | continuous x => exact congrArg (ofComparison x.law) (onRight hv x)
    | _ => rfl
  | continuous x => cases hw with
    | float hw => exact congrArg (ofComparison x.law) (onLeft hw x)
    | _ => rfl
  | _ => cases hw <;> rfl

theorem Twins.lessThan (hv : v.Twins v') (hw : w.Twins w') (F : Cumulative) :
    v.lessThan F w = v'.lessThan F w' :=
  hv.comparison hw (fun hs ht => hs.lessThan ht) (fun ht => ht.below F) (fun hs => hs.above F) _

theorem Twins.greaterThan (hv : v.Twins v') (hw : w.Twins w') (F : Cumulative) :
    v.greaterThan F w = v'.greaterThan F w' :=
  hv.comparison hw (fun hs ht => hs.greaterThan ht) (fun ht => ht.above F) (fun hs => hs.below F) _

variable {σ : Type} [Source σ]

theorem Twins.observe (hv : v.Twins v') (hw : w.Twins w') (s : σ) :
    TwinResults (v.observe w s).1 (v'.observe w' s).1 ∧
      (v.observe w s).2 = (v'.observe w' s).2 := by
  have other := hv.mismatch hw .observe
  cases hv with
  | bool c =>
    unfold Value.observe
    dsimp only
    cases c.pick (Source.next s).1 with
    | error total => exact ⟨.fault _, rfl⟩
    | ok b => cases b with
      | true => exact ⟨.value hw, rfl⟩
      | false => exact ⟨.fault _, rfl⟩
  | _ => exact ⟨.of_eq other, rfl⟩

end Value

/-- operands that are twins have results that are, and leave the same source -/
theorem Operation.twins_apply {σ : Type} [Source σ] (F : Cumulative) (op : Operation)
    {args args' : List (Value Float)} (h : List.Forall₂ Value.Twins args args') (s : σ) :
    TwinResults (op.apply F args s).1 (op.apply F args' s).1 ∧
      (op.apply F args s).2 = (op.apply F args' s).2 := by
  rcases h with _ | @⟨v, v', _, _, hv, _ | @⟨w, w', _, _, hw, _ | ⟨_, rest⟩⟩⟩
  · cases op <;> exact ⟨.fault _, rfl⟩
  · cases op with
    | not => exact ⟨hv.not, rfl⟩
    | sample => exact ⟨.of_eq hv.sample, rfl⟩
    | bernoulli => exact ⟨.of_eq (hv.ofParameter ..), rfl⟩
    | flip => exact ⟨.of_eq (hv.ofParameter ..), rfl⟩
    | _ => exact ⟨.fault _, rfl⟩
  · cases op with
    | add => exact ⟨hv.arith hw .add, rfl⟩
    | subtract => exact ⟨hv.arith hw .subtract, rfl⟩
    | multiply => exact ⟨hv.arith hw .multiply, rfl⟩
    | divide => exact ⟨hv.arith hw .divide, rfl⟩
    | and => exact ⟨.of_eq (hv.connective hw ..), rfl⟩
    | or => exact ⟨.of_eq (hv.connective hw ..), rfl⟩
    | equal => exact ⟨.of_eq (hv.equal hw), rfl⟩
    | lessThan => exact ⟨.of_eq (hv.lessThan hw F), rfl⟩
    | greaterThan => exact ⟨.of_eq (hv.greaterThan hw F), rfl⟩
    | beta => exact ⟨.of_eq (hv.ofParameters hw ..), rfl⟩
    | normal => exact ⟨.of_eq (hv.ofParameters hw ..), rfl⟩
    | observe => exact hv.observe hw s
    | _ => exact ⟨.fault _, rfl⟩
  · have fault := congrArg (fun n => @Except.error (Fault Float) (Value Float) (.arity op (n + 3)))
      rest.length_eq
    cases op <;> exact ⟨.of_eq fault, rfl⟩

/-! ## Sessions -/

namespace Session

variable {σ : Type}

/-- answers that are twins, and one source -/
structure Twins (t u : Session Float σ) : Prop where
  answers : List.Forall₂ Answer.Twins t.answers u.answers
  source : t.source = u.source

/-- a session that starts with given values -/
def given (vs : List (Value Float)) (s : σ) : Session Float σ := ⟨vs.map .value, s⟩

variable {t u : Session Float σ}

theorem twins_given {vs ws : List (Value Float)} (h : List.Forall₂ Value.Twins vs ws) (s : σ) :
    (given vs s).Twins (given ws s) :=
  ⟨List.rel_map (fun _ _ twins => .value twins) h, rfl⟩

/-- places hold twins -/
theorem Twins.operand (h : t.Twins u) (k : Nat) :
    Option.Rel Value.Twins (t.operand? k) (u.operand? k) := by
  unfold operand?
  have answers := h.answers
  generalize t.answers = as at answers
  generalize u.answers = bs at answers
  induction answers generalizing k with
  | nil => exact .none
  | cons first _ ih =>
    cases k with
    | zero =>
      cases first with
      | value twins => exact .some twins
      | fault f => exact .none
      | unresolved => exact .none
    | succ k => exact ih k

theorem Twins.operands (h : t.Twins u) (ks : List Nat) :
    Option.Rel (List.Forall₂ Value.Twins) (ks.mapM t.operand?) (ks.mapM u.operand?) := by
  induction ks with
  | nil => exact .some .nil
  | cons k ks ih =>
    rw [List.mapM_cons, List.mapM_cons]
    have first := h.operand k
    generalize t.operand? k = v at first
    generalize u.operand? k = w at first
    generalize ks.mapM t.operand? = vs at ih
    generalize ks.mapM u.operand? = ws at ih
    cases first with
    | none => exact .none
    | some twins =>
      cases ih with
      | none => exact .none
      | some rest => exact .some (.cons twins rest)

variable [Source σ] (F : Cumulative)

/-- one call -/
theorem Twins.answer (h : t.Twins u) (c : Call) :
    (t.answer F c).1.Twins (u.answer F c).1 ∧ (t.answer F c).2 = (u.answer F c).2 := by
  cases c with
  | constant l => exact ⟨.refl _, h.source⟩
  | apply op ks =>
    unfold Session.answer application?
    dsimp only
    have operands := h.operands ks
    generalize ks.mapM t.operand? = vs at operands
    generalize ks.mapM u.operand? = ws at operands
    cases operands with
    | none => exact ⟨.unresolved, h.source⟩
    | @some vs ws operands =>
      show TwinResults (op.apply F vs t.source).1 (op.apply F ws u.source).1 ∧ _
      rw [h.source]
      exact op.twins_apply F operands u.source

theorem Twins.step (h : t.Twins u) (c : Call) : (t.step F c).Twins (u.step F c) where
  answers := List.rel_append h.answers (.cons (h.answer F c).1 .nil)
  source := (h.answer F c).2

/-- a list of calls -/
theorem Twins.run (calls : List Call) (h : t.Twins u) :
    (run F calls t).Twins (run F calls u) := by
  induction calls generalizing t u with
  | nil => exact h
  | cons c calls ih => exact ih (h.step F c)

end Session

/-! ## Summaries -/

namespace Value

/-- the outcome that is no number, if one is recorded -/
def nones (s : Pmf Double M) : List (Double × M) := s.entries.filter fun e => e.1.toFloat.isNaN

/-- the numbers among the outcomes, in order -/
def numbers (s : Pmf Double M) : List (Double × M) :=
  (sorted s).filter fun e => !e.1.toFloat.isNaN

/-- an outcome that is no number is recorded as a negative word -/
def noneFirst (s : Pmf Double M) : Bool :=
  s.values.any fun x => x.toFloat.isNaN && !decide (x.word < Double.signBit)

section

variable {s t : Pmf Double M}

theorem mem_nones {e : Double × M} :
    e ∈ nones s ↔ e ∈ s.entries ∧ e.1.toFloat.isNaN = true := List.mem_filter

theorem number_of_mem {e : Double × M} (h : e ∈ numbers s) : e.1.toFloat.isNaN = false :=
  (Bool.not_eq_true' _).mp (List.mem_filter.mp h).2

/-- only one entry is no number -/
theorem nones_unique {e f : Double × M} (he : e ∈ nones s) (hf : f ∈ nones s) : e = f := by
  obtain ⟨here, none⟩ := mem_nones.mp he
  obtain ⟨there, none'⟩ := mem_nones.mp hf
  exact List.inj_on_of_nodup_map s.nodup here there
    ((Double.key_eq_iff _ _).mpr (.inr ⟨none, none'⟩))

theorem ascending_nones (s : Pmf Double M) :
    (nones s).Pairwise fun e f => Outcome.rank e.1 < Outcome.rank f.1 := by
  have distinct : (nones s).Nodup := (List.Nodup.of_map _ s.nodup).filter _
  exact distinct.imp_of_mem fun he hf other => absurd (nones_unique he hf) other

theorem ascending_numbers (s : Pmf Double M) :
    (numbers s).Pairwise fun e f => Outcome.rank e.1 < Outcome.rank f.1 :=
  (ascending_sorted ranked_double s).filter _

theorem perm_nones_numbers (s : Pmf Double M) : (nones s ++ numbers s).Perm s.entries := by
  refine (((perm_sorted s).filter _).append_left _).trans ?_
  exact List.filter_append_perm (fun e : Double × M => e.1.toFloat.isNaN) s.entries

theorem noneFirst_iff : noneFirst s = true ↔ ∃ e ∈ nones s, ¬ e.1.word < Double.signBit := by
  simp only [noneFirst, Pmf.values, List.any_map, List.any_eq_true, mem_nones, Function.comp_apply,
    Bool.and_eq_true, Bool.not_eq_true', decide_eq_false_iff_not, and_assoc]

/-- what is no number stands before all numbers or behind them, by the sign of its word -/
theorem sorted_eq_append (s : Pmf Double M) :
    sorted s = if noneFirst s then nones s ++ numbers s else numbers s ++ nones s := by
  by_cases first : noneFirst s = true
  · obtain ⟨e, he, negative⟩ := noneFirst_iff.mp first
    rw [if_pos first]
    refine sorted_eq ranked_double (perm_nones_numbers s) ?_
    refine List.pairwise_append.mpr ⟨ascending_nones s, ascending_numbers s, fun f hf g hg => ?_⟩
    rw [nones_unique hf he]
    exact (Double.rank_of_isNaN (mem_nones.mp he).2 (number_of_mem hg)).2 negative
  · rw [if_neg first]
    refine sorted_eq ranked_double (List.perm_append_comm.trans (perm_nones_numbers s)) ?_
    refine List.pairwise_append.mpr ⟨ascending_numbers s, ascending_nones s, fun g hg f hf => ?_⟩
    exact (Double.rank_of_isNaN (mem_nones.mp hf).2 (number_of_mem hg)).1
      (by_contra fun negative => first (noneFirst_iff.mpr ⟨f, hf, negative⟩))

/-! ### Twins -/

theorem nones_of_twins (h : s.Twins t) : List.Forall₂ Pmf.SameEntry (nones s) (nones t) :=
  List.rel_filter (fun _ _ same =>
    iff_of_eq (congrArg (Float.isNaN · = true) (Pmf.sameKey_double.mp same.1))) h

/-- entries of numbers have nothing to differ in -/
theorem filter_number_eq {es fs : List (Double × M)} (h : List.Forall₂ Pmf.SameEntry es fs) :
    (es.filter fun e => !e.1.toFloat.isNaN) = fs.filter fun e => !e.1.toFloat.isNaN := by
  induction h with
  | nil => rfl
  | @cons e f es fs same _ ih =>
    have float := Pmf.sameKey_double.mp same.1
    cases none : e.1.toFloat.isNaN with
    | true =>
      rw [List.filter_cons_of_neg (by rw [none]; decide),
        List.filter_cons_of_neg (by rw [← float, none]; decide), ih]
    | false =>
      have one : e.1 = f.1 := ((Double.key_eq_iff _ _).mp same.1).resolve_right fun both =>
        Bool.false_ne_true (none.symm.trans both.1)
      rw [List.filter_cons_of_pos (by rw [none]; decide),
        List.filter_cons_of_pos (by rw [← float, none]; decide), ih, Prod.ext one same.2]

theorem numbers_of_twins (h : s.Twins t) : numbers s = numbers t := by
  have perm (s : Pmf Double M) : (numbers s).Perm (s.entries.filter fun e => !e.1.toFloat.isNaN) :=
    (perm_sorted s).filter _
  refine eq_of_ascending (ascending_numbers s) (ascending_numbers t) ((perm s).trans ?_)
  rw [filter_number_eq h]
  exact (perm t).symm

/-- a support with a number in front is none with anything else in front -/
theorem noneFirst_apart (first : noneFirst s = true) (last : ¬ noneFirst t = true)
    (some : numbers t ≠ []) :
    ¬ List.Forall₂ (fun e f : Double × M => Outcome.key e.1 = Outcome.key f.1)
      (sorted s) (sorted t) := by
  intro h
  rw [sorted_eq_append, if_pos first, sorted_eq_append, if_neg last] at h
  obtain ⟨e, he, -⟩ := noneFirst_iff.mp first
  obtain ⟨g, gs, hg⟩ := List.exists_cons_of_ne_nil (List.ne_nil_of_mem he)
  obtain ⟨f, fs, hf⟩ := List.exists_cons_of_ne_nil some
  have none : g.1.toFloat.isNaN = true := (mem_nones.mp (hg ▸ List.mem_cons_self)).2
  have number : f.1.toFloat.isNaN = false := number_of_mem (hf ▸ List.mem_cons_self)
  rw [hg, hf, List.cons_append, List.cons_append, List.forall₂_cons] at h
  rw [(Double.key_eq_iff_toFloat _ _).mp h.1, number] at none
  exact Bool.false_ne_true none

end

/-- twins have one summary, unless what is no number has to move past a number -/
theorem summary_eq_iff {s t : Pmf Double Float} (h : s.Twins t) :
    (Value.float s).summary = (Value.float t).summary ↔
      noneFirst s = noneFirst t ∨ numbers s = [] := by
  rw [summary_float, summary_float]
  constructor
  · intro same
    by_contra apart
    obtain ⟨moved, some⟩ := not_or.mp apart
    have keys := (forall₂_of_listing (fun x y same => (Double.key_eq_iff_toFloat x y).mpr
      (Json.Number.float.inj (Json.number.inj same))) same).imp fun _ _ both => both.1
    by_cases first : noneFirst s = true
    · exact noneFirst_apart first (fun last => moved (first.trans last.symm))
        (numbers_of_twins h ▸ some) keys
    · have other : noneFirst t = true := by_contra fun last =>
        moved (Bool.eq_iff_iff.mpr (iff_of_false first last))
      exact noneFirst_apart other first some (keys.flip.imp fun _ _ => Eq.symm)
  · intro place
    have nulls : (nones s).map (entryJson fun x => .number (.float x.toFloat)) =
        (nones t).map (entryJson fun x => .number (.float x.toFloat)) :=
      map_eq_of_forall₂ (nones_of_twins h) fun e f same => by
        unfold entryJson
        dsimp only
        rw [Pmf.sameKey_double.mp same.1, same.2]
    unfold listing
    rw [sorted_eq_append s, sorted_eq_append t, ← numbers_of_twins h]
    rcases place with same | none
    · rw [same]
      split <;> rw [List.map_append, List.map_append, nulls]
    · rw [none]
      split <;> split <;> simp only [List.append_nil, List.nil_append, nulls]

/-- one of two mass functions lists what is no number before its numbers, the other one behind -/
def NoneMoves (v w : Value Float) : Prop :=
  ∃ s t, v = .float s ∧ w = .float t ∧ noneFirst s ≠ noneFirst t ∧ numbers s ≠ []

theorem Twins.summary_eq_iff {v w : Value Float} (h : v.Twins w) :
    v.summary = w.summary ↔ ¬ NoneMoves v w := by
  cases h with
  | @float s t h =>
    rw [Value.summary_eq_iff h, ← not_iff_not, not_not, not_or]
    constructor
    · rintro ⟨moved, some⟩
      exact ⟨s, t, rfl, rfl, moved, some⟩
    · rintro ⟨_, _, ⟨⟩, ⟨⟩, moved, some⟩
      exact ⟨moved, some⟩
  | _ => exact iff_of_true rfl (by rintro ⟨_, _, ⟨⟩, _⟩)

end Value

/-! ## All calls -/

section

variable {σ : Type} [Source σ]

open Value in
/-- **Words that are no number.**  Calls on values that differ in such words alone answer with the
same fault, or with values of one kind that again differ in such words alone, and leave one source.
These have one text.  Both of their summaries list the same numbers in the same order, and what is
no number in front of them if its word is negative, else behind them; the summaries are the same,
and their texts are, unless it is in front on one side and behind on the other. -/
theorem payloads_unobserved (F : Cumulative) (calls : List Call) (start : σ)
    {vs ws : List (Value Float)} (inputs : List.Forall₂ Value.Twins vs ws) :
    (List.Forall₂ Answer.Twins (Session.run F calls (.given vs start)).answers
        (Session.run F calls (.given ws start)).answers ∧
      (Session.run F calls (.given vs start)).source =
        (Session.run F calls (.given ws start)).source) ∧
    (∀ v w : Value Float, v.Twins w → v.kind = w.kind ∧ v.text = w.text ∧
      (v.summary = w.summary ↔ ¬ NoneMoves v w) ∧
      (¬ NoneMoves v w → v.summaryText = w.summaryText)) ∧
    (∀ s t : Pmf Double Float, (Value.float s).Twins (.float t) →
      List.Forall₂ Pmf.SameEntry (nones s) (nones t) ∧
      (Value.float s).summary = listing "float" (fun x => .number (.float x.toFloat))
        (if noneFirst s then nones s ++ numbers s else numbers s ++ nones s) ∧
      (Value.float t).summary = listing "float" (fun x => .number (.float x.toFloat))
        (if noneFirst t then nones t ++ numbers s else numbers s ++ nones t)) := by
  refine ⟨?_, fun v w twins => ⟨twins.kind, twins.text, twins.summary_eq_iff, fun still => ?_⟩, ?_⟩
  · have twins := Session.Twins.run F calls (Session.twins_given inputs start)
    exact ⟨twins.answers, twins.source⟩
  · exact congrArg Json.pretty (twins.summary_eq_iff.mpr still)
  · rintro s t (_ | _ | h)
    rw [summary_float, summary_float, numbers_of_twins h, sorted_eq_append t, sorted_eq_append s,
      numbers_of_twins h]
    exact ⟨nones_of_twins h, rfl, rfl⟩

/-- one, or what is no number by this word -/
def noneOrOne (word : UInt64) : Pmf Double Float :=
  (Pmf.empty.add ⟨word⟩ 0.5).add (.ofFloat 1.0) 0.5

theorem twins_noneOrOne :
    (Value.float (noneOrOne 0x7ff8000000000000)).Twins (.float (noneOrOne 0xfff8000000000000)) := by
  refine .float ?_
  have left : (noneOrOne 0x7ff8000000000000).entries =
      [(⟨0x7ff8000000000000⟩, 0.5), (.ofFloat 1.0, 0.5)] := by decide +kernel
  have right : (noneOrOne 0xfff8000000000000).entries =
      [(⟨0xfff8000000000000⟩, 0.5), (.ofFloat 1.0, 0.5)] := by decide +kernel
  unfold Pmf.Twins
  rw [left, right]
  exact .cons ⟨(Double.key_eq_iff _ _).mpr (.inr ⟨by decide, by decide⟩), rfl⟩
    (.cons ⟨rfl, rfl⟩ .nil)

/-- the double of it, and whether that is one outcome with it -/
def doubleAndCompare : List Call := [.apply .add [0, 0], .apply .equal [1, 0]]

theorem payloads_unobserved_noneOrOne :
    List.Forall₂ Value.Twins [.float (noneOrOne 0x7ff8000000000000)]
      [.float (noneOrOne 0xfff8000000000000)] ∧
    ∃ s t : Pmf Double Float, ∃ b : Pmf Bool Float,
      (Session.run Law.cumulative doubleAndCompare
        (.given [.float (noneOrOne 0x7ff8000000000000)] (⟨fun _ => 0.0, 0⟩ : Sequence))).values =
          [.float (noneOrOne 0x7ff8000000000000), .float s, .bool b] ∧
      (Session.run Law.cumulative doubleAndCompare
        (.given [.float (noneOrOne 0xfff8000000000000)] (⟨fun _ => 0.0, 0⟩ : Sequence))).values =
          [.float (noneOrOne 0xfff8000000000000), .float t, .bool b] ∧
      (Value.float s).text = (Value.float t).text := by
  have inputs : List.Forall₂ Value.Twins [.float (noneOrOne 0x7ff8000000000000)]
      [.float (noneOrOne 0xfff8000000000000)] := .cons twins_noneOrOne .nil
  obtain ⟨⟨answers, -⟩, texts, -⟩ :=
    payloads_unobserved Law.cumulative doubleAndCompare (⟨fun _ => 0.0, 0⟩ : Sequence) inputs
  obtain _ | ⟨-, _ | ⟨⟨twins⟩, _ | ⟨⟨⟨⟩⟩, -⟩⟩⟩ := answers
  exact ⟨inputs, _, _, _, rfl, rfl, (texts _ _ twins).2.1⟩

/-- an observation that certainly passes gives both back, with two summaries -/
theorem payloads_summarised :
    (Value.float (noneOrOne 0x7ff8000000000000)).Twins (.float (noneOrOne 0xfff8000000000000)) ∧
    (Value.float (noneOrOne 0x7ff8000000000000)).same
      (.float (noneOrOne 0xfff8000000000000)) = true ∧
    (Session.run Law.cumulative [.constant (.bool true), .apply .observe [1, 0]]
      (.given [.float (noneOrOne 0x7ff8000000000000)] (⟨fun _ => 0.0, 0⟩ : Sequence))).operand? 2 =
        some (.float (noneOrOne 0x7ff8000000000000)) ∧
    (Session.run Law.cumulative [.constant (.bool true), .apply .observe [1, 0]]
      (.given [.float (noneOrOne 0xfff8000000000000)] (⟨fun _ => 0.0, 0⟩ : Sequence))).operand? 2 =
        some (.float (noneOrOne 0xfff8000000000000)) ∧
    (Value.float (noneOrOne 0x7ff8000000000000)).summaryText ≠
      (Value.float (noneOrOne 0xfff8000000000000)).summaryText := by
  refine ⟨twins_noneOrOne, by decide +kernel, rfl, rfl, ?_⟩
  have behind : Value.sorted (noneOrOne 0x7ff8000000000000) =
      [(.ofFloat 1.0, 0.5), (⟨0x7ff8000000000000⟩, 0.5)] :=
    Value.sorted_eq ranked_double (by decide +kernel) (by decide +kernel)
  have front : Value.sorted (noneOrOne 0xfff8000000000000) =
      [(⟨0xfff8000000000000⟩, 0.5), (.ofFloat 1.0, 0.5)] :=
    Value.sorted_eq ranked_double (by decide +kernel) (by decide +kernel)
  unfold Value.summaryText
  rw [Value.summary_float, Value.summary_float, behind, front]
  decide +kernel

end

end Chance
