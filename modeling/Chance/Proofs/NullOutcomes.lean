import Chance.Affine
import Chance.Pmf.Selection
import Chance.Proofs.DoubleMasses
import Chance.Proofs.Kinds
import Chance.Proofs.NullMasses
import Chance.Proofs.Pushforward

/-!
# Outcomes without mass

Mass functions that are the same but for recorded outcomes of mass zero, and what is made of them.
Combinations, selections and comparisons cannot tell them apart, with two exceptions: arithmetic on
integers fails for a pair of outcomes whatever its mass, and a continuous sample is asked for its
cumulative probability also where an outcome has no mass.

* `Alike`                 the same outcomes with the same masses in the same order, but for those of
                          mass zero;
* `EqualMasses`           equal masses at every outcome;
* `Alike.combine`, `Alike.arith`, `Alike.below`   what is enumerated;
* `Alike.single`, `Alike.pick`   what is read off.
-/

namespace Chance
namespace Pmf

variable {α β γ : Type} [Outcome α] [Outcome β] [Outcome γ]

/-- the entries whose mass is not zero -/
def weighed (s : Pmf α Float) : List (α × Float) := s.entries.filter fun e => Mass.nonzero e.2

/-- mass functions with finite masses that are the same without their entries of mass zero -/
structure Alike (s t : Pmf α Float) : Prop where
  finite : ∀ e ∈ s.entries, e.2.isFinite = true
  finite' : ∀ f ∈ t.entries, f.2.isFinite = true
  weighed : List.Forall₂ (fun e f => Outcome.key e.1 = Outcome.key f.1 ∧ e.2 = f.2) s.weighed
    t.weighed

theorem Alike.refl {s : Pmf α Float} (h : ∀ e ∈ s.entries, e.2.isFinite = true) : s.Alike s :=
  ⟨h, h, List.forall₂_same.mpr fun _ _ => ⟨rfl, rfl⟩⟩

/-- with the whole mass on one outcome it is like the certain one -/
theorem alike_certain {s : Pmf α Float} {v : α} (h : ∀ e ∈ s.entries, e.2.isFinite = true)
    (whole : s.weighed = [(v, 1.0)]) : s.Alike (certain v) where
  finite := h
  finite' := by
    rw [entries_certain_one]
    exact List.forall_mem_singleton.mpr isFinite_one
  weighed := by
    have certain : (certain v).weighed = [(v, (1.0 : Float))] := by
      unfold Pmf.weighed
      rw [entries_certain_one]
      exact List.filter_cons_of_pos Mass.Unital.nonzero_one
    rw [whole, certain]
    exact .cons ⟨rfl, rfl⟩ .nil

/-- equal masses at every outcome, an outcome that is not recorded having mass zero -/
def EqualMasses (s t : Pmf α Float) : Prop := ∀ v, SameMass (s.get v) (t.get v)

/-- the same outcome -/
def SameKey (v w : α) : Prop := Outcome.key v = Outcome.key w

theorem same_of_sameKey {v w : α} (h : SameKey v w) (u : α) :
    Outcome.same v u = Outcome.same w u := congrArg (fun k => decide (k = Outcome.key u)) h

theorem EqualMasses.ofList {l l' : List (α × Float)} (h : Matches SameKey l l') :
    EqualMasses (ofList l) (ofList l') := by
  intro v
  rw [get_ofList, get_ofList]
  exact h.foldl_add (fun _ _ same => same_of_sameKey same v) (.refl _)

/-- an outcome has one entry at most, so its mass is the sum of its entries -/
theorem get_sum (s : Pmf α Float) (v : α) : SameMass (s.get v)
    ((s.entries.filter fun e => Outcome.same e.1 v).foldl (fun t e => Mass.add t e.2) 0.0) := by
  obtain ⟨es, distinct⟩ := s
  show SameMass (lookup v es) _
  dsimp only
  induction es with
  | nil => exact .refl _
  | cons e es ih =>
    rw [List.map_cons, List.nodup_cons] at distinct
    by_cases same : Outcome.key e.1 = Outcome.key v
    · have found : lookup v (e :: es) = e.2 := if_pos same
      have others : (es.filter fun e => Outcome.same e.1 v) = [] := by
        refine List.filter_eq_nil_iff.mpr fun f hf again => distinct.1 ?_
        rw [same, ← Outcome.same_iff.mp again]
        exact List.mem_map_of_mem hf
      rw [found, List.filter_cons_of_pos (by exact Outcome.same_iff.mpr same), others]
      exact (add_null_left isNull_zero).symm
    · have passed : lookup v (e :: es) = lookup v es := if_neg same
      have dropped : ((e :: es).filter fun e => Outcome.same e.1 v) =
          es.filter fun e => Outcome.same e.1 v :=
        List.filter_cons_of_neg fun again => same (Outcome.same_iff.mp again)
      rw [passed, dropped]
      exact ih distinct.2

/-- where a key has one value only, nothing but the null entries differs -/
theorem Alike.weighed_eq {s t : Pmf α Float} (h : Alike s t)
    (one : ∀ v w : α, SameKey v w → v = w) : s.weighed = t.weighed :=
  List.forall₂_eq_eq_eq ▸ h.weighed.imp fun _ _ related =>
    Prod.ext (one _ _ related.1) related.2

theorem eq_of_sameKey_bool (v w : Bool) (h : SameKey v w) : v = w := by
  have same := Outcome.same_iff.mpr h
  rw [Outcome.same_bool] at same
  exact beq_iff_eq.mp same

theorem eq_of_sameKey_int64 (v w : Int64) (h : SameKey v w) : v = w := by
  have same := Outcome.same_iff.mpr h
  rw [Outcome.same_int64] at same
  exact beq_iff_eq.mp same

theorem Alike.matches {s t : Pmf α Float} (h : Alike s t) : Matches SameKey s.entries t.entries :=
  .of_filter h.weighed

theorem Alike.equalMasses {s t : Pmf α Float} (h : Alike s t) : EqualMasses s t := fun v =>
  (get_sum s v).trans ((h.matches.foldl_add (fun _ _ same => same_of_sameKey same v)
    (.refl _)).trans (get_sum t v).symm)

/-! ## Combinations -/

section

variable {l l' : Pmf α Float} {r r' : Pmf β Float}

theorem Alike.pairs (hl : Alike l l') (hr : Alike r r') :
    Matches (fun p q => SameKey p.1 q.1 ∧ SameKey p.2 q.2) (l.pairs r) (l'.pairs r') :=
  matches_pairs hl.matches hr.matches hl.finite hl.finite' hr.finite hr.finite'

theorem Alike.combine (hl : Alike l l') (hr : Alike r r') {op : α → β → γ}
    (respects : ∀ a a' b b', SameKey a a' → SameKey b b' → SameKey (op a b) (op a' b')) :
    EqualMasses (l.combine r op) (l'.combine r' op) :=
  .ofList ((hl.pairs hr).map fun p q same => respects p.1 q.1 p.2 q.2 same.1 same.2)

end

/-! ## Negation -/

theorem EqualMasses.not {s t : Pmf Bool Float} (h : EqualMasses s t) : EqualMasses s.not t.not := by
  intro v
  rw [get_not, get_not]
  exact (SameMass.refl _).add (h !v)

/-! ## What is read off -/

theorem Alike.single {s t : Pmf Double Float} (h : Alike s t) :
    s.single.map Double.toFloat = t.single.map Double.toFloat := by
  have related := h.weighed
  unfold Pmf.single
  change List.Forall₂ _ (s.entries.filter _) (t.entries.filter _) at related
  generalize s.entries.filter (fun e => Mass.nonzero e.2) = es at *
  generalize t.entries.filter (fun e => Mass.nonzero e.2) = fs at *
  cases related with
  | nil => rfl
  | cons first rest => cases rest with
    | nil => exact congrArg some ((Double.key_eq_iff_toFloat _ _).mp first.1)
    | cons _ _ => rfl

omit [Outcome α] in
/-- entries of mass zero are passed over -/
theorem pickFrom_weighed (u t : Float) (es : List (α × Float)) :
    pickFrom u t es = pickFrom u t (es.filter fun e => Mass.nonzero e.2) := by
  induction es generalizing t with
  | nil => rfl
  | cons e es ih =>
    cases weighed : Mass.nonzero e.2 with
    | false =>
      rw [List.filter_cons_of_neg (by rw [weighed]; decide), pickFrom,
        if_pos (nonpositive_of_isNull weighed)]
      exact ih t
    | true =>
      rw [List.filter_cons_of_pos (p := fun e : α × Float => Mass.nonzero e.2) weighed, pickFrom,
        pickFrom, ih, ih]

theorem Alike.pick {s t : Pmf Bool Float} (h : Alike s t) (u : Float) : s.pick u = t.pick u := by
  unfold Pmf.pick
  rw [pickFrom_weighed, pickFrom_weighed u _ t.entries]
  exact congrArg (pickFrom u Mass.zero) (h.weighed_eq eq_of_sameKey_bool)

/-! ## Arithmetic -/

/-- some pair of recorded integers has no result, and one of the two has no mass -/
def NullPairFails (op : Arith) (l r : Pmf Int64 Float) : Prop :=
  ∃ e ∈ l.entries, ∃ f ∈ r.entries, (IsNull e.2 ∨ IsNull f.2) ∧
    ∃ why, op.checked e.1 f.1 = .error why

theorem arith_fails {op : Arith} {l r : Pmf Int64 Float} {e f : Int64 × Float} {why : ArithFault}
    (he : e ∈ l.entries) (hf : f ∈ r.entries) (fails : op.checked e.1 f.1 = .error why) :
    ∃ why, l.arith op r = .error why :=
  exists_tryCombine_iff.mpr ⟨(e.1, f.1),
    List.pair_mem_product.mpr ⟨List.mem_map_of_mem he, List.mem_map_of_mem hf⟩, why, fails⟩

/-- the result of a pair, and the first operand where there is none -/
def resultOf (op : Arith) (a b : Int64) : Int64 := (op.checked a b).toOption.getD a

/-- where no pair fails, neither one with mass nor one without, the results are combined -/
theorem arith_of_defined {op : Arith} {l r : Pmf Int64 Float} (defined : ¬ NullPairFails op l r)
    (defined' : ¬ ∃ e ∈ l.weighed, ∃ f ∈ r.weighed, ∃ why, op.checked e.1 f.1 = .error why) :
    l.arith op r = .ok (l.combine r (resultOf op)) := by
  refine tryCombine_of_total fun p hp => ?_
  obtain ⟨ha, hb⟩ := List.pair_mem_product.mp hp
  obtain ⟨e, he, first⟩ := List.mem_map.mp ha
  obtain ⟨f, hf, second⟩ := List.mem_map.mp hb
  show op.checked p.1 p.2 = .ok (resultOf op p.1 p.2)
  unfold resultOf
  cases result : op.checked p.1 p.2 with
  | ok n => rfl
  | error why =>
    rw [← first, ← second] at result
    by_cases null : IsNull e.2 ∨ IsNull f.2
    · exact absurd ⟨e, he, f, hf, null, why, result⟩ defined
    · rw [not_or] at null
      have weighed {g : Int64 × Float} {s : Pmf Int64 Float} (hg : g ∈ s.entries)
          (some : ¬ IsNull g.2) : g ∈ s.weighed :=
        List.mem_filter.mpr ⟨hg, (Bool.not_eq_false _).mp some⟩
      exact absurd ⟨e, weighed he null.1, f, weighed hf null.2, why, result⟩ defined'

theorem Alike.arith {l l' r r' : Pmf Int64 Float} (hl : Alike l l') (hr : Alike r r') {op : Arith}
    (defined : ¬ NullPairFails op l r) (defined' : ¬ NullPairFails op l' r') :
    (∃ s t, l.arith op r = .ok s ∧ l'.arith op r' = .ok t ∧ EqualMasses s t) ∨
      ∃ f g, l.arith op r = .error f ∧ l'.arith op r' = .error g := by
  have left := hl.weighed_eq eq_of_sameKey_int64
  have right := hr.weighed_eq eq_of_sameKey_int64
  by_cases fails : ∃ e ∈ l.weighed, ∃ f ∈ r.weighed, ∃ why, op.checked e.1 f.1 = .error why
  · have fails' := fails
    rw [left, right] at fails'
    have fault {s t : Pmf Int64 Float}
        (h : ∃ e ∈ s.weighed, ∃ f ∈ t.weighed, ∃ why, op.checked e.1 f.1 = .error why) :
        ∃ why, s.arith op t = .error why := by
      obtain ⟨e, he, f, hf, why, failed⟩ := h
      exact arith_fails (List.mem_of_mem_filter he) (List.mem_of_mem_filter hf) failed
    obtain ⟨f, hf⟩ := fault fails
    obtain ⟨g, hg⟩ := fault fails'
    exact .inr ⟨f, g, hf, hg⟩
  · have never := fails
    rw [left, right] at never
    refine .inl ⟨_, _, arith_of_defined defined fails, arith_of_defined defined' never, ?_⟩
    refine hl.combine hr fun a a' b b' ha hb => ?_
    rw [eq_of_sameKey_int64 a a' ha, eq_of_sameKey_int64 b b' hb]
    rfl

/-! ## Doubles -/

theorem sameKey_double {x y : Double} : SameKey x y ↔ x.toFloat = y.toFloat :=
  Double.key_eq_iff_toFloat x y

theorem Alike.arith_double {l l' r r' : Pmf Double Float} (hl : Alike l l') (hr : Alike r r')
    (op : Arith) : ∃ s t, l.arith op r = .ok s ∧ l'.arith op r' = .ok t ∧ EqualMasses s t := by
  refine ⟨_, _, Pmf.arith_double op l r, Pmf.arith_double op l' r', ?_⟩
  refine hl.combine hr fun a a' b b' ha hb => sameKey_double.mpr ?_
  rw [Double.toFloat_lift, Double.toFloat_lift, sameKey_double.mp ha, sameKey_double.mp hb]

/-! ## Comparisons -/

theorem Alike.equal {l l' r r' : Pmf α Float} (hl : Alike l l') (hr : Alike r r') :
    EqualMasses (l.equal r) (l'.equal r') := by
  refine hl.combine hr fun a a' b b' ha hb => ?_
  have same : Outcome.same a b = Outcome.same a' b' := by
    unfold Outcome.same
    rw [show Outcome.key a = Outcome.key a' from ha, show Outcome.key b = Outcome.key b' from hb]
  exact congrArg Outcome.key same

theorem less_int64 (a a' b b' : Int64) (ha : SameKey a a') (hb : SameKey b b') :
    Number.less a b = Number.less a' b' := by
  rw [eq_of_sameKey_int64 a a' ha, eq_of_sameKey_int64 b b' hb]

theorem less_double (a a' b b' : Double) (ha : SameKey a a') (hb : SameKey b b') :
    Number.less a b = Number.less a' b' := by
  show decide (a.toFloat < b.toFloat) = decide (a'.toFloat < b'.toFloat)
  rw [sameKey_double.mp ha, sameKey_double.mp hb]

section

variable {ν : Type} [Number ν] {l l' r r' : Pmf ν Float}

theorem Alike.lessThan (hl : Alike l l') (hr : Alike r r')
    (less : ∀ a a' b b' : ν, SameKey a a' → SameKey b b' → Number.less a b = Number.less a' b') :
    EqualMasses (l.lessThan r) (l'.lessThan r') :=
  hl.combine hr fun a a' b b' ha hb => congrArg Outcome.key (less a a' b b' ha hb)

theorem Alike.greaterThan (hl : Alike l l') (hr : Alike r r')
    (less : ∀ a a' b b' : ν, SameKey a a' → SameKey b b' → Number.less a b = Number.less a' b') :
    EqualMasses (l.greaterThan r) (l'.greaterThan r') :=
  hl.combine hr fun a a' b b' ha hb => congrArg Outcome.key (less b b' a a' hb ha)

end

/-! ## Comparisons with continuous samples -/

section

variable {F : Cumulative} {x : Affine} {es fs : List (Double × Float)} {s t : Pmf Double Float}

/-- the cumulative probability of a continuous sample is a finite number at each outcome of mass
zero -/
def NullsAsked (F : Cumulative) (x : Affine) (es : List (Double × Float)) : Prop :=
  ∀ e ∈ es, IsNull e.2 → ∃ p, x.cumulative? F e.1.toFloat = some p ∧ p.isFinite = true

/-- then its share has no mass -/
theorem belowEntry_null {e : Double × Float} {p : Float} (null : IsNull e.2)
    (h : x.cumulative? F e.1.toFloat = some p) (finite : p.isFinite = true) :
    ∃ share, belowEntry F x e = .ok share ∧ ∀ f ∈ share, IsNull f.2 := by
  have onto {q : Float} (hq : q.isFinite = true) : (0.0 + q).isFinite = true :=
    (add_null_left isNull_zero).isFinite hq
  refine ⟨_, belowEntry_of_some h,
    List.forall_mem_cons.mpr ⟨?_, List.forall_mem_singleton.mpr ?_⟩⟩
  · exact mul_null_left null (onto finite)
  · exact mul_null_left null (onto (isFinite_complement finite))

/-- the shares of entries that match, or a fault on both sides -/
theorem mapM_belowEntry (h : Matches SameKey es fs) (asked : NullsAsked F x es)
    (asked' : NullsAsked F x fs) :
    (∃ gs hs, es.mapM (belowEntry F x) = .ok gs ∧ fs.mapM (belowEntry F x) = .ok hs ∧
        Matches SameKey gs.flatten hs.flatten) ∨
      ∃ a b, es.mapM (belowEntry F x) = .error a ∧ fs.mapM (belowEntry F x) = .error b := by
  induction h with
  | nil => exact .inl ⟨[], [], rfl, rfl, .nil⟩
  | @left e es fs null _ ih =>
    obtain ⟨here, later⟩ := List.forall_mem_cons.mp asked
    obtain ⟨p, hp, finite⟩ := here null
    obtain ⟨share, hshare, none⟩ := belowEntry_null null hp finite
    rw [mapM_cons_ok hshare]
    rcases ih later asked' with ⟨gs, hs, hgs, hhs, rest⟩ | ⟨a, b, ha, hb⟩
    · rw [hgs]
      exact .inl ⟨share :: gs, hs, rfl, hhs, rest.append_null_left none⟩
    · rw [ha]
      exact .inr ⟨a, b, rfl, hb⟩
  | @right f es fs null _ ih =>
    obtain ⟨here, later⟩ := List.forall_mem_cons.mp asked'
    obtain ⟨p, hp, finite⟩ := here null
    obtain ⟨share, hshare, none⟩ := belowEntry_null null hp finite
    rw [mapM_cons_ok hshare]
    rcases ih asked later with ⟨gs, hs, hgs, hhs, rest⟩ | ⟨a, b, ha, hb⟩
    · rw [hhs]
      exact .inl ⟨gs, share :: hs, hgs, rfl, rest.append_null_right none⟩
    · rw [hb]
      exact .inr ⟨a, b, ha, rfl⟩
  | @both e f es fs related mass _ ih =>
    have same : belowEntry F x e = belowEntry F x f := by
      unfold belowEntry
      rw [sameKey_double.mp related, mass]
    cases here : belowEntry F x f with
    | error a =>
      exact .inr ⟨a, a, mapM_cons_error (same.trans here) es, mapM_cons_error here fs⟩
    | ok share =>
      rw [mapM_cons_ok (same.trans here), mapM_cons_ok here]
      rcases ih (List.forall_mem_cons.mp asked).2 (List.forall_mem_cons.mp asked').2 with
        ⟨gs, hs, hgs, hhs, rest⟩ | ⟨a, b, ha, hb⟩
      · rw [hgs, hhs]
        have first : Matches SameKey share share := .refl (fun v => Eq.refl (Outcome.key v)) share
        exact .inl ⟨share :: gs, share :: hs, rfl, rfl, first.append rest⟩
      · rw [ha, hb]
        exact .inr ⟨a, b, rfl, rfl⟩

theorem Alike.below (h : Alike s t) (asked : NullsAsked F x s.entries)
    (asked' : NullsAsked F x t.entries) :
    (∃ p q, Pmf.below F x s = .ok p ∧ Pmf.below F x t = .ok q ∧ EqualMasses p q) ∨
      ∃ a b, Pmf.below F x s = .error a ∧ Pmf.below F x t = .error b := by
  unfold Pmf.below
  rcases mapM_belowEntry h.matches asked asked' with ⟨gs, hs, hgs, hhs, rest⟩ | ⟨a, b, ha, hb⟩
  · rw [hgs, hhs]
    exact .inl ⟨_, _, rfl, rfl, .ofList rest⟩
  · rw [ha, hb]
    exact .inr ⟨a, b, rfl, rfl⟩

theorem Alike.above (h : Alike s t) (asked : NullsAsked F x s.entries)
    (asked' : NullsAsked F x t.entries) :
    (∃ p q, Pmf.above F x s = .ok p ∧ Pmf.above F x t = .ok q ∧ EqualMasses p q) ∨
      ∃ a b, Pmf.above F x s = .error a ∧ Pmf.above F x t = .error b := by
  unfold Pmf.above
  rcases h.below asked asked' with ⟨p, q, hp, hq, same⟩ | ⟨a, b, ha, hb⟩
  · rw [hp, hq]
    exact .inl ⟨p.not, q.not, rfl, rfl, same.not⟩
  · rw [ha, hb]
    exact .inr ⟨a, b, rfl, rfl⟩

end

end Pmf
end Chance
