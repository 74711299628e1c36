import Chance.Proofs.Building
import Chance.Proofs.Extents
import Chance.Proofs.FloatOutcomes
import Chance.Proofs.Lone

/-!
# Entries without mass

Two lists of entries match if they are the same but for entries whose mass is zero.  Sums of masses
do not see such entries, up to the sign of a sum that is zero.

* `IsNull`                a mass that is zero, of either sign;
* `SameMass`              the same mass, the two zeros taken for one;
* `add_null_left`, `SameMass.add`   sums of such masses;
* `Matches`               lists of entries that differ in null entries only;
* `Matches.foldl_add`     sums over matching lists;
* `matches_pairs`         the pairs of matching lists match.
-/

namespace Chance

open Float.Model (UnpackedFloat)
open Float.Model.Format (binary64)
open Float.Model.UnpackedFloat

/-! ## Zeros -/

/-- a mass that is zero, of either sign -/
def IsNull (p : Float) : Prop := Mass.nonzero p = false

theorem isNull_iff {p : Float} : IsNull p ↔ ∃ s, p.toModel.unpack = .zero s := by
  have compared : IsNull p ↔ (p.toModel.unpack.compare (.zero .positive) == some .eq) = true := by
    unfold IsNull Mass.nonzero
    rw [Bool.not_eq_false']
    exact Iff.rfl
  rw [compared]
  generalize p.toModel.unpack = u
  cases u with
  | zero s => exact iff_of_true rfl ⟨s, rfl⟩
  | infinity s => cases s <;> exact iff_of_false (by decide) nofun
  | finite s m e pos => cases s <;> exact iff_of_false (by intro h; cases h) nofun
  | notANumber => exact iff_of_false (by decide) nofun

theorem isNull_zero : IsNull 0.0 := by
  unfold IsNull
  decide

theorem nonpositive_of_isNull {p : Float} (h : IsNull p) : Mass.nonpositive p = true := by
  obtain ⟨s, hs⟩ := isNull_iff.mp h
  have compared : (p.toModel.unpack.compare (.zero .positive)).any (·.isLE) = true := by
    rw [hs]
    rfl
  exact decide_eq_true (decide_eq_true compared : p ≤ 0.0)

/-- equal masses, the two zeros taken for one -/
def SameMass (p q : Float) : Prop := p = q ∨ IsNull p ∧ IsNull q

section

variable {p q p' q' : Float}

theorem isNull_of_pack {s : Sign} {u : UnpackedFloat} (h : u = .zero s) :
    IsNull (.ofModel (.pack u)) := by
  subst h
  exact isNull_iff.mpr ⟨s, by cases s <;> rfl⟩

/-- what keeps zeros and changes nothing else gives the mass it was given -/
theorem sameMass_pack {f : UnpackedFloat → UnpackedFloat} (zeros : ∀ t, ∃ s, f (.zero t) = .zero s)
    (others : ∀ u, (∀ t, u ≠ .zero t) → f u = u) (q : Float) :
    SameMass (.ofModel (.pack (f q.toModel.unpack))) q := by
  by_cases hq : IsNull q
  · obtain ⟨t, ht⟩ := isNull_iff.mp hq
    obtain ⟨s, hs⟩ := zeros t
    exact .inr ⟨isNull_of_pack (ht ▸ hs), hq⟩
  · rw [others _ fun t ht => hq (isNull_iff.mpr ⟨t, ht⟩)]
    exact .inl (ofModel_pack_unpack q)

theorem add_null_left (h : IsNull p) : SameMass (p + q) q := by
  obtain ⟨s, hp⟩ := isNull_iff.mp h
  have sum : p + q = .ofModel (.pack (UnpackedFloat.add binary64 (.zero s) q.toModel.unpack)) := by
    rw [← hp]
    rfl
  rw [sum]
  refine sameMass_pack (fun t => ?_) (fun u other => ?_) q
  · cases s <;> cases t <;> exact ⟨_, rfl⟩
  · cases u with
    | zero t => exact absurd rfl (other t)
    | _ => rfl

theorem add_null_right (h : IsNull q) : SameMass (p + q) p := by
  obtain ⟨s, hq⟩ := isNull_iff.mp h
  have sum : p + q = .ofModel (.pack (UnpackedFloat.add binary64 p.toModel.unpack (.zero s))) := by
    rw [← hq]
    rfl
  rw [sum]
  refine sameMass_pack (f := fun u => UnpackedFloat.add binary64 u (.zero s)) (fun t => ?_)
    (fun u other => ?_) p
  · cases s <;> cases t <;> exact ⟨_, rfl⟩
  · cases u with
    | zero t => exact absurd rfl (other t)
    | _ => rfl

theorem mul_null_left (h : IsNull p) (hq : q.isFinite = true) : IsNull (p * q) := by
  obtain ⟨s, hp⟩ := isNull_iff.mp h
  change q.toModel.unpack.isFinite = true at hq
  have product :
      p * q = .ofModel (.pack (UnpackedFloat.mul binary64 (.zero s) q.toModel.unpack)) := by
    rw [← hp]
    rfl
  rw [product]
  generalize q.toModel.unpack = u at *
  cases u with
  | zero t => exact isNull_of_pack rfl
  | finite t m e pos => exact isNull_of_pack rfl
  | _ => cases hq

theorem mul_null_right (hp : p.isFinite = true) (h : IsNull q) : IsNull (p * q) := by
  obtain ⟨s, hq⟩ := isNull_iff.mp h
  change p.toModel.unpack.isFinite = true at hp
  have product :
      p * q = .ofModel (.pack (UnpackedFloat.mul binary64 p.toModel.unpack (.zero s))) := by
    rw [← hq]
    rfl
  rw [product]
  generalize p.toModel.unpack = u at *
  cases u with
  | zero t => exact isNull_of_pack rfl
  | finite t m e pos => exact isNull_of_pack rfl
  | _ => cases hp

namespace SameMass

theorem refl (p : Float) : SameMass p p := .inl rfl

theorem symm (h : SameMass p q) : SameMass q p := by
  rcases h with rfl | ⟨hp, hq⟩
  · exact .inl rfl
  · exact .inr ⟨hq, hp⟩

theorem trans {r : Float} (h : SameMass p q) (h' : SameMass q r) : SameMass p r := by
  rcases h with rfl | ⟨hp, hq⟩
  · exact h'
  · rcases h' with rfl | ⟨-, hr⟩
    · exact .inr ⟨hp, hq⟩
    · exact .inr ⟨hp, hr⟩

theorem isFinite (h : SameMass p q) (hq : q.isFinite = true) : p.isFinite = true := by
  rcases h with rfl | ⟨hp, -⟩
  · exact hq
  · obtain ⟨s, unpacked⟩ := isNull_iff.mp hp
    show p.toModel.unpack.isFinite = true
    rw [unpacked]
    rfl

/-- sums of the same masses are the same -/
theorem add (h : SameMass p p') (h' : SameMass q q') : SameMass (p + q) (p' + q') := by
  have left : SameMass (p + q) (p' + q) := by
    rcases h with rfl | ⟨hp, hp'⟩
    · exact .refl _
    · exact (add_null_left hp).trans (add_null_left hp').symm
  have right : SameMass (p' + q) (p' + q') := by
    rcases h' with rfl | ⟨hq, hq'⟩
    · exact .refl _
    · exact (add_null_right hq).trans (add_null_right hq').symm
  exact left.trans right

end SameMass

end

/-! ## Lists of entries -/

variable {α β : Type} {R : α → α → Prop} {S : β → β → Prop}

/-- the entries of two lists are related in order and have the same masses, but for entries of
either list without mass -/
inductive Matches (R : α → α → Prop) : List (α × Float) → List (α × Float) → Prop
  | nil : Matches R [] []
  | left {e : α × Float} {es fs : List (α × Float)} (null : IsNull e.2) (rest : Matches R es fs) :
      Matches R (e :: es) fs
  | right {f : α × Float} {es fs : List (α × Float)} (null : IsNull f.2) (rest : Matches R es fs) :
      Matches R es (f :: fs)
  | both {e f : α × Float} {es fs : List (α × Float)} (related : R e.1 f.1) (mass : e.2 = f.2)
      (rest : Matches R es fs) : Matches R (e :: es) (f :: fs)

namespace Matches

variable {es fs es' fs' : List (α × Float)}

theorem of_null_right (null : ∀ f ∈ fs, IsNull f.2) : Matches R [] fs := by
  induction fs with
  | nil => exact .nil
  | cons f fs ih =>
    obtain ⟨first, rest⟩ := List.forall_mem_cons.mp null
    exact .right first (ih rest)

/-- lists that are the same without their null entries -/
theorem of_filter (h : List.Forall₂ (fun e f => R e.1 f.1 ∧ e.2 = f.2)
    (es.filter fun e => Mass.nonzero e.2) (fs.filter fun f => Mass.nonzero f.2)) :
    Matches R es fs := by
  induction es generalizing fs with
  | nil =>
    have none := List.forall₂_nil_left_iff.mp h
    refine of_null_right fun f hf => ?_
    exact (Bool.not_eq_true _).mp (List.filter_eq_nil_iff.mp none f hf)
  | cons e es ih =>
    cases weighed : Mass.nonzero e.2 with
    | false =>
      rw [List.filter_cons_of_neg (by rw [weighed]; decide)] at h
      exact .left weighed (ih h)
    | true =>
      rw [List.filter_cons_of_pos (p := fun e : α × Float => Mass.nonzero e.2) weighed] at h
      -- the partner of the entry stands behind the null entries of the other list
      induction fs with
      | nil => cases h
      | cons f fs ihf =>
        cases weighed' : Mass.nonzero f.2 with
        | false =>
          rw [List.filter_cons_of_neg (by rw [weighed']; decide)] at h
          exact .right weighed' (ihf h)
        | true =>
          rw [List.filter_cons_of_pos (p := fun e : α × Float => Mass.nonzero e.2) weighed'] at h
          obtain ⟨⟨related, mass⟩, rest⟩ := List.forall₂_cons.mp h
          exact .both related mass (ih rest)

theorem refl (h : ∀ a, R a a) (es : List (α × Float)) : Matches R es es := by
  induction es with
  | nil => exact .nil
  | cons e es ih => exact .both (h e.1) rfl ih

theorem append (h : Matches R es fs) (h' : Matches R es' fs') :
    Matches R (es ++ es') (fs ++ fs') := by
  induction h with
  | nil => exact h'
  | left null _ ih => exact .left null ih
  | right null _ ih => exact .right null ih
  | both related mass _ ih => exact .both related mass ih

theorem append_null_left (null : ∀ e ∈ es, IsNull e.2) (h : Matches R es' fs') :
    Matches R (es ++ es') fs' := by
  induction es with
  | nil => exact h
  | cons e es ih =>
    obtain ⟨first, rest⟩ := List.forall_mem_cons.mp null
    exact .left first (ih rest)

theorem append_null_right (null : ∀ f ∈ fs, IsNull f.2) (h : Matches R es' fs') :
    Matches R es' (fs ++ fs') := (of_null_right null).append h

theorem map {f : α → β} (hf : ∀ a b, R a b → S (f a) (f b)) (h : Matches R es fs) :
    Matches S (es.map fun e => (f e.1, e.2)) (fs.map fun e => (f e.1, e.2)) := by
  induction h with
  | nil => exact .nil
  | left null _ ih => exact .left null ih
  | right null _ ih => exact .right null ih
  | both related mass _ ih => exact .both (hf _ _ related) mass ih

/-- sums over a part of the entries -/
theorem foldl_add (h : Matches R es fs) {kept : α → Bool} (same : ∀ a b, R a b → kept a = kept b)
    {t u : Float} (start : SameMass t u) :
    SameMass ((es.filter fun e => kept e.1).foldl (fun t e => Mass.add t e.2) t)
      ((fs.filter fun e => kept e.1).foldl (fun t e => Mass.add t e.2) u) := by
  induction h generalizing t u with
  | nil => exact start
  | left null _ ih =>
    rw [List.filter_cons]
    split
    · exact ih ((add_null_right null).trans start)
    · exact ih start
  | right null _ ih =>
    rw [List.filter_cons]
    split
    · exact ih (start.trans (add_null_right null).symm)
    · exact ih start
  | @both e f es fs related mass _ ih =>
    rw [List.filter_cons, List.filter_cons, same _ _ related]
    split
    · exact ih (start.add (.inl mass))
    · exact ih start

end Matches

/-! ## Products -/

theorem isNull_row_left {e : α × Float} {r : List (β × Float)} (h : IsNull e.2)
    (finite : ∀ f ∈ r, f.2.isFinite = true) : ∀ p ∈ row e r, IsNull p.2 :=
  List.forall_mem_map.mpr fun f hf => mul_null_left h (finite f hf)

theorem matches_row {e f : α × Float} {r r' : List (β × Float)} (related : R e.1 f.1)
    (mass : e.2 = f.2) (finite : e.2.isFinite = true) (h : Matches S r r') :
    Matches (fun p q => R p.1 q.1 ∧ S p.2 q.2) (row e r) (row f r') := by
  induction h with
  | nil => exact .nil
  | left null _ ih => exact .left (mul_null_right finite null) ih
  | right null _ ih => exact .right (mul_null_right (mass ▸ finite) null) ih
  | both related' mass' _ ih => exact .both ⟨related, related'⟩ (congrArg₂ Mass.mul mass mass') ih

/-- the pairs of two lists match those of lists that match them -/
theorem matches_pairs {l l' : List (α × Float)} {r r' : List (β × Float)} (hl : Matches R l l')
    (hr : Matches S r r') (finite : ∀ e ∈ l, e.2.isFinite = true)
    (finite' : ∀ e ∈ l', e.2.isFinite = true) (other : ∀ f ∈ r, f.2.isFinite = true)
    (other' : ∀ f ∈ r', f.2.isFinite = true) :
    Matches (fun p q => R p.1 q.1 ∧ S p.2 q.2) (l.flatMap fun e => row e r)
      (l'.flatMap fun e => row e r') := by
  induction hl with
  | nil => exact .nil
  | left null _ ih =>
    rw [List.flatMap_cons]
    exact (ih (List.forall_mem_cons.mp finite).2 finite').append_null_left
      (isNull_row_left null other)
  | right null _ ih =>
    rw [List.flatMap_cons]
    exact (ih finite (List.forall_mem_cons.mp finite').2).append_null_right
      (isNull_row_left null other')
  | both related mass _ ih =>
    obtain ⟨first, rest⟩ := List.forall_mem_cons.mp finite
    rw [List.flatMap_cons, List.flatMap_cons]
    exact (matches_row related mass first hr).append
      (ih rest (List.forall_mem_cons.mp finite').2)

end Chance
