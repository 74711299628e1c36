import Chance.Proofs.Parsing
import Chance.Proofs.Writing
import Chance.Settings

/-!
# What a text of settings says

The settings of a text as a relation, stated by the grammar and not by the reader's steps: a list of
at most the seed, or an object in which the seed stands at most once.  The members of other keys are
passed over, whatever their values are.

* `SeedText`           the text of a seed;
* `MemberText`, `GivenText`   the seeds that the members of an object give;
* `Text`               a text says these settings;
* `read_eq_ok_iff`     a text is read as what it says;
* `text_toJson`        settings are written as a text that says them.
-/

namespace Chance
namespace Settings

open Json Json.Grammar Json.Reader

/-! ## What a text says -/

/-- a seed: `null` for none, or an integer of 64 bits without sign -/
inductive SeedText : Option UInt64 → List Char → Prop
  | absent {cs : List Char} (h : PaddedText .exact .null cs) : SeedText none cs
  | present {n : UInt64} {cs : List Char} (h : PaddedText .exact (.number (.integer n.toNat)) cs) :
      SeedText (some n) cs

/-- the seed that a member gives, if it gives one -/
inductive MemberText : List (Option UInt64) → List Char → Prop
  | seed {s : Option UInt64} {ks cs : List Char} (hk : KeyText .exact "seed" ks)
      (h : SeedText s cs) : MemberText [s] (ks ++ ':' :: cs)
  | other {key : String} {v : Json} {ks cs : List Char} (hk : KeyText .exact key ks)
      (different : key ≠ "seed") (h : PaddedText .loose v cs) : MemberText [] (ks ++ ':' :: cs)

/-- the seeds that one or more members with commas between them give -/
inductive GivenText : List (Option UInt64) → List Char → Prop
  | last {given : List (Option UInt64)} {cs : List Char} (h : MemberText given cs) :
      GivenText given cs
  | more {given others : List (Option UInt64)} {cs ds : List Char} (h : MemberText given cs)
      (hs : GivenText others ds) : GivenText (given ++ others) (cs ++ ',' :: ds)

/-- the settings of a list or an object; without a seed, and with `null` for one, there is none -/
inductive BodyText : Settings → List Char → Prop
  | emptyList {a : List Char} (ha : Blanks a) : BodyText ⟨none⟩ ('[' :: (a ++ [']']))
  | list {s : Option UInt64} {cs : List Char} (h : SeedText s cs) :
      BodyText ⟨s⟩ ('[' :: (cs ++ [']']))
  | emptyObject {a : List Char} (ha : Blanks a) : BodyText ⟨none⟩ ('{' :: (a ++ ['}']))
  | unseeded {cs : List Char} (h : GivenText [] cs) : BodyText ⟨none⟩ ('{' :: (cs ++ ['}']))
  | seeded {s : Option UInt64} {cs : List Char} (h : GivenText [s] cs) :
      BodyText ⟨s⟩ ('{' :: (cs ++ ['}']))

/-- the text says these settings, with blanks around them -/
inductive Text (s : Settings) : String → Prop
  | padded {a cs b : List Char} (ha : Blanks a) (h : BodyText s cs) (hb : Blanks b) :
      Text s (String.ofList (a ++ (cs ++ b)))

/-! ## Scalars -/

theorem starts_of_flat {v : Json} {cs : List Char} (h : ValueText .exact v cs)
    (flat : v.depth = 0) : ∃ c t, cs = c :: t ∧ isBlank c = false ∧ c ≠ '[' ∧ c ≠ '\x7b' := by
  cases h with
  | number h =>
    obtain ⟨c, t, rfl, hc⟩ := h.starts
    refine ⟨c, t, rfl, ?_⟩
    rcases hc with rfl | hc
    · decide
    · refine ⟨isBlank_of_isDigit hc, ?_, ?_⟩ <;>
      · rintro rfl
        exact absurd hc (by decide)
  | string h =>
    cases h
    exact ⟨_, _, rfl, by decide⟩
  | emptyArray | array | emptyObject | object =>
    rw [depth] at flat
    omega
  | _ => exact ⟨_, _, rfl, by decide⟩

theorem scalar_complete {v : Json} {cs rest : List Char} (h : PaddedText .exact v cs)
    (flat : v.depth = 0) (ends : Ends rest) :
    ∃ b, Blanks b ∧ scalar (cs ++ rest) = .ok (v, b ++ rest) := by
  cases h with
  | @padded v a cs b ha h hb =>
    have read := value_complete h 0 (ends.append hb)
    rw [within_of_le (Nat.le_of_eq flat)] at read
    obtain ⟨c, t, rfl, blank, bracket, brace⟩ := starts_of_flat h flat
    refine ⟨b, hb, ?_⟩
    unfold scalar
    rw [List.append_assoc, List.append_assoc, skipBlank_append ha, List.cons_append,
      skipBlank_cons_of_not_isBlank blank]
    split
    · next same => exact absurd (List.cons.inj same).1 bracket
    · next same => exact absurd (List.cons.inj same).1 brace
    · exact read

theorem scalar_sound {v : Json} {cs rest : List Char} (h : scalar cs = .ok (v, rest)) :
    ∃ t, cs = t ++ skipBlank rest ∧ PaddedText .exact v t := by
  obtain ⟨a, ha, front⟩ := exists_blanks cs
  unfold scalar at h
  split at h
  · cases h
  · cases h
  · rw [← value_blanks ha, ← front] at h
    obtain ⟨t, split, ht, -⟩ := padded_sound (value_sound .exact 0) h
    exact ⟨t, split, ht⟩

/-! ## Seeds -/

theorem seedValue_complete {s : Option UInt64} {cs rest : List Char} (h : SeedText s cs)
    (ends : Ends rest) : ∃ b, Blanks b ∧ seedValue (cs ++ rest) = .ok (s, b ++ rest) := by
  cases h with
  | absent h =>
    obtain ⟨b, hb, read⟩ := scalar_complete h rfl ends
    refine ⟨b, hb, ?_⟩
    unfold seedValue
    rw [read]
  | @present n _ h =>
    obtain ⟨b, hb, read⟩ := scalar_complete h rfl ends
    have small : (n.toNat : Int) < UInt64.size := by exact_mod_cast n.toNat_lt_size
    refine ⟨b, hb, ?_⟩
    unfold seedValue
    rw [read]
    dsimp only
    rw [if_pos ⟨Int.natCast_nonneg _, small⟩, Int.toNat_natCast]
    simp

theorem seedValue_sound {s : Option UInt64} {cs rest : List Char}
    (h : seedValue cs = .ok (s, rest)) : ∃ t, cs = t ++ skipBlank rest ∧ SeedText s t := by
  unfold seedValue at h
  split at h
  · cases h
  · next read =>
    cases h
    obtain ⟨t, split, ht⟩ := scalar_sound read
    exact ⟨t, split, .absent ht⟩
  · next n r read =>
    split at h
    · next range =>
      cases h
      obtain ⟨t, split, ht⟩ := scalar_sound read
      have small : n.toNat < 2 ^ 64 := by
        have := range.2
        rw [show UInt64.size = 2 ^ 64 from rfl] at this
        omega
      have kept : (n.toNat.toUInt64.toNat : Int) = n := by
        rw [Nat.toUInt64_eq, UInt64.toNat_ofNat_of_lt' small, Int.toNat_of_nonneg range.1]
      refine ⟨t, split, .present ?_⟩
      rw [kept]
      exact ht
    · cases h
  · cases h

/-! ## Members -/

/-- A member is read, and its seed is the first of those still to come. -/
theorem member_complete {seen last : Option (Option UInt64)} {given others : List (Option UInt64)}
    {cs rest : List Char} (h : MemberText given cs)
    (once : seen.toList ++ (given ++ others) = last.toList) (ends : Ends rest) :
    ∃ key ds next b, memberKey .strict (cs ++ rest) = .ok (key, ds) ∧ Blanks b ∧
      memberReading seen key ds = .ok (next, b ++ rest) ∧ next.toList ++ others = last.toList := by
  cases h with
  | @seed s ks cs hk h =>
    obtain ⟨ds, first, colon⟩ := key_complete hk (cs ++ rest)
    obtain ⟨b, hb, read⟩ := seedValue_complete h ends
    have none : seen = none := by
      cases seen with
      | none => rfl
      | some _ => cases last <;> simp at once
    refine ⟨"seed", ds, some s, b, ?_, hb, ?_, ?_⟩
    · rw [List.append_assoc]
      exact first
    · simp [memberReading, none, colon, read]
    · rw [none] at once
      exact once
  | @other key v ks cs hk different h =>
    obtain ⟨ds, first, colon⟩ := key_complete hk (cs ++ rest)
    obtain ⟨b, hb, read⟩ := skimmed_complete h ends
    refine ⟨key, ds, seen, b, ?_, hb, ?_, once⟩
    · rw [List.append_assoc]
      exact first
    · simp [memberReading, different, colon, read]

theorem member_sound {seen next : Option (Option UInt64)} {key : String} {cs ds rest : List Char}
    (first : memberKey .strict cs = .ok (key, ds))
    (h : memberReading seen key ds = .ok (next, rest)) :
    ∃ given t, cs = t ++ skipBlank rest ∧ MemberText given t ∧
      next.toList = seen.toList ++ given := by
  unfold memberReading at h
  split at h
  · next same =>
    cases same
    split at h
    · cases h
    · next unseen =>
      split at h
      · cases h
      · next r colon =>
        split at h
        · cases h
        · next s r' read =>
          cases h
          obtain ⟨ks, hk, rfl⟩ := key_sound (k := .exact) first colon
          obtain ⟨t, rfl, ht⟩ := seedValue_sound read
          have none : seen = none := by simpa using unseen
          rw [none]
          exact ⟨[s], ks ++ ':' :: t, by simp, .seed hk ht, rfl⟩
  · next different =>
    split at h
    · cases h
    · next r colon =>
      split at h
      · cases h
      · next r' read =>
        cases h
        obtain ⟨ks, hk, rfl⟩ := key_sound (k := .exact) first colon
        obtain ⟨v, t, rfl, ht⟩ := skimmed_sound read
        exact ⟨[], ks ++ ':' :: t, by simp, .other hk different ht, by simp⟩

/-! ## Objects -/

theorem MemberText.trim {given : List (Option UInt64)} {cs : List Char} (h : MemberText given cs) :
    ∃ a t, Blanks a ∧ cs = a ++ '"' :: t ∧ MemberText given ('"' :: t) := by
  cases h with
  | seed hk h =>
    obtain ⟨a, t, ha, rfl, ht⟩ := hk.trim
    exact ⟨a, _, ha, List.append_assoc _ _ _, .seed ht h⟩
  | other hk different h =>
    obtain ⟨a, t, ha, rfl, ht⟩ := hk.trim
    exact ⟨a, _, ha, List.append_assoc _ _ _, .other ht different h⟩

theorem GivenText.trim {given : List (Option UInt64)} {cs : List Char} (h : GivenText given cs) :
    ∃ a t, Blanks a ∧ cs = a ++ '"' :: t ∧ GivenText given ('"' :: t) := by
  cases h with
  | last h =>
    obtain ⟨a, t, ha, rfl, ht⟩ := h.trim
    exact ⟨a, t, ha, rfl, .last ht⟩
  | more h hs =>
    obtain ⟨a, t, ha, rfl, ht⟩ := h.trim
    exact ⟨a, _, ha, List.append_assoc _ _ _, .more ht hs⟩

theorem MemberText.blanks {given : List (Option UInt64)} {a cs : List Char} (ha : Blanks a)
    (h : MemberText given cs) : MemberText given (a ++ cs) := by
  cases h with
  | seed hk h =>
    rw [← List.append_assoc]
    exact .seed (hk.blanks ha) h
  | other hk different h =>
    rw [← List.append_assoc]
    exact .other (hk.blanks ha) different h

theorem GivenText.blanks {given : List (Option UInt64)} {a cs : List Char} (ha : Blanks a)
    (h : GivenText given cs) : GivenText given (a ++ cs) := by
  cases h with
  | last h => exact .last (h.blanks ha)
  | more h hs =>
    rw [← List.append_assoc]
    exact .more (h.blanks ha) hs

/-- each member takes at least its colon off the text, by which the members are counted -/
theorem members_complete {last : Option (Option UInt64)} {given : List (Option UInt64)}
    {cs : List Char} (h : GivenText given cs) {fuel : List Char} (long : cs.length ≤ fuel.length)
    {seen : Option (Option UInt64)} (once : seen.toList ++ given = last.toList)
    (rest : List Char) :
    objectMembers .strict memberReading fuel seen (cs ++ '}' :: rest) = .ok (last, rest) := by
  induction h generalizing fuel seen with
  | @last given cs h =>
    obtain ⟨x, fuel, rfl⟩ : ∃ x fuel', fuel = x :: fuel' := by
      refine List.exists_cons_of_length_pos (Nat.lt_of_lt_of_le ?_ long)
      cases h <;> simp
    rw [← List.append_nil given] at once
    obtain ⟨key, ds, next, b, first, hb, read, kept⟩ :=
      member_complete h once (ends_brace rest)
    have same : next = last := by
      rw [List.append_nil] at kept
      cases next <;> cases last <;> cases kept <;> rfl
    simp only [objectMembers, first, read, skipBlank_append hb]
    rw [same]
    rfl
  | @more given others cs ds h hs ih =>
    obtain ⟨x, fuel, rfl⟩ : ∃ x fuel', fuel = x :: fuel' := by
      refine List.exists_cons_of_length_pos (Nat.lt_of_lt_of_le ?_ long)
      simp
    obtain ⟨key, es, next, b, first, hb, read, kept⟩ :=
      member_complete h once (ends_comma (ds ++ '}' :: rest))
    have shorter : ds.length ≤ fuel.length := by
      rw [List.length_append, List.length_cons, List.length_cons] at long
      omega
    rw [List.append_assoc, List.cons_append]
    simp only [objectMembers, first, read, skipBlank_append hb]
    exact ih shorter kept

theorem members_sound {seen last : Option (Option UInt64)} {fuel cs rest : List Char}
    (h : objectMembers .strict memberReading fuel seen cs = .ok (last, rest)) :
    ∃ given t, cs = t ++ '}' :: rest ∧ GivenText given t ∧
      last.toList = seen.toList ++ given := by
  induction fuel generalizing seen cs with
  | nil => cases h
  | cons x fuel ih =>
    rw [objectMembers] at h
    split at h
    · cases h
    · next key r₀ first =>
      split at h
      · cases h
      · next seen' r₁ read =>
        obtain ⟨given, t, rfl, ht, kept⟩ := member_sound first read
        split at h
        · cases h
        · next r₂ close =>
          cases h
          rw [close]
          exact ⟨given, t, rfl, .last ht, kept⟩
        · next r₂ comma =>
          obtain ⟨others, ts, rfl, hts, added⟩ := ih h
          rw [comma]
          refine ⟨given ++ others, t ++ ',' :: ts, by simp, .more ht hts, ?_⟩
          rw [added, kept, List.append_assoc]
        · cases h

theorem object_empty {a : List Char} (ha : Blanks a) (rest : List Char) :
    Reader.object .strict memberReading none (a ++ '}' :: rest) = .ok (none, rest) := by
  unfold Reader.object
  rw [skipBlank_append ha]
  rfl

/-- an object whose members give at most one seed -/
theorem object_complete {last : Option (Option UInt64)} {cs : List Char}
    (h : GivenText last.toList cs) (rest : List Char) :
    Reader.object .strict memberReading none (cs ++ '}' :: rest) = .ok (last, rest) := by
  obtain ⟨a, t, ha, rfl, ht⟩ := h.trim
  have long : ('"' :: t).length ≤ ('"' :: (t ++ '}' :: rest)).length := by
    rw [List.length_cons, List.length_cons, List.length_append]
    omega
  rw [List.append_assoc, List.cons_append, object_members _ _ ha]
  exact members_complete ht long rfl rest

theorem object_sound {last : Option (Option UInt64)} {cs rest : List Char}
    (h : Reader.object .strict memberReading none cs = .ok (last, rest)) :
    ∃ t, cs = t ++ '}' :: rest ∧ BodyText ⟨last.getD none⟩ ('{' :: (t ++ ['}'])) := by
  obtain ⟨a, ha, split⟩ := exists_blanks cs
  unfold Reader.object at h
  split at h
  · cases h
  · next r close =>
    cases h
    rw [split, close]
    exact ⟨a, rfl, .emptyObject ha⟩
  · obtain ⟨given, t, read, ht, kept⟩ := members_sound h
    rw [split, read]
    refine ⟨a ++ t, (List.append_assoc a t _).symm, ?_⟩
    cases kept
    cases last with
    | none => exact .unseeded (ht.blanks ha)
    | some s => exact .seeded (ht.blanks ha)

/-! ## Lists -/

theorem scalar_skipBlank (cs : List Char) : scalar (skipBlank cs) = scalar cs := by
  have twice : skipBlank (skipBlank cs) = skipBlank cs := List.dropWhile_idempotent isBlank cs
  unfold scalar
  rw [twice]

theorem seedValue_skipBlank (cs : List Char) : seedValue (skipBlank cs) = seedValue cs := by
  unfold seedValue
  rw [scalar_skipBlank]

theorem SeedText.blanks {s : Option UInt64} {a cs : List Char} (ha : Blanks a)
    (h : SeedText s cs) : SeedText s (a ++ cs) := by
  cases h with
  | absent h => exact .absent (h.blanks ha)
  | present h => exact .present (h.blanks ha)

theorem listForm_empty {a : List Char} (ha : Blanks a) (rest : List Char) :
    listForm (a ++ ']' :: rest) = .ok (⟨none⟩, rest) := by
  unfold listForm
  rw [skipBlank_append ha]
  rfl

/-- a seed is no bracket that closes -/
theorem SeedText.front {s : Option UInt64} {cs : List Char} (h : SeedText s cs)
    (rest : List Char) : ∃ c t, skipBlank (cs ++ rest) = c :: t ∧ c ≠ ']' := by
  have front {v : Json} {cs : List Char} (h : PaddedText .exact v cs) :
      ∃ c t, skipBlank (cs ++ rest) = c :: t ∧ c ≠ ']' := by
    cases h with
    | padded ha h hb =>
      obtain ⟨c, t, rfl, blank, close⟩ := h.starts
      rw [List.append_assoc, skipBlank_append ha]
      exact ⟨c, _, skipBlank_cons_of_not_isBlank blank _, close⟩
  cases h with
  | absent h => exact front h
  | present h => exact front h

theorem listForm_complete {s : Option UInt64} {cs : List Char} (h : SeedText s cs)
    (rest : List Char) : listForm (cs ++ ']' :: rest) = .ok (⟨s⟩, rest) := by
  obtain ⟨b, hb, read⟩ := seedValue_complete h (ends_bracket rest)
  obtain ⟨c, t, front, close⟩ := h.front (']' :: rest)
  rw [← seedValue_skipBlank, front] at read
  unfold listForm
  rw [front]
  split
  · next same => cases same
  · next same => exact absurd (List.cons.inj same).1 close
  · rw [read]
    dsimp only
    rw [token_complete (by decide) hb]

theorem listForm_sound {s : Settings} {cs rest : List Char} (h : listForm cs = .ok (s, rest)) :
    ∃ t, cs = t ++ ']' :: rest ∧ BodyText s ('[' :: (t ++ [']'])) := by
  obtain ⟨a, ha, split⟩ := exists_blanks cs
  unfold listForm at h
  split at h
  · cases h
  · next r close =>
    cases h
    rw [split, close]
    exact ⟨a, rfl, .emptyList ha⟩
  · split at h
    · cases h
    · next s r read =>
      split at h
      · cases h
      · next r' close =>
        cases h
        obtain ⟨t, front, ht⟩ := seedValue_sound read
        obtain ⟨b, hb, rfl⟩ := token_sound close
        have behind : skipBlank (b ++ ']' :: rest) = ']' :: rest := skipBlank_append hb _
        rw [behind] at front
        rw [split, front]
        exact ⟨a ++ t, (List.append_assoc a t _).symm, .list (ht.blanks ha)⟩

/-! ## Whole texts -/

theorem reading_blanks {a : List Char} (ha : Blanks a) (cs : List Char) :
    reading (a ++ cs) = reading cs := by
  unfold reading
  rw [skipBlank_append ha]

theorem reading_list (cs : List Char) : reading ('[' :: cs) = listForm cs := rfl

theorem reading_object {last : Option (Option UInt64)} {cs rest : List Char}
    (h : Reader.object .strict memberReading none cs = .ok (last, rest)) :
    reading ('{' :: cs) = .ok (⟨last.getD none⟩, rest) := by
  unfold reading
  rw [skipBlank_cons_of_not_isBlank (by decide)]
  simp only [h]

theorem reading_complete {s : Settings} {cs : List Char} (h : BodyText s cs)
    (rest : List Char) : reading (cs ++ rest) = .ok (s, rest) := by
  cases h with
  | emptyList ha =>
    rw [List.cons_append, List.append_assoc, reading_list]
    exact listForm_empty ha rest
  | list h =>
    rw [List.cons_append, List.append_assoc, reading_list]
    exact listForm_complete h rest
  | emptyObject ha =>
    rw [List.cons_append, List.append_assoc]
    exact reading_object (object_empty ha rest)
  | unseeded h =>
    rw [List.cons_append, List.append_assoc]
    exact reading_object (@object_complete none _ h rest)
  | @seeded s cs h =>
    rw [List.cons_append, List.append_assoc]
    exact reading_object (@object_complete (some s) _ h rest)

theorem reading_sound {s : Settings} {cs rest : List Char} (h : reading cs = .ok (s, rest)) :
    ∃ a t, Blanks a ∧ cs = a ++ (t ++ rest) ∧ BodyText s t := by
  obtain ⟨a, ha, split⟩ := exists_blanks cs
  unfold reading at h
  split at h
  · next r first =>
    obtain ⟨t, rfl, ht⟩ := listForm_sound h
    refine ⟨a, _, ha, ?_, ht⟩
    rw [split, first]
    simp
  · next r first =>
    split at h
    · cases h
    · next last r' read =>
      cases h
      obtain ⟨t, rfl, ht⟩ := object_sound read
      refine ⟨a, _, ha, ?_, ht⟩
      rw [split, first]
      simp
  · cases h

/-- **The settings of a text.**  A text is read as what it says, and no other text is read. -/
theorem read_eq_ok_iff {s : Settings} {text : String} : read text = .ok s ↔ Text s text := by
  unfold read
  rw [whole_eq_ok_iff]
  constructor
  · rintro ⟨b, hb, h⟩
    obtain ⟨a, t, ha, split, ht⟩ := reading_sound h
    have padded := Text.padded ha ht hb
    rwa [← split, String.ofList_toList] at padded
  · rintro ⟨ha, h, hb⟩
    rw [String.toList_ofList, reading_blanks ha]
    exact ⟨_, hb, reading_complete h _⟩

theorem Text.unique {s t : Settings} {text : String} (hs : Text s text) (ht : Text t text) :
    s = t := by
  rw [← read_eq_ok_iff] at hs ht
  exact Except.ok.inj (hs.symm.trans ht)

/-- settings are written as a text that says them -/
theorem text_toJson (s : Settings) : Text s s.toJson.compact := by
  obtain ⟨seed⟩ := s
  have said {v : Json} (hv : SeedText seed v.compactChars) :
      Text ⟨seed⟩ (Json.object [("seed", v)]).compact := by
    have member := MemberText.seed (keyText_writeString "seed") hv
    have padded := Text.padded blanks_nil (.seeded (.last member)) blanks_nil
    simpa [compact, compactChars, compactMembers] using padded
  cases seed with
  | none => exact said (.absent (paddedText_of_valueText (valueText_compactChars .null)))
  | some n =>
    have small := n.toNat_lt
    have integer : (Number.integer n.toNat).Storable := ⟨by omega, by omega⟩
    exact said (.present (paddedText_of_valueText (valueText_compactChars (.number integer))))

end Settings
end Chance
