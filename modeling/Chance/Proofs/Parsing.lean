import Chance.Proofs.Tokens

/-!
# Reading values

The reader takes the texts of the grammar and no others, as long as their values are nested no
deeper than it goes; one that is nested deeper is malformed (`within`).

* `value_complete`   a text is read as its value, if that is not too deep;
* `value_sound`      what is read has a text;
* `skimmed_complete`, `skimmed_sound`   texts that are passed over;
* `whole_eq_ok_iff`   whole texts, of any reader;
* `Json.read_eq_ok_iff`, `Json.read_of_text`, `Json.text_unique`   whole texts of a value.
-/

namespace Chance
namespace Json
namespace Grammar

open Reader

variable {k : Care} {rules : Rules}

/-- a result that is refused where something is too deep -/
def within {α : Type} (depth limit : Nat) (a : α) : Except Fault α :=
  if depth ≤ limit then .ok a else .error .malformed

theorem within_of_le {α : Type} {depth limit : Nat} (h : depth ≤ limit) (a : α) :
    within depth limit a = .ok a := if_pos h

theorem within_of_lt {α : Type} {depth limit : Nat} (h : limit < depth) (a : α) :
    within depth limit a = .error .malformed := if_neg (Nat.not_le.mpr h)

/-- nothing, a blank, or a character that ends an item -/
def Ends (cs : List Char) : Prop :=
  ∀ c ∈ cs.head?, isBlank c = true ∨ c = ',' ∨ c = ']' ∨ c = '}'

theorem ends_cons {c : Char} (h : isBlank c = true ∨ c = ',' ∨ c = ']' ∨ c = '}')
    (cs : List Char) : Ends (c :: cs) := by
  intro x hx
  cases hx
  exact h

theorem ends_comma (cs : List Char) : Ends (',' :: cs) := ends_cons (.inr (.inl rfl)) cs

theorem ends_bracket (cs : List Char) : Ends (']' :: cs) := ends_cons (.inr (.inr (.inl rfl))) cs

theorem ends_brace (cs : List Char) : Ends ('}' :: cs) := ends_cons (.inr (.inr (.inr rfl))) cs

theorem Ends.append {b cs : List Char} (hb : Blanks b) (h : Ends cs) : Ends (b ++ cs) := by
  cases b with
  | nil => exact h
  | cons c b => exact ends_cons (.inl (hb c List.mem_cons_self)) (b ++ cs)

theorem Ends.noPart {cs : List Char} (h : Ends cs) : NoPart cs := by
  intro c hc
  rcases h c hc with blank | rfl | rfl | rfl
  · simp only [isBlank, Bool.or_eq_true, beq_iff_eq] at blank
    rcases blank with ((rfl | rfl) | rfl) | rfl <;> decide
  all_goals decide

/-! ## First characters -/

/-- a value starts with no blank and no bracket that closes -/
def Starts (cs : List Char) : Prop :=
  ∃ c t, cs = c :: t ∧ isBlank c = false ∧ c ≠ ']'

theorem isBlank_of_isDigit {c : Char} (h : c.isDigit = true) : isBlank c = false := by
  cases blank : isBlank c with
  | false => rfl
  | true =>
    simp only [isBlank, Bool.or_eq_true, beq_iff_eq] at blank
    rcases blank with ((rfl | rfl) | rfl) | rfl <;> exact absurd h (by decide)

theorem NumberText.starts {n : Number} {cs : List Char} (h : NumberText n cs) :
    ∃ c t, cs = c :: t ∧ (c = '-' ∨ c.isDigit = true) := by
  cases h with
  | negative _ => exact ⟨_, _, rfl, .inl rfl⟩
  | positive h =>
    cases h with
    | parts hw _ _ =>
      obtain ⟨d, more, rfl, hd⟩ := hw.head
      exact ⟨d, _, rfl, .inr hd⟩

theorem ValueText.starts {v : Json} {cs : List Char} (h : ValueText k v cs) : Starts cs := by
  cases h with
  | number h =>
    obtain ⟨c, t, rfl, rfl | hc⟩ := h.starts
    · exact ⟨_, _, rfl, by decide, by decide⟩
    · refine ⟨c, t, rfl, isBlank_of_isDigit hc, ?_⟩
      rintro rfl
      exact absurd hc (by decide)
  | string h =>
    cases h
    exact ⟨_, _, rfl, by decide, by decide⟩
  | _ => exact ⟨_, _, rfl, by decide, by decide⟩

theorem Blanks.append {a b : List Char} (ha : Blanks a) (hb : Blanks b) : Blanks (a ++ b) :=
  fun c hc => (List.mem_append.mp hc).elim (ha c) (hb c)

theorem PaddedText.blanks {v : Json} {a cs : List Char} (ha : Blanks a) (h : PaddedText k v cs) :
    PaddedText k v (a ++ cs) := by
  cases h with
  | padded hb h hc =>
    rw [← List.append_assoc]
    exact .padded (ha.append hb) h hc

/-- blanks before the first item may be dropped -/
theorem ItemsText.trim {vs : List Json} {cs : List Char} (h : ItemsText k vs cs) :
    ∃ a ds, Blanks a ∧ cs = a ++ ds ∧ ItemsText k vs ds ∧ Starts ds := by
  have trimmed {v : Json} {cs : List Char} (h : PaddedText k v cs) (t : List Char) :
      ∃ a ds, Blanks a ∧ cs = a ++ ds ∧ PaddedText k v ds ∧ Starts (ds ++ t) := by
    cases h with
    | @padded v a cs b ha h hb =>
      obtain ⟨c, t, rfl, blank, close⟩ := h.starts
      exact ⟨a, _, ha, rfl, .padded blanks_nil h hb, c, _, rfl, blank, close⟩
  cases h with
  | last h =>
    obtain ⟨a, ds, ha, rfl, hds, start⟩ := trimmed h []
    rw [List.append_nil] at start
    exact ⟨a, ds, ha, rfl, .last hds, start⟩
  | more h hs =>
    obtain ⟨a, ds, ha, rfl, hds, start⟩ := trimmed h _
    exact ⟨a, _, ha, List.append_assoc _ _ _, .more hds hs, start⟩

/-- blanks before a key may be dropped -/
theorem KeyText.trim {key : String} {ks : List Char} (h : KeyText k key ks) :
    ∃ a t, Blanks a ∧ ks = a ++ '"' :: t ∧ KeyText k key ('"' :: t) := by
  cases h with
  | @padded a cs b ha h hb =>
    cases h with
    | quoted h => exact ⟨a, _, ha, rfl, .padded blanks_nil (.quoted h) hb⟩

theorem MembersText.trim {ms : List (String × Json)} {cs : List Char} (h : MembersText k ms cs) :
    ∃ a t, Blanks a ∧ cs = a ++ '"' :: t ∧ MembersText k ms ('"' :: t) := by
  cases h with
  | last hk h =>
    obtain ⟨a, t, ha, rfl, ht⟩ := hk.trim
    exact ⟨a, _, ha, List.append_assoc _ _ _, .last ht h⟩
  | more hk h hs =>
    obtain ⟨a, t, ha, rfl, ht⟩ := hk.trim
    exact ⟨a, _, ha, List.append_assoc _ _ _, .more ht h hs⟩

/-! ## Steps

The reader counts items and members by the characters of the text, and each has at least one. -/

theorem PaddedText.length_pos {v : Json} {cs : List Char} (h : PaddedText k v cs) :
    0 < cs.length := by
  cases h with
  | padded _ h _ =>
    obtain ⟨c, t, rfl, -⟩ := h.starts
    simp

theorem ItemsText.length_le : ∀ {vs : List Json} {cs : List Char},
    ItemsText k vs cs → vs.length ≤ cs.length
  | _, _, .last h => h.length_pos
  | _, _, .more h hs => by
    have rest := hs.length_le
    simp only [List.length_cons, List.length_append]
    omega

theorem MembersText.length_le : ∀ {ms : List (String × Json)} {cs : List Char},
    MembersText k ms cs → ms.length ≤ cs.length
  | _, _, .last hk h => by
    have value := h.length_pos
    simp only [List.length_cons, List.length_nil, List.length_append]
    omega
  | _, _, .more hk h hs => by
    have rest := hs.length_le
    simp only [List.length_cons, List.length_append]
    omega

/-! ## Texts are read -/

/-- blanks in front of a value are skipped -/
theorem value_blanks {a : List Char} (ha : Blanks a) (d : Nat) (cs : List Char) :
    value rules d (a ++ cs) = value rules d cs := by
  cases d with
  | zero => simp only [value, skipBlank_append ha]
  | succ d => simp only [value, skipBlank_append ha]

theorem value_number {c : Char} (h : c = '-' ∨ c.isDigit = true) (d : Nat) (cs : List Char) :
    value rules d (c :: cs) =
      match Reader.number rules (c :: cs) with
      | .error f => .error f
      | .ok (n, rest) => .ok (.number n, rest) := by
  have blank : isBlank c = false := by
    rcases h with rfl | h
    · decide
    · exact isBlank_of_isDigit h
  have other {x : Char} (hx : x ≠ '-' ∧ x.isDigit = false) : c ≠ x := by
    rintro rfl
    rcases h with h | h
    · exact hx.1 h
    · rw [hx.2] at h
      cases h
  have n := other (x := 'n') (by decide)
  have t := other (x := 't') (by decide)
  have f := other (x := 'f') (by decide)
  have quote := other (x := '"') (by decide)
  have bracket := other (x := '[') (by decide)
  have brace := other (x := '\x7b') (by decide)
  rw [value.eq_def]
  dsimp only
  rw [skipBlank_cons_of_not_isBlank blank]
  split
  · next h => cases h
  · next h => exact absurd (List.cons.inj h).1 n
  · next h => exact absurd (List.cons.inj h).1 t
  · next h => exact absurd (List.cons.inj h).1 f
  · next h => exact absurd (List.cons.inj h).1 quote
  · next h => exact absurd (List.cons.inj h).1 bracket
  · next h => exact absurd (List.cons.inj h).1 brace
  · next c' cs' _ _ _ _ _ _ same =>
    cases same
    exact if_pos h

theorem value_string (d : Nat) (cs : List Char) :
    value rules d ('"' :: cs) =
      match stringRest rules cs with
      | .error f => .error f
      | .ok (s, rest) => .ok (.string s, rest) := by
  cases d <;> rfl

theorem value_array_zero (cs : List Char) : value rules 0 ('[' :: cs) = .error .malformed := rfl

theorem value_object_zero (cs : List Char) : value rules 0 ('{' :: cs) = .error .malformed := rfl

theorem value_array (d : Nat) (cs : List Char) :
    value rules (d + 1) ('[' :: cs) =
      match Reader.list (itemStep (value rules d)) [] cs with
      | .error f => .error f
      | .ok (items, rest) => .ok (.array items.reverse, rest) := rfl

theorem value_object (d : Nat) (cs : List Char) :
    value rules (d + 1) ('{' :: cs) =
      match Reader.object rules (memberStep (value rules d)) [] cs with
      | .error f => .error f
      | .ok (members, rest) => .ok (.object members.reverse, rest) := rfl

theorem list_items {σ : Type} (step : σ → Reading σ) (s : σ) {a cs : List Char} (ha : Blanks a)
    (start : Starts cs) : Reader.list step s (a ++ cs) = listItems step cs s cs := by
  obtain ⟨c, t, rfl, blank, close⟩ := start
  unfold Reader.list
  rw [skipBlank_append ha, skipBlank_cons_of_not_isBlank blank]
  split
  · next h => cases h
  · next h => exact absurd (List.cons.inj h).1 close
  · rfl

theorem object_members {σ : Type} (step : σ → String → Reading σ) (s : σ) {a : List Char}
    (ha : Blanks a) (cs : List Char) :
    Reader.object rules step s (a ++ '"' :: cs) =
      objectMembers rules step ('"' :: cs) s ('"' :: cs) := by
  unfold Reader.object
  rw [skipBlank_append ha]
  rfl

theorem listItems_blanks {a : List Char} (ha : Blanks a) (d : Nat) (fuel : List Char)
    (s : List Json) (cs : List Char) :
    listItems (itemStep (value rules d)) fuel s (a ++ cs) =
      listItems (itemStep (value rules d)) fuel s cs := by
  cases fuel with
  | nil => rfl
  | cons x fuel => simp only [listItems, itemStep, value_blanks ha]

theorem objectMembers_blanks {a : List Char} (ha : Blanks a) (d : Nat) (fuel : List Char)
    (s : List (String × Json)) (cs : List Char) :
    objectMembers rules (memberStep (value rules d)) fuel s (a ++ cs) =
      objectMembers rules (memberStep (value rules d)) fuel s cs := by
  cases fuel with
  | nil => rfl
  | cons x fuel => simp only [objectMembers, memberKey, token, skipBlank_append ha]

/-- a key and the colon behind it -/
theorem key_complete {key : String} {ks : List Char} (h : KeyText k key ks) (cs : List Char) :
    ∃ ds, memberKey k.rules (ks ++ ':' :: cs) = .ok (key, ds) ∧ token ':' ds = .ok cs := by
  cases h with
  | @padded a ks b ha h hb =>
    refine ⟨b ++ ':' :: cs, ?_, token_complete (by decide) hb cs⟩
    rw [List.append_assoc, List.append_assoc]
    exact memberKey_complete ha h (b ++ ':' :: cs)

mutual

/-- a text is read as its value, unless that is too deep -/
theorem value_complete : ∀ {v : Json} {cs : List Char}, ValueText k v cs → ∀ (d : Nat)
    {rest : List Char}, Ends rest → value k.rules d (cs ++ rest) = within v.depth d (v, rest)
  | _, _, .null, d, rest, _ => by
    rw [depth, within_of_le (Nat.zero_le d)]
    cases d <;> rfl
  | _, _, .yes, d, rest, _ => by
    rw [depth, within_of_le (Nat.zero_le d)]
    cases d <;> rfl
  | _, _, .no, d, rest, _ => by
    rw [depth, within_of_le (Nat.zero_le d)]
    cases d <;> rfl
  | _, _, .number h range, d, rest, ends => by
    have read := number_complete h range ends.noPart
    obtain ⟨c, t, rfl, hc⟩ := h.starts
    rw [depth, within_of_le (Nat.zero_le d), List.cons_append, value_number hc,
      ← List.cons_append, read]
  | _, _, .string h, d, rest, _ => by
    rw [depth, within_of_le (Nat.zero_le d)]
    cases h with
    | quoted h =>
      have read := stringRest_complete (.quoted h) rest
      rw [List.cons_append, value_string, read]
  | _, _, .emptyArray ha, 0, rest, _ => rfl
  | _, _, .emptyArray (a := a) ha, d + 1, rest, _ => by
    have read : Reader.list (itemStep (value k.rules d)) [] (a ++ ']' :: rest) =
        .ok ([], rest) := by
      unfold Reader.list
      rw [skipBlank_append ha]
      rfl
    rw [List.cons_append, List.append_assoc, value_array, List.singleton_append, read]
    exact (within_of_le (Nat.le_add_left 1 d) _).symm
  | _, _, .array h, 0, rest, _ => by
    rw [depth, within_of_lt (by omega)]
    exact value_array_zero _
  | _, _, @ValueText.array _ vs cs h, d + 1, rest, _ => by
    -- items are counted by the text without the blanks in front of it
    obtain ⟨a, ds, ha, split, hds, c, t, start, blank, close⟩ := h.trim
    have long : vs.length ≤ (ds ++ ']' :: rest).length := by
      have := hds.length_le
      rw [List.length_append]
      omega
    have read : Reader.list (itemStep (value k.rules d)) [] (cs ++ ']' :: rest) =
        within (depthItems vs) d (vs.reverse ++ [], rest) := by
      rw [← items_complete h d long, split, List.append_assoc, listItems_blanks ha]
      refine list_items _ _ ha ⟨c, t ++ ']' :: rest, ?_, blank, close⟩
      rw [start, List.cons_append]
    rw [List.cons_append, List.append_assoc, value_array, List.singleton_append, read, depth]
    by_cases deep : depthItems vs ≤ d
    · rw [within_of_le deep, within_of_le (by omega), List.append_nil]
      simp only [List.reverse_reverse]
    · rw [within_of_lt (by omega), within_of_lt (by omega)]
  | _, _, .emptyObject ha, 0, rest, _ => rfl
  | _, _, .emptyObject (a := a) ha, d + 1, rest, _ => by
    have read : Reader.object k.rules (memberStep (value k.rules d)) [] (a ++ '}' :: rest) =
        .ok ([], rest) := by
      unfold Reader.object
      rw [skipBlank_append ha]
      rfl
    rw [List.cons_append, List.append_assoc, value_object, List.singleton_append, read]
    exact (within_of_le (Nat.le_add_left 1 d) _).symm
  | _, _, .object h, 0, rest, _ => by
    rw [depth, within_of_lt (by omega)]
    exact value_object_zero _
  | _, _, @ValueText.object _ ms cs h, d + 1, rest, _ => by
    obtain ⟨a, t, ha, split, ht⟩ := h.trim
    have long : ms.length ≤ ('"' :: (t ++ '}' :: rest)).length := by
      have := ht.length_le
      rw [List.length_cons] at this ⊢
      rw [List.length_append]
      omega
    have read : Reader.object k.rules (memberStep (value k.rules d)) [] (cs ++ '}' :: rest) =
        within (depthMembers ms) d (ms.reverse ++ [], rest) := by
      rw [← members_complete h d long, split, List.append_assoc, objectMembers_blanks ha]
      exact object_members _ _ ha _
    rw [List.cons_append, List.append_assoc, value_object, List.singleton_append, read, depth]
    by_cases deep : depthMembers ms ≤ d
    · rw [within_of_le deep, within_of_le (by omega), List.append_nil]
      simp only [List.reverse_reverse]
    · rw [within_of_lt (by omega), within_of_lt (by omega)]

/-- of the blanks around a value those behind it are left -/
theorem padded_complete : ∀ {v : Json} {cs : List Char}, PaddedText k v cs → ∀ (d : Nat)
    {rest : List Char}, Ends rest →
      ∃ b, Blanks b ∧ value k.rules d (cs ++ rest) = within v.depth d (v, b ++ rest)
  | _, _, .padded (b := b) ha h hb, d, rest, ends => by
    refine ⟨b, hb, ?_⟩
    rw [List.append_assoc, List.append_assoc, value_blanks ha]
    exact value_complete h d (ends.append hb)

theorem items_complete : ∀ {vs : List Json} {cs : List Char}, ItemsText k vs cs → ∀ (d : Nat)
    {fuel : List Char}, vs.length ≤ fuel.length → ∀ (s : List Json) (rest : List Char),
      listItems (itemStep (value k.rules d)) fuel s (cs ++ ']' :: rest) =
        within (depthItems vs) d (vs.reverse ++ s, rest)
  | _, _, h, _, [], long, _, _ => by
    cases h <;> exact absurd long (Nat.not_succ_le_zero _)
  | _, _, .last (v := v) h, d, x :: fuel, _, s, rest => by
    obtain ⟨b, hb, read⟩ := padded_complete h d (ends_bracket rest)
    rw [depthItems, depthItems, Nat.max_zero]
    by_cases deep : v.depth ≤ d
    · rw [within_of_le deep] at read
      rw [within_of_le deep]
      simp only [listItems, itemStep, read, skipBlank_append hb]
      rfl
    · rw [within_of_lt (by omega)] at read
      rw [within_of_lt (by omega)]
      simp only [listItems, itemStep, read]
  | _, _, @ItemsText.more _ v vs _ ds h hs, d, x :: fuel, long, s, rest => by
    obtain ⟨b, hb, read⟩ := padded_complete h d (ends_comma (ds ++ ']' :: rest))
    rw [depthItems, List.append_assoc, List.cons_append]
    by_cases deep : v.depth ≤ d
    · have next := items_complete hs d (Nat.le_of_succ_le_succ long) (v :: s) rest
      rw [within_of_le deep] at read
      simp only [listItems, itemStep, read, skipBlank_append hb]
      show listItems _ fuel (v :: s) (ds ++ ']' :: rest) = _
      rw [next]
      simp [within, deep]
    · rw [within_of_lt (by omega)] at read
      rw [within_of_lt (by omega)]
      simp only [listItems, itemStep, read]

theorem members_complete : ∀ {ms : List (String × Json)} {cs : List Char}, MembersText k ms cs →
    ∀ (d : Nat) {fuel : List Char}, ms.length ≤ fuel.length →
      ∀ (s : List (String × Json)) (rest : List Char),
        objectMembers k.rules (memberStep (value k.rules d)) fuel s (cs ++ '}' :: rest) =
          within (depthMembers ms) d (ms.reverse ++ s, rest)
  | _, _, h, _, [], long, _, _ => by
    cases h <;> exact absurd long (Nat.not_succ_le_zero _)
  | _, _, @MembersText.last _ key v _ cs hk h, d, x :: fuel, _, s, rest => by
    obtain ⟨ds, first, colon⟩ := key_complete hk (cs ++ '}' :: rest)
    obtain ⟨b, hb, read⟩ := padded_complete h d (ends_brace rest)
    rw [depthMembers, depthMembers, Nat.max_zero, List.append_assoc, List.cons_append]
    by_cases deep : v.depth ≤ d
    · rw [within_of_le deep] at read
      rw [within_of_le deep]
      simp only [objectMembers, memberStep, first, colon, read, skipBlank_append hb]
      rfl
    · rw [within_of_lt (by omega)] at read
      rw [within_of_lt (by omega)]
      simp only [objectMembers, memberStep, first, colon, read]
  | _, _, @MembersText.more _ key v ms _ cs ds hk h hs, d, x :: fuel, long, s, rest => by
    obtain ⟨es, first, colon⟩ := key_complete hk (cs ++ ',' :: (ds ++ '}' :: rest))
    obtain ⟨b, hb, read⟩ := padded_complete h d (ends_comma (ds ++ '}' :: rest))
    rw [depthMembers, List.append_assoc, List.cons_append, List.append_assoc, List.cons_append]
    by_cases deep : v.depth ≤ d
    · have next := members_complete hs d (Nat.le_of_succ_le_succ long) ((key, v) :: s) rest
      rw [within_of_le deep] at read
      simp only [objectMembers, memberStep, first, colon, read, skipBlank_append hb]
      show objectMembers _ _ fuel ((key, v) :: s) (ds ++ '}' :: rest) = _
      rw [next]
      simp [within, deep]
    · rw [within_of_lt (by omega)] at read
      rw [within_of_lt (by omega)]
      simp only [objectMembers, memberStep, first, colon, read]

end

/-! ## What is read has a text -/

/-- values of the given depth are read only from their texts -/
def Sound (k : Care) (d : Nat) : Prop :=
  ∀ {cs rest : List Char} {v : Json}, value k.rules d cs = .ok (v, rest) →
    ∃ a t, Blanks a ∧ cs = a ++ (t ++ rest) ∧ ValueText k v t ∧ v.depth ≤ d

theorem ItemsText.blanks {vs : List Json} {a cs : List Char} (ha : Blanks a)
    (h : ItemsText k vs cs) : ItemsText k vs (a ++ cs) := by
  cases h with
  | last h => exact .last (h.blanks ha)
  | more h hs =>
    rw [← List.append_assoc]
    exact .more (h.blanks ha) hs

theorem KeyText.blanks {key : String} {a ks : List Char} (ha : Blanks a) (h : KeyText k key ks) :
    KeyText k key (a ++ ks) := by
  cases h with
  | padded hb h hc =>
    rw [← List.append_assoc]
    exact .padded (ha.append hb) h hc

theorem MembersText.blanks {ms : List (String × Json)} {a cs : List Char} (ha : Blanks a)
    (h : MembersText k ms cs) : MembersText k ms (a ++ cs) := by
  cases h with
  | last hk h =>
    rw [← List.append_assoc]
    exact .last (hk.blanks ha) h
  | more hk h hs =>
    rw [← List.append_assoc]
    exact .more (hk.blanks ha) h hs

/-- a value and the blanks behind it -/
theorem padded_sound {d : Nat} (sound : Sound k d) {v : Json} {cs rest : List Char}
    (h : value k.rules d cs = .ok (v, rest)) :
    ∃ t, cs = t ++ skipBlank rest ∧ PaddedText k v t ∧ v.depth ≤ d := by
  obtain ⟨a, t, ha, rfl, ht, deep⟩ := sound h
  obtain ⟨b, hb, split⟩ := exists_blanks rest
  refine ⟨a ++ (t ++ b), ?_, .padded ha ht hb, deep⟩
  rw [List.append_assoc, List.append_assoc, ← split]

theorem item_sound {d : Nat} (sound : Sound k d) {s s' : List Json} {cs rest : List Char}
    (h : itemStep (value k.rules d) s cs = .ok (s', rest)) :
    ∃ v t, cs = t ++ skipBlank rest ∧ PaddedText k v t ∧ s' = v :: s ∧ v.depth ≤ d := by
  unfold itemStep at h
  split at h
  · cases h
  · next v r read =>
    cases h
    obtain ⟨t, split, ht, deep⟩ := padded_sound sound read
    exact ⟨v, t, split, ht, rfl, deep⟩

theorem listItems_sound {d : Nat} (sound : Sound k d) {fuel s s' cs rest}
    (h : listItems (itemStep (value k.rules d)) fuel s cs = .ok (s', rest)) :
    ∃ vs t, cs = t ++ ']' :: rest ∧ ItemsText k vs t ∧ s' = vs.reverse ++ s ∧
      depthItems vs ≤ d := by
  induction fuel generalizing s cs with
  | nil => cases h
  | cons x fuel ih =>
    rw [listItems] at h
    split at h
    · cases h
    · next s₁ r₁ first =>
      obtain ⟨v, t, rfl, ht, rfl, deep⟩ := item_sound sound first
      split at h
      · cases h
      · next r₂ close =>
        cases h
        rw [close]
        exact ⟨[v], t, rfl, .last ht, rfl, depthItems_le.mpr (by simpa using deep)⟩
      · next r₂ comma =>
        obtain ⟨vs, ts, rfl, hts, rfl, deeper⟩ := ih h
        rw [comma]
        refine ⟨v :: vs, t ++ ',' :: ts, by simp, .more ht hts, by simp, ?_⟩
        exact max_le deep deeper
      · cases h

theorem list_sound {d : Nat} (sound : Sound k d) {vs cs rest}
    (h : Reader.list (itemStep (value k.rules d)) [] cs = .ok (vs, rest)) :
    ∃ t, cs = t ++ ']' :: rest ∧ ValueText k (.array vs.reverse) ('[' :: (t ++ [']'])) ∧
      depthItems vs.reverse ≤ d := by
  obtain ⟨a, ha, split⟩ := exists_blanks cs
  unfold Reader.list at h
  split at h
  · cases h
  · next r close =>
    cases h
    rw [split, close]
    exact ⟨a, rfl, .emptyArray ha, Nat.zero_le d⟩
  · obtain ⟨vs, t, read, ht, rfl, deep⟩ := listItems_sound sound h
    rw [split, read, List.append_nil, List.reverse_reverse]
    exact ⟨a ++ t, (List.append_assoc a t _).symm, .array (ht.blanks ha), deep⟩

theorem key_sound {key : String} {cs ds rest : List Char}
    (first : memberKey k.rules cs = .ok (key, ds)) (colon : token ':' ds = .ok rest) :
    ∃ ks, KeyText k key ks ∧ cs = ks ++ ':' :: rest := by
  obtain ⟨a, ks, ha, hk, rfl⟩ := memberKey_sound first
  obtain ⟨b, hb, rfl⟩ := token_sound colon
  refine ⟨a ++ (ks ++ b), .padded ha hk hb, ?_⟩
  rw [List.append_assoc, List.append_assoc]

/-- a member and the blanks behind it -/
theorem member_sound {d : Nat} (sound : Sound k d) {s s' : List (String × Json)} {key : String}
    {cs rest ds : List Char} (first : memberKey k.rules cs = .ok (key, ds))
    (h : memberStep (value k.rules d) s key ds = .ok (s', rest)) :
    ∃ v ks t, cs = ks ++ ':' :: (t ++ skipBlank rest) ∧ KeyText k key ks ∧ PaddedText k v t ∧
      s' = (key, v) :: s ∧ v.depth ≤ d := by
  unfold memberStep at h
  split at h
  · cases h
  · next r₁ colon =>
    obtain ⟨ks, hk, rfl⟩ := key_sound first colon
    split at h
    · cases h
    · next v r read =>
      cases h
      obtain ⟨t, rfl, ht, deep⟩ := padded_sound sound read
      exact ⟨v, ks, t, rfl, hk, ht, rfl, deep⟩

theorem objectMembers_sound {d : Nat} (sound : Sound k d) {fuel s s' cs rest}
    (h : objectMembers k.rules (memberStep (value k.rules d)) fuel s cs = .ok (s', rest)) :
    ∃ ms t, cs = t ++ '}' :: rest ∧ MembersText k ms t ∧ s' = ms.reverse ++ s ∧
      depthMembers ms ≤ d := by
  induction fuel generalizing s cs with
  | nil => cases h
  | cons x fuel ih =>
    rw [objectMembers] at h
    split at h
    · cases h
    · next key r₀ first =>
      split at h
      · cases h
      · next s₁ r₁ read =>
        obtain ⟨v, ks, t, rfl, hk, ht, rfl, deep⟩ := member_sound sound first read
        split at h
        · cases h
        · next r₂ close =>
          cases h
          rw [close]
          refine ⟨[(key, v)], ks ++ ':' :: t, by simp, .last hk ht, rfl, ?_⟩
          exact depthMembers_le.mpr (by simpa using deep)
        · next r₂ comma =>
          obtain ⟨ms, ts, rfl, hts, rfl, deeper⟩ := ih h
          rw [comma]
          refine ⟨(key, v) :: ms, ks ++ ':' :: (t ++ ',' :: ts), by simp, .more hk ht hts,
            by simp, ?_⟩
          exact max_le deep deeper
        · cases h

theorem object_sound {d : Nat} (sound : Sound k d) {ms cs rest}
    (h : Reader.object k.rules (memberStep (value k.rules d)) [] cs = .ok (ms, rest)) :
    ∃ t, cs = t ++ '}' :: rest ∧ ValueText k (.object ms.reverse) ('{' :: (t ++ ['}'])) ∧
      depthMembers ms.reverse ≤ d := by
  obtain ⟨a, ha, split⟩ := exists_blanks cs
  unfold Reader.object at h
  split at h
  · cases h
  · next r close =>
    cases h
    rw [split, close]
    exact ⟨a, rfl, .emptyObject ha, Nat.zero_le d⟩
  · obtain ⟨ms, t, read, ht, rfl, deep⟩ := objectMembers_sound sound h
    rw [split, read, List.append_nil, List.reverse_reverse]
    exact ⟨a ++ t, (List.append_assoc a t _).symm, .object (ht.blanks ha), deep⟩

theorem keyword_sound {letters : String} {v w : Json} {cs rest : List Char}
    (h : keyword letters v cs = .ok (w, rest)) : w = v ∧ cs = letters.toList ++ rest := by
  unfold keyword at h
  split at h
  · cases h
  · next r read =>
    cases h
    exact ⟨rfl, eq_append_of_word read⟩

/-- the cases of a value, lists and objects being left to readers of their items -/
theorem value_sound_of {d : Nat} (below : ∀ e, d = e + 1 → Sound k e) : Sound k d := by
  intro cs rest v h
  obtain ⟨a, ha, split⟩ := exists_blanks cs
  -- the blanks in front are the same in all cases
  rw [value.eq_def] at h
  dsimp only at h
  suffices ∃ t, skipBlank cs = t ++ rest ∧ ValueText k v t ∧ v.depth ≤ d by
    obtain ⟨t, ht, text⟩ := this
    rw [ht] at split
    exact ⟨a, t, ha, split, text⟩
  split at h
  · cases h
  · next r first =>
    obtain ⟨rfl, rfl⟩ := keyword_sound h
    exact ⟨_, first, .null, Nat.zero_le d⟩
  · next r first =>
    obtain ⟨rfl, rfl⟩ := keyword_sound h
    exact ⟨_, first, .yes, Nat.zero_le d⟩
  · next r first =>
    obtain ⟨rfl, rfl⟩ := keyword_sound h
    exact ⟨_, first, .no, Nat.zero_le d⟩
  · next r first =>
    split at h
    · cases h
    · next s r' read =>
      cases h
      obtain ⟨t, ht, rfl⟩ := stringRest_sound read
      exact ⟨_, by rw [first]; simp, .string ht, Nat.zero_le d⟩
  · next r first =>
    cases d with
    | zero => cases h
    | succ e =>
      dsimp only at h
      split at h
      · cases h
      · next vs r' read =>
        cases h
        obtain ⟨t, rfl, ht, deep⟩ := list_sound (below e rfl) read
        refine ⟨_, by rw [first]; simp, ht, ?_⟩
        rw [depth]
        omega
  · next r first =>
    cases d with
    | zero => cases h
    | succ e =>
      dsimp only at h
      split at h
      · cases h
      · next ms r' read =>
        cases h
        obtain ⟨t, rfl, ht, deep⟩ := object_sound (below e rfl) read
        refine ⟨_, by rw [first]; simp, ht, ?_⟩
        rw [depth]
        omega
  · next c r _ _ _ _ _ _ first =>
    split at h
    · split at h
      · cases h
      · next n r' read =>
        cases h
        obtain ⟨t, ht, range, text⟩ := number_sound read
        refine ⟨t, first.trans text, .number ht fun care => ?_, Nat.zero_le d⟩
        exact range (Care.bounded_rules.mpr care)
    · cases h

/-- what is read has a text, and is not too deep -/
theorem value_sound (k : Care) (d : Nat) : Sound k d := by
  induction d with
  | zero => exact value_sound_of fun e h => absurd h (Nat.succ_ne_zero e).symm
  | succ d ih =>
    refine value_sound_of fun e h => ?_
    cases h
    exact ih

/-! ## Values that are passed over

Their reader goes as deep as the text is long, and no value is nested deeper than that. -/

mutual

theorem ValueText.depth_le : ∀ {v : Json} {cs : List Char}, ValueText k v cs →
    v.depth ≤ cs.length
  | _, _, .null => Nat.zero_le _
  | _, _, .yes => Nat.zero_le _
  | _, _, .no => Nat.zero_le _
  | _, _, .number _ _ => Nat.zero_le _
  | _, _, .string _ => Nat.zero_le _
  | _, _, .emptyArray _ => Nat.le_add_left 1 _
  | _, _, .array h => by
    have items := h.depth_le
    rw [depth, List.length_cons, List.length_append]
    omega
  | _, _, .emptyObject _ => Nat.le_add_left 1 _
  | _, _, .object h => by
    have members := h.depth_le
    rw [depth, List.length_cons, List.length_append]
    omega

theorem PaddedText.depth_le : ∀ {v : Json} {cs : List Char}, PaddedText k v cs →
    v.depth ≤ cs.length
  | _, _, .padded _ h _ => by
    have value := h.depth_le
    rw [List.length_append, List.length_append]
    omega

theorem ItemsText.depth_le : ∀ {vs : List Json} {cs : List Char}, ItemsText k vs cs →
    depthItems vs ≤ cs.length
  | _, _, .last h => max_le h.depth_le (Nat.zero_le _)
  | _, _, .more h hs => by
    have first := h.depth_le
    have others := hs.depth_le
    rw [depthItems, List.length_append, List.length_cons]
    omega

theorem MembersText.depth_le : ∀ {ms : List (String × Json)} {cs : List Char},
    MembersText k ms cs → depthMembers ms ≤ cs.length
  | _, _, .last hk h => by
    have value := h.depth_le
    rw [depthMembers, depthMembers, List.length_append, List.length_cons]
    omega
  | _, _, .more hk h hs => by
    have first := h.depth_le
    have others := hs.depth_le
    rw [depthMembers, List.length_append, List.length_cons, List.length_append, List.length_cons]
    omega

end

/-- a value is passed over to the blanks behind it -/
theorem skimmed_complete {v : Json} {cs rest : List Char} (h : PaddedText .loose v cs)
    (ends : Ends rest) : ∃ b, Blanks b ∧ skimmed (cs ++ rest) = .ok ((), b ++ rest) := by
  obtain ⟨b, hb, read⟩ := padded_complete h (cs ++ rest).length ends
  have deep : v.depth ≤ (cs ++ rest).length := by
    have := h.depth_le
    rw [List.length_append]
    omega
  rw [within_of_le deep] at read
  refine ⟨b, hb, ?_⟩
  unfold skimmed
  rw [show Rules.skimmed = Care.loose.rules from rfl, read]

/-- what is passed over is a value -/
theorem skimmed_sound {cs rest : List Char} (h : skimmed cs = .ok ((), rest)) :
    ∃ v t, cs = t ++ skipBlank rest ∧ PaddedText .loose v t := by
  unfold skimmed at h
  split at h
  · cases h
  · next v r read =>
    cases h
    obtain ⟨t, split, ht, -⟩ := padded_sound (value_sound .loose _) read
    exact ⟨v, t, split, ht⟩

end Grammar

/-! ## Whole texts -/

open Grammar Reader

/-- what reads a whole text leaves blanks only -/
theorem whole_eq_ok_iff {α : Type} {reading : Reading α} {text : String} {x : α} :
    whole reading text = .ok x ↔ ∃ b, Blanks b ∧ reading text.toList = .ok (x, b) := by
  unfold whole
  constructor
  · intro h
    split at h
    · cases h
    · next y rest read =>
      split at h
      · next blank =>
        cases h
        exact ⟨rest, List.dropWhile_eq_nil_iff.mp (List.isEmpty_iff.mp blank), read⟩
      · cases h
  · rintro ⟨b, hb, read⟩
    have nothing : skipBlank b = [] := List.dropWhile_eq_nil_iff.mpr hb
    rw [read]
    dsimp only
    rw [nothing]
    rfl

/-- the value of a text is read, and blanks are left -/
theorem value_of_text {v : Json} {text : String} (h : Text v text) (d : Nat) :
    ∃ b, Blanks b ∧ value .strict d text.toList = within v.depth d (v, b) := by
  have last : Ends [] := fun c hc => by cases hc
  obtain ⟨b, hb, read⟩ := padded_complete h d last
  rw [List.append_nil, List.append_nil] at read
  exact ⟨b, hb, read⟩

/-- a text is read as its value, unless that is too deep -/
theorem read_of_text {v : Json} {text : String} (h : Text v text) :
    read text = within v.depth depthLimit v := by
  obtain ⟨b, hb, read⟩ := value_of_text h depthLimit
  by_cases deep : v.depth ≤ depthLimit
  · rw [within_of_le deep] at read ⊢
    exact whole_eq_ok_iff.mpr ⟨b, hb, read⟩
  · rw [within_of_lt (by omega)] at read ⊢
    unfold Json.read whole
    rw [read]

theorem text_of_read {v : Json} {text : String} (h : read text = .ok v) :
    Text v text ∧ v.depth ≤ depthLimit := by
  obtain ⟨b, hb, read⟩ := whole_eq_ok_iff.mp h
  obtain ⟨a, t, ha, split, ht, deep⟩ := value_sound .exact depthLimit read
  refine ⟨?_, deep⟩
  unfold Text
  rw [split]
  exact .padded ha ht hb

/-- **The reader accepts the grammar.** -/
theorem read_eq_ok_iff {v : Json} {text : String} :
    read text = .ok v ↔ Text v text ∧ v.depth ≤ depthLimit := by
  constructor
  · exact text_of_read
  · rintro ⟨h, deep⟩
    rw [read_of_text h, within_of_le deep]

/-- a text has one value -/
theorem text_unique {v w : Json} {text : String} (hv : Text v text) (hw : Text w text) :
    v = w := by
  -- read as deep as both of them go
  obtain ⟨a, _, readv⟩ := value_of_text hv (max v.depth w.depth)
  obtain ⟨b, _, readw⟩ := value_of_text hw (max v.depth w.depth)
  rw [within_of_le (Nat.le_max_left _ _)] at readv
  rw [within_of_le (Nat.le_max_right _ _)] at readw
  exact congrArg Prod.fst (Except.ok.inj (readv.symm.trans readw))

end Json
end Chance
