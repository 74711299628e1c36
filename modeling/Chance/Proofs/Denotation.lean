import Chance.Proofs.Parsing
import Chance.Program.Reading

/-!
# What a text denotes

The program of a JSON value as a relation, stated by where the keys of an object stand and not by
the reader's choices, and the texts that are read as a program: those of a value that denotes one
and is nested no deeper than the reader goes.

* `Sole`, `Absent`          a key that stands once, a key that does not stand;
* `Denotes`                 the program of a value;
* `ofJson?_eq_some_iff`     the reader's choice is that program;
* `read_eq_ok_iff`          the texts that are read, as a condition on `Json.read`;
* `read_denotes`            the same as a condition on the text, with the faults of all others.
-/

namespace Chance
namespace Program

/-- the key does not stand -/
def Absent (key : String) (members : List (String × Json)) : Prop :=
  ∀ m ∈ members, m.1 ≠ key

/-- the key stands once, with this value -/
inductive Sole (key : String) : List (String × Json) → Json → Prop
  | amid {before after : List (String × Json)} {v : Json} (hb : Absent key before)
      (ha : Absent key after) : Sole key (before ++ (key, v) :: after) v

/-- the two ways to write an operation -/
inductive Names : Json → Operation → Prop
  | bare (op : Operation) : Names (.string op.name) op
  | keyed (op : Operation) : Names (.object [(op.name, .null)]) op

mutual

/-- The program of a value.  A constant is told by its key, whatever else the object holds. -/
inductive Denotes : Json → Program → Prop
  | const {members : List (String × Json)} {v : Json} (h : Sole "const" members v) :
      Denotes (.object members) (.const v.plain)
  | bareCall {members : List (String × Json)} {w : Json} {op : Operation}
      (other : ∀ v, ¬ Sole "const" members v) (h : Sole "op" members w) (name : Names w op)
      (none : Absent "args" members) : Denotes (.object members) (.call op [])
  | call {members : List (String × Json)} {w : Json} {op : Operation} {items : List Json}
      {args : List Program} (other : ∀ v, ¬ Sole "const" members v) (h : Sole "op" members w)
      (name : Names w op) (list : Sole "args" members (.array items))
      (each : DenoteAll items args) : Denotes (.object members) (.call op args)

inductive DenoteAll : List Json → List Program → Prop
  | nil : DenoteAll [] []
  | cons {v : Json} {vs : List Json} {p : Program} {ps : List Program} (h : Denotes v p)
      (hs : DenoteAll vs ps) : DenoteAll (v :: vs) (p :: ps)

end

/-! ## Keys -/

theorem lacks_eq_true_iff {key : String} {members : List (String × Json)} :
    lacks key members = true ↔ Absent key members := by
  simp [lacks, Absent]

theorem filter_eq_nil_iff {key : String} {members : List (String × Json)} :
    (members.filter fun m => m.1 == key) = [] ↔ Absent key members := by
  simp [List.filter_eq_nil_iff, Absent]

theorem only?_of_sole {key : String} {members : List (String × Json)} {v : Json}
    (h : Sole key members v) : only? key members = some v := by
  cases h with
  | amid hb ha =>
    unfold only?
    rw [List.filter_append, filter_eq_nil_iff.mpr hb, List.nil_append,
      List.filter_cons_of_pos (by exact beq_self_eq_true key), filter_eq_nil_iff.mpr ha]

theorem sole_of_only? {key : String} {members : List (String × Json)} {v : Json}
    (h : only? key members = some v) : Sole key members v := by
  unfold only? at h
  split at h
  · next m one =>
    cases h
    obtain ⟨before, after, rfl, hb, hm, ha⟩ := List.filter_eq_cons_iff.mp one
    have same : m.1 = key := beq_iff_eq.mp hm
    have behind : Absent key after := filter_eq_nil_iff.mp ha
    have front : Absent key before := by
      intro x hx
      simpa using hb x hx
    obtain ⟨k, w⟩ := m
    cases same
    exact .amid front behind
  · cases h

theorem only?_eq_some_iff {key : String} {members : List (String × Json)} {v : Json} :
    only? key members = some v ↔ Sole key members v := ⟨sole_of_only?, only?_of_sole⟩

theorem only?_eq_none_iff {key : String} {members : List (String × Json)} :
    only? key members = none ↔ ∀ v, ¬ Sole key members v := by
  rw [Option.eq_none_iff_forall_ne_some]
  exact forall_congr' fun v => not_congr only?_eq_some_iff

theorem Sole.mem {key : String} {members : List (String × Json)} {v : Json}
    (h : Sole key members v) : (key, v) ∈ members := by
  cases h
  exact List.mem_append_right _ List.mem_cons_self

theorem Absent.not_sole {key : String} {members : List (String × Json)}
    (h : Absent key members) (v : Json) : ¬ Sole key members v := by
  intro sole
  exact h (key, v) sole.mem rfl

/-! ## Operations -/

theorem name_of_ofName? {name : String} {op : Operation} (h : Operation.ofName? name = some op) :
    name = op.name := by
  have found := List.find?_some h
  exact (beq_iff_eq.mp found).symm

theorem operation?_eq_some_iff {w : Json} {op : Operation} :
    operation? w = some op ↔ Names w op := by
  constructor
  · intro h
    unfold operation? at h
    split at h
    · rw [name_of_ofName? h]
      exact .bare op
    · rw [name_of_ofName? h]
      exact .keyed op
    · cases h
  · intro h
    cases h with
    | bare => exact Operation.ofName?_name op
    | keyed => exact Operation.ofName?_name op

/-! ## Operands -/

theorem operands_eq_map (members : List (String × Json)) :
    operands members = members.map fun (m : String × Json) => (m.1, ofOperands? m.2) := by
  induction members with
  | nil => rfl
  | cons m rest ih =>
    obtain ⟨k, v⟩ := m
    rw [operands, ih]
    rfl

theorem lacks_operands (key : String) (members : List (String × Json)) :
    lacks key (operands members) = lacks key members := by
  rw [operands_eq_map]
  unfold lacks
  rw [List.all_map]
  rfl

theorem only?_operands (key : String) (members : List (String × Json)) :
    only? key (operands members) = (only? key members).map ofOperands? := by
  rw [operands_eq_map]
  unfold only?
  rw [List.filter_map]
  have same : members.filter ((fun m => m.1 == key) ∘ fun m => (m.1, ofOperands? m.2)) =
      members.filter fun m => m.1 == key := rfl
  rw [same]
  generalize members.filter (fun m => m.1 == key) = found
  rcases found with - | ⟨m, - | ⟨n, more⟩⟩ <;> rfl

/-- what the reader makes of an object that is no constant -/
theorem call?_eq_some_iff {members : List (String × Json)} {p : Program} :
    call? members (operands members) = some p ↔
      ∃ w op, Sole "op" members w ∧ Names w op ∧
        ((Absent "args" members ∧ p = .call op []) ∨
          ∃ u args, Sole "args" members u ∧ ofOperands? u = some args ∧ p = .call op args) := by
  unfold call?
  rw [lacks_operands, only?_operands]
  constructor
  · intro h
    split at h
    · cases h
    · next op named =>
      obtain ⟨w, hw, name⟩ := Option.bind_eq_some_iff.mp named
      refine ⟨w, op, sole_of_only? hw, operation?_eq_some_iff.mp name, ?_⟩
      split at h
      · next absent =>
        cases h
        exact .inl ⟨lacks_eq_true_iff.mp absent, rfl⟩
      · split at h
        · next args given =>
          cases h
          obtain ⟨u, hu, each⟩ := Option.map_eq_some_iff.mp given
          exact .inr ⟨u, args, sole_of_only? hu, each, rfl⟩
        · cases h
  · rintro ⟨w, op, hw, name, given⟩
    have named : (only? "op" members).bind operation? = some op := by
      rw [only?_of_sole hw]
      exact operation?_eq_some_iff.mpr name
    rw [named]
    rcases given with ⟨absent, rfl⟩ | ⟨u, args, hu, each, rfl⟩
    · exact if_pos (lacks_eq_true_iff.mpr absent)
    · have present : ¬ lacks "args" members = true := fun h =>
        (lacks_eq_true_iff.mp h).not_sole u hu
      dsimp only
      rw [if_neg present, only?_of_sole hu, Option.map_some, each]

/-- only lists are operands -/
theorem operands_iff_of_none {v : Json} {args : List Program} (none : ofOperands? v = none)
    (other : ∀ items, v ≠ .array items) :
    ofOperands? v = some args ↔ ∃ items, v = .array items ∧ DenoteAll items args := by
  rw [none]
  constructor
  · intro h
    cases h
  · rintro ⟨items, same, -⟩
    exact absurd same (other items)

mutual

/-- **The reader's choice.**  A value is read as the program it denotes, if it denotes one. -/
theorem ofJson?_eq_some_iff : ∀ (v : Json) {p : Program}, ofJson? v = some p ↔ Denotes v p
  | .null, p => by constructor <;> intro h <;> cases h
  | .bool _, p => by constructor <;> intro h <;> cases h
  | .number _, p => by constructor <;> intro h <;> cases h
  | .string _, p => by constructor <;> intro h <;> cases h
  | .array _, p => by constructor <;> intro h <;> cases h
  | .object members, p => by
    have operand := ofOperands?_of_mem members
    rw [ofJson?]
    split
    · next v hv =>
      constructor
      · intro h
        cases h
        exact .const (sole_of_only? hv)
      · intro h
        cases h with
        | const h =>
          rw [only?_of_sole h] at hv
          cases hv
          rfl
        | bareCall other _ _ _ => exact absurd (sole_of_only? hv) (other v)
        | call other _ _ _ _ => exact absurd (sole_of_only? hv) (other v)
    · next hv =>
      have other := only?_eq_none_iff.mp hv
      rw [call?_eq_some_iff]
      constructor
      · rintro ⟨w, op, hop, name, ⟨absent, rfl⟩ | ⟨u, args, hu, given, rfl⟩⟩
        · exact .bareCall other hop name absent
        · obtain ⟨items, rfl, each⟩ := (operand _ hu.mem).mp given
          exact .call other hop name hu each
      · intro h
        cases h with
        | const h => exact absurd h (other _)
        | bareCall _ hop name absent => exact ⟨_, _, hop, name, .inl ⟨absent, rfl⟩⟩
        | call _ hop name hu each =>
          exact ⟨_, _, hop, name, .inr ⟨_, _, hu, (operand _ hu.mem).mpr ⟨_, rfl, each⟩, rfl⟩⟩

theorem ofItems?_eq_some_iff : ∀ (vs : List Json) {ps : List Program},
    ofItems? vs = some ps ↔ DenoteAll vs ps
  | [], ps => by
    rw [ofItems?]
    constructor
    · intro h
      cases h
      exact .nil
    · intro h
      cases h
      rfl
  | v :: vs, ps => by
    have first := @ofJson?_eq_some_iff v
    have others := @ofItems?_eq_some_iff vs
    rw [ofItems?]
    constructor
    · intro h
      split at h
      · next hp hps =>
        cases h
        exact .cons (first.mp hp) (others.mp hps)
      · cases h
    · intro h
      cases h with
      | cons hp hps => rw [first.mpr hp, others.mpr hps]

theorem ofOperands?_eq_some_iff : ∀ (v : Json) {args : List Program},
    ofOperands? v = some args ↔ ∃ items, v = .array items ∧ DenoteAll items args
  | .array items, args => by
    rw [ofOperands?, ofItems?_eq_some_iff items]
    constructor
    · intro h
      exact ⟨items, rfl, h⟩
    · rintro ⟨_, same, h⟩
      cases same
      exact h
  | .null, _ => operands_iff_of_none rfl fun _ h => by cases h
  | .bool _, _ => operands_iff_of_none rfl fun _ h => by cases h
  | .number _, _ => operands_iff_of_none rfl fun _ h => by cases h
  | .string _, _ => operands_iff_of_none rfl fun _ h => by cases h
  | .object _, _ => operands_iff_of_none rfl fun _ h => by cases h

theorem ofOperands?_of_mem : ∀ (members : List (String × Json)), ∀ m ∈ members,
    ∀ {args : List Program},
      ofOperands? m.2 = some args ↔ ∃ items, m.2 = .array items ∧ DenoteAll items args
  | (_, v) :: rest, m, h, _ => by
    rcases List.mem_cons.mp h with rfl | h
    · exact ofOperands?_eq_some_iff v
    · exact ofOperands?_of_mem rest m h

end

/-- a value denotes one program -/
theorem Denotes.unique {v : Json} {p q : Program} (hp : Denotes v p) (hq : Denotes v q) :
    p = q := by
  rw [← ofJson?_eq_some_iff] at hp hq
  exact Option.some.inj (hp.symm.trans hq)

/-! ## Whole texts -/

open Json.Grammar (within within_of_le within_of_lt)

/-- reading a program is reading JSON first -/
theorem read_of_json {text : String} {v : Json} (h : Json.read text = .ok v) :
    read text = match ofJson? v with
      | some p => .ok p
      | none => .error .misshapen := by
  unfold Json.read Json.Reader.whole at h
  unfold read Json.Reader.whole reading
  split at h
  · cases h
  · next w rest first =>
    split at h
    · next blank =>
      cases h
      rw [first]
      dsimp only
      cases ofJson? v with
      | none => rfl
      | some p => exact if_pos blank
    · cases h

theorem json_of_read {text : String} {p : Program} (h : read text = .ok p) :
    ∃ v, Json.read text = .ok v ∧ ofJson? v = some p := by
  unfold read Json.Reader.whole reading at h
  unfold Json.read Json.Reader.whole
  cases first : Json.Reader.value .strict Json.Reader.depthLimit text.toList with
  | error f =>
    rw [first] at h
    cases h
  | ok r =>
    obtain ⟨v, rest⟩ := r
    rw [first] at h
    dsimp only at h ⊢
    cases hv : ofJson? v with
    | none =>
      rw [hv] at h
      cases h
    | some q =>
      rw [hv] at h
      dsimp only at h
      split at h
      · next blank =>
        cases h
        exact ⟨v, if_pos blank, hv⟩
      · cases h

theorem read_eq_ok_iff {text : String} {p : Program} :
    read text = .ok p ↔ ∃ v, Json.read text = .ok v ∧ Denotes v p := by
  constructor
  · intro h
    obtain ⟨v, read, hv⟩ := json_of_read h
    exact ⟨v, read, (ofJson?_eq_some_iff v).mp hv⟩
  · rintro ⟨v, read, denotes⟩
    rw [read_of_json read, (ofJson?_eq_some_iff v).mpr denotes]

/-- a text that is nested too deeply is refused, whatever it denotes -/
theorem read_of_deep {text : String} {v : Json} (h : Json.Text v text)
    (deep : Json.Reader.depthLimit < v.depth) : read text = .error .malformed := by
  obtain ⟨b, -, refused⟩ := Json.value_of_text h Json.Reader.depthLimit
  rw [within_of_lt deep] at refused
  unfold read Json.Reader.whole reading
  rw [refused]

/-- **What is read.**  A text is read as a program just if it is a value that is nested no deeper
than the reader goes and denotes that program; no text has two values, and no value denotes two
programs.  A value that denotes nothing has the wrong shape, one that is nested deeper is
malformed, and a text that is no value has a fault as well. -/
theorem read_denotes (text : String) :
    (∀ p, read text = .ok p ↔
      ∃ v, Json.Text v text ∧ v.depth ≤ Json.Reader.depthLimit ∧ Denotes v p) ∧
    (∀ v w p q, Json.Text v text → Json.Text w text → Denotes v p → Denotes w q →
      v = w ∧ p = q) ∧
    (∀ v, Json.Text v text → v.depth ≤ Json.Reader.depthLimit → (∀ p, ¬ Denotes v p) →
      read text = .error .misshapen) ∧
    (∀ v, Json.Text v text → Json.Reader.depthLimit < v.depth → read text = .error .malformed) ∧
    ((∀ v, ¬ Json.Text v text) → ∃ fault, read text = .error fault) := by
  refine ⟨?_, ?_, ?_, fun v => read_of_deep, ?_⟩
  · intro p
    rw [read_eq_ok_iff]
    simp only [Json.read_eq_ok_iff, and_assoc]
  · intro v w p q hv hw hp hq
    cases Json.text_unique hv hw
    exact ⟨rfl, hp.unique hq⟩
  · intro v hv deep nothing
    have shape : ofJson? v = none := by
      rw [Option.eq_none_iff_forall_ne_some]
      intro p hp
      exact nothing p ((ofJson?_eq_some_iff v).mp hp)
    rw [read_of_json (Json.read_eq_ok_iff.mpr ⟨hv, deep⟩), shape]
  · intro nothing
    cases hr : read text with
    | error fault => exact ⟨fault, rfl⟩
    | ok p =>
      obtain ⟨v, read, -⟩ := read_eq_ok_iff.mp hr
      exact absurd (Json.text_of_read read).1 (nothing v)

end Program
end Chance
