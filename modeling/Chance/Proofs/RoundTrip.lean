import Chance.Proofs.Denotation
import Chance.Proofs.NormalForm

/-!
# Programs written and read again

Writing a program and reading the text gives the program back, as long as its text is nested no
deeper than the reader goes.  A program that was read before has constants in normal form and is
written no deeper than it was read, with one exception: a call without operands gets an empty list
of them, which can be the one level too many.

* `IsData`                   constants in normal form, with numbers that can be stored;
* `read_write`               reading undoes writing;
* `isData_of_denotes`        what is read has such constants;
* `BareAt`                   a call without operands inside so many calls;
* `rewritten`                what becomes of a program that is read, written and read again.
-/

namespace Chance

open Json (Storable Sorted)
open Json.Reader (depthLimit)

/-! ## Depth of written programs -/

namespace Program

theorem toJsonAll_eq_map (args : List Program) : toJsonAll args = args.map toJson := by
  induction args with
  | nil => rfl
  | cons a as ih => rw [toJsonAll, ih, List.map_cons]

theorem depth_toJson_const (v : Json) : (const v).toJson.depth = 1 + v.depth := by
  rw [toJson, Json.depth, Json.depthMembers, Json.depthMembers, Nat.max_zero]

theorem depth_toJson_call (op : Operation) (args : List Program) :
    (call op args).toJson.depth = 2 + Json.depthItems (toJsonAll args) := by
  rw [toJson, Json.depth, Json.depthMembers, Json.depthMembers, Json.depthMembers, Json.depth,
    Json.depth]
  omega

/-! ## Reading undoes writing -/

/-- The constants are in normal form, and their numbers can be stored.  No other constants come
from a text. -/
inductive IsData : Program → Prop
  | const {v : Json} (storable : Storable v) (sorted : Sorted v) : IsData (.const v)
  | call {op : Operation} {args : List Program} (h : ∀ a ∈ args, IsData a) :
      IsData (.call op args)

theorem storable_toJson {p : Program} (h : IsData p) : Storable p.toJson := by
  induction h with
  | const storable _ =>
    rw [toJson]
    exact .object (List.forall_mem_singleton.mpr storable)
  | @call op args _ ih =>
    rw [toJson, toJsonAll_eq_map]
    have operands : Storable (.array (args.map toJson)) := by
      refine .array fun v hv => ?_
      obtain ⟨a, ha, rfl⟩ := List.mem_map.mp hv
      exact ih a ha
    refine .object fun m hm => ?_
    rcases List.mem_cons.mp hm with rfl | hm
    · exact .string op.name
    · rw [List.mem_singleton.mp hm]
      exact operands

theorem denoteAll_map {args : List Program} (h : ∀ a ∈ args, Denotes a.toJson a) :
    DenoteAll (args.map toJson) args := by
  induction args with
  | nil => exact .nil
  | cons a as ih =>
    obtain ⟨first, others⟩ := List.forall_mem_cons.mp h
    exact .cons first (ih others)

theorem absent_nil (key : String) : Absent key [] := fun m hm => by cases hm

theorem absent_singleton {key : String} {m : String × Json} (h : m.1 ≠ key) : Absent key [m] := by
  intro n hn
  rw [List.mem_singleton.mp hn]
  exact h

/-- an object of an operation and its operands -/
theorem denotes_call {w : Json} {op : Operation} {items : List Json} {args : List Program}
    (name : Names w op) (each : DenoteAll items args) :
    Denotes (.object [("op", w), ("args", .array items)]) (.call op args) := by
  have other : Absent "const" [("op", w), ("args", .array items)] := by
    intro m hm
    rcases List.mem_cons.mp hm with rfl | hm
    · show "op" ≠ "const"
      decide
    · rw [List.mem_singleton.mp hm]
      show "args" ≠ "const"
      decide
  have first : Sole "op" [("op", w), ("args", .array items)] w :=
    @Sole.amid "op" [] _ w (absent_nil "op") (absent_singleton (by show "args" ≠ "op"; decide))
  have second : Sole "args" [("op", w), ("args", .array items)] (.array items) :=
    @Sole.amid "args" [("op", w)] [] _ (absent_singleton (by show "op" ≠ "args"; decide))
      (absent_nil "args")
  exact .call other.not_sole first name second each

/-- a program is written as a value that denotes it -/
theorem denotes_toJson {p : Program} (h : IsData p) : Denotes p.toJson p := by
  induction h with
  | @const v _ sorted =>
    have denoted := Denotes.const (Sole.amid (v := v) (absent_nil "const") (absent_nil "const"))
    rwa [Json.plain_of_sorted sorted] at denoted
  | @call op args _ ih =>
    rw [toJson, toJsonAll_eq_map]
    exact denotes_call (.bare op) (denoteAll_map ih)

theorem sameAll_self {args : List Program} (h : ∀ a ∈ args, a.same a = true) :
    sameAll args args = true := by
  induction args with
  | nil => rfl
  | cons a as ih =>
    obtain ⟨first, others⟩ := List.forall_mem_cons.mp h
    rw [sameAll, first, ih others, Bool.and_true]

theorem same_self {p : Program} (h : IsData p) : p.same p = true := by
  induction h with
  | const storable _ => exact Json.same_self storable
  | call _ ih =>
    rw [same, sameAll_self ih, beq_self_eq_true, Bool.and_true]

theorem text_write {p : Program} (h : IsData p) : Json.Text p.toJson p.write :=
  Json.text_compact (storable_toJson h)

theorem read_write_of_depth_le {p : Program} (data : IsData p)
    (shallow : p.toJson.depth ≤ depthLimit) : read p.write = .ok p := by
  refine read_eq_ok_iff.mpr ⟨p.toJson, ?_, denotes_toJson data⟩
  exact Json.read_eq_ok_iff.mpr ⟨text_write data, shallow⟩

theorem read_write_of_depth_gt {p : Program} (data : IsData p)
    (deep : depthLimit < p.toJson.depth) : read p.write = .error .malformed :=
  read_of_deep (text_write data) deep

/-- **Reading undoes writing.**  A program whose text is nested no deeper than the reader goes is
read back from it, equal to what was written and of the same size. -/
theorem read_write {p : Program} (data : IsData p) (shallow : p.toJson.depth ≤ depthLimit) :
    ∃ q, read p.write = .ok q ∧ q = p ∧ p.same q = true ∧ q.size = p.size :=
  ⟨p, read_write_of_depth_le data shallow, rfl, same_self data, rfl⟩

/-- constants of every shape, one of them with the keys of a call -/
def everyShape : Program :=
  .call .add [
    .const (.array [.null, .bool true, .number (.integer (-2 ^ 63)),
      .number (.integer (2 ^ 64 - 1)), .number (.float (-0.0)), .number (.float 0.1), .string "a\"\\\n\x00é😀"]),
    .call .flip [],
    .const (.object [("args", .array []), ("const", .null), ("op", .string "add")])]

theorem isData_everyShape : IsData everyShape := by
  refine .call ?_
  simp only [List.forall_mem_cons]
  refine ⟨.const ?_ ?_, .call (fun a ha => by cases ha), .const ?_ ?_, fun a ha => by cases ha⟩
  · refine .array ?_
    simp only [List.forall_mem_cons]
    exact ⟨.null, .bool true, .number (by decide), .number (by decide), .number (by decide),
      .number (by decide), .string _, fun v hv => by cases hv⟩
  · refine .array ?_
    simp only [List.forall_mem_cons]
    exact ⟨.null, .bool true, .number _, .number _, .number _, .number _, .string _,
      fun v hv => by cases hv⟩
  · refine .object ?_
    simp only [List.forall_mem_cons]
    exact ⟨.array (fun v hv => by cases hv), .null, .string _, fun v hv => by cases hv⟩
  · refine .object ?_ (by decide)
    simp only [List.forall_mem_cons]
    exact ⟨.array (fun v hv => by cases hv), .null, .string _, fun v hv => by cases hv⟩

/-- the constants of every shape are read back -/
theorem read_write_everyShape : IsData everyShape ∧ everyShape.toJson.depth ≤ depthLimit ∧
    ∃ q, read everyShape.write = .ok q ∧ q = everyShape ∧ everyShape.same q = true ∧
      q.size = everyShape.size :=
  ⟨isData_everyShape, by decide, read_write isData_everyShape (by decide)⟩

end Program

/-! ## What was read -/

namespace Json
namespace Grammar

open Reader

theorem storable_integerNumber {negative : Bool} {n : Nat}
    (h : (integerNumber negative n).inRange = true) : (integerNumber negative n).Storable := by
  unfold integerNumber at h ⊢
  split_ifs at h ⊢ with minus small large
  · show -2 ^ 63 ≤ (-(n : Int)) ∧ (-(n : Int)) < 2 ^ 64
    omega
  · exact h
  · have : n < 18446744073709551616 := large
    show -2 ^ 63 ≤ (n : Int) ∧ (n : Int) < 2 ^ 64
    omega
  · exact h

theorem storable_numberText {n : Number} {cs : List Char} (h : NumberText n cs)
    (range : n.inRange = true) : n.Storable := by
  have parts {negative : Bool} {whole : List Char} {fraction : Option (List Char)}
      {exponent : Option Int}
      (range : (Reader.numberOf negative whole fraction exponent).inRange = true) :
      (Reader.numberOf negative whole fraction exponent).Storable := by
    unfold Reader.numberOf at range ⊢
    split at range
    · exact storable_integerNumber range
    · exact range
  cases h with
  | positive _ => exact parts range
  | negative _ => exact parts range

mutual

/-- the numbers of a text can be stored -/
theorem storable_of_valueText : ∀ {v : Json} {cs : List Char}, ValueText .exact v cs →
    Storable v
  | _, _, .null => .null
  | _, _, .yes => .bool true
  | _, _, .no => .bool false
  | _, _, .number h range => .number (storable_numberText h (range rfl))
  | _, _, .string _ => .string _
  | _, _, .emptyArray _ => .array fun v hv => by cases hv
  | _, _, .array h => .array (storable_of_itemsText h)
  | _, _, .emptyObject _ => .object fun m hm => by cases hm
  | _, _, .object h => .object (storable_of_membersText h)

theorem storable_of_paddedText : ∀ {v : Json} {cs : List Char}, PaddedText .exact v cs →
    Storable v
  | _, _, .padded _ h _ => storable_of_valueText h

theorem storable_of_itemsText : ∀ {vs : List Json} {cs : List Char}, ItemsText .exact vs cs →
    ∀ v ∈ vs, Storable v
  | _, _, .last h => List.forall_mem_singleton.mpr (storable_of_paddedText h)
  | _, _, .more h hs =>
    List.forall_mem_cons.mpr ⟨storable_of_paddedText h, storable_of_itemsText hs⟩

theorem storable_of_membersText : ∀ {ms : List (String × Json)} {cs : List Char},
    MembersText .exact ms cs → ∀ m ∈ ms, Storable m.2
  | _, _, .last _ h => List.forall_mem_singleton.mpr (storable_of_paddedText h)
  | _, _, .more _ h hs =>
    List.forall_mem_cons.mpr ⟨storable_of_paddedText h, storable_of_membersText hs⟩

end

end Grammar
end Json

namespace Program

theorem storable_of_sole {key : String} {members : List (String × Json)} {v : Json}
    (h : Sole key members v) (storable : Storable (.object members)) : Storable v := by
  cases storable with
  | object each => exact each (key, v) h.mem

mutual

/-- a value with storable numbers denotes a program with constants in normal form -/
theorem isData_of_denotes : ∀ {v : Json} {p : Program}, Denotes v p → Storable v → IsData p
  | _, _, .const h, storable =>
    .const (Json.storable_plain (storable_of_sole h storable)) (Json.sorted_plain _)
  | _, _, .bareCall _ _ _ _, _ => .call fun a ha => by cases ha
  | _, _, .call _ _ _ list each, storable =>
    .call (isData_of_denoteAll each (storable_of_sole list storable))

theorem isData_of_denoteAll : ∀ {items : List Json} {args : List Program},
    DenoteAll items args → Storable (.array items) → ∀ a ∈ args, IsData a
  | _, _, .nil, _ => fun a ha => by cases ha
  | _, _, .cons h hs, storable => by
    cases storable with
    | array each =>
      obtain ⟨first, others⟩ := List.forall_mem_cons.mp each
      exact List.forall_mem_cons.mpr
        ⟨isData_of_denotes h first, isData_of_denoteAll hs (.array others)⟩

end

theorem isData_of_read {text : String} {p : Program} (h : read text = .ok p) : IsData p := by
  obtain ⟨v, read, denotes⟩ := read_eq_ok_iff.mp h
  exact isData_of_denotes denotes (Json.Grammar.storable_of_paddedText (Json.text_of_read read).1)

/-! ## How deep a program is written again -/

/-- a call without operands stands inside so many calls -/
inductive BareAt : Nat → Program → Prop
  | here (op : Operation) : BareAt 0 (.call op [])
  | inside {k : Nat} {op : Operation} {args : List Program} {a : Program} (ha : a ∈ args)
      (h : BareAt k a) : BareAt (k + 1) (.call op args)

/-- the list that the call gets is this deep -/
theorem BareAt.depth_ge {k : Nat} {p : Program} (h : BareAt k p) : 2 * k + 2 ≤ p.toJson.depth := by
  induction h with
  | here op =>
    rw [depth_toJson_call]
    exact Nat.le_refl 2
  | @inside k op args a ha _ ih =>
    have below : a.toJson.depth ≤ Json.depthItems (toJsonAll args) := by
      rw [toJsonAll_eq_map]
      exact Json.depthItems_le.mp le_rfl _ (List.mem_map_of_mem ha)
    rw [depth_toJson_call]
    omega

theorem depth_of_sole {key : String} {members : List (String × Json)} {v : Json}
    (h : Sole key members v) : 1 + v.depth ≤ (Json.object members).depth := by
  rw [Json.depth]
  exact Nat.add_le_add_left (Json.depthMembers_le.mp le_rfl (key, v) h.mem) 1

mutual

/-- nothing else makes a program deeper than what it was read from -/
theorem depth_le_of_denotes : ∀ {v : Json} {p : Program}, Denotes v p → ∀ {k : Nat},
    v.depth ≤ 2 * k + 1 → ¬ BareAt k p → p.toJson.depth ≤ 2 * k + 1
  | _, _, .const (v := v) h, k, deep, _ => by
    have stood := depth_of_sole h
    have plain := v.depth_plain_le
    rw [depth_toJson_const]
    omega
  | _, .call op [], .bareCall _ _ _ _, k, _, bare => by
    rw [depth_toJson_call, toJsonAll, Json.depthItems]
    cases k with
    | zero => exact absurd (.here op) bare
    | succ k => omega
  | _, .call op args, .call _ _ _ list each, k, deep, bare => by
    have stood := depth_of_sole list
    rw [Json.depth] at stood
    rw [depth_toJson_call]
    cases k with
    | zero => omega
    | succ k =>
      -- operands stand two levels deeper, inside one call more
      have operands := depth_le_of_denoteAll each (k := k) (by omega)
        fun a ha at_k => bare (.inside ha at_k)
      omega

theorem depth_le_of_denoteAll : ∀ {items : List Json} {args : List Program},
    DenoteAll items args → ∀ {k : Nat}, Json.depthItems items ≤ 2 * k + 1 →
      (∀ a ∈ args, ¬ BareAt k a) → Json.depthItems (toJsonAll args) ≤ 2 * k + 1
  | _, _, .nil, _, _, _ => Nat.zero_le _
  | _, _, .cons h hs, k, deep, bare => by
    rw [Json.depthItems] at deep
    rw [toJsonAll, Json.depthItems]
    obtain ⟨first, others⟩ := List.forall_mem_cons.mp bare
    exact max_le (depth_le_of_denotes h (by omega) first)
      (depth_le_of_denoteAll hs (by omega) others)

end

/-- **What was read is read again**, unless a call without operands stands inside sixty-three
others: the list that it gets is one level more than the reader goes. -/
theorem rewritten {text : String} {p : Program} (accepted : read text = .ok p) :
    (¬ BareAt 63 p → ∃ q, read p.write = .ok q ∧ q = p ∧ p.same q = true ∧ q.write = p.write) ∧
    (BareAt 63 p → read p.write = .error .malformed) := by
  have data := isData_of_read accepted
  obtain ⟨v, readText, denotes⟩ := read_eq_ok_iff.mp accepted
  have deep : v.depth ≤ 2 * 63 + 1 := (Json.text_of_read readText).2
  constructor
  · intro bare
    have shallow : p.toJson.depth ≤ depthLimit := depth_le_of_denotes denotes deep bare
    exact ⟨p, read_write_of_depth_le data shallow, rfl, same_self data, rfl⟩
  · intro bare
    have deeper : 2 * 63 + 2 ≤ p.toJson.depth := bare.depth_ge
    exact read_write_of_depth_gt data deeper

/-! ## A bare call at each depth -/

/-- a call without operands, and without a list of them, inside so many negations -/
def nested : Nat → Json
  | 0 => .object [("op", .string "add")]
  | n + 1 => .object [("op", .string "not"), ("args", .array [nested n])]

def nestedCalls : Nat → Program
  | 0 => .call .add []
  | n + 1 => .call .not [nestedCalls n]

theorem storable_nested (n : Nat) : Storable (nested n) := by
  induction n with
  | zero => exact .object (List.forall_mem_singleton.mpr (.string "add"))
  | succ n ih =>
    refine .object (List.forall_mem_cons.mpr ⟨.string "not", List.forall_mem_singleton.mpr ?_⟩)
    exact .array (List.forall_mem_singleton.mpr ih)

theorem depth_nested (n : Nat) : (nested n).depth = 2 * n + 1 := by
  induction n with
  | zero => rfl
  | succ n ih =>
    rw [nested, Json.depth, Json.depthMembers, Json.depthMembers, Json.depthMembers, Json.depth,
      Json.depth, Json.depthItems, Json.depthItems, ih]
    omega

theorem denotes_nested (n : Nat) : Denotes (nested n) (nestedCalls n) := by
  induction n with
  | zero =>
    have other : Absent "const" [("op", Json.string "add")] :=
      absent_singleton (by show "op" ≠ "const"; decide)
    have none : Absent "args" [("op", Json.string "add")] :=
      absent_singleton (by show "op" ≠ "args"; decide)
    have first := @Sole.amid "op" [] [] (.string "add") (absent_nil "op") (absent_nil "op")
    exact .bareCall other.not_sole first (.bare .add) none
  | succ n ih => exact denotes_call (.bare .not) (.cons ih .nil)

theorem read_nested {n : Nat} (h : n ≤ 63) : read (nested n).compact = .ok (nestedCalls n) := by
  refine read_eq_ok_iff.mpr ⟨nested n, ?_, denotes_nested n⟩
  refine Json.read_eq_ok_iff.mpr ⟨Json.text_compact (storable_nested n), ?_⟩
  rw [depth_nested]
  show 2 * n + 1 ≤ 127
  omega

theorem bareAt_nestedCalls (n : Nat) : BareAt n (nestedCalls n) := by
  induction n with
  | zero => exact .here .add
  | succ n ih => exact .inside List.mem_cons_self ih

theorem eq_of_bareAt_nestedCalls {k n : Nat} (h : BareAt k (nestedCalls n)) : k = n := by
  induction n generalizing k with
  | zero =>
    cases h with
    | here => rfl
    | inside ha _ => cases ha
  | succ n ih =>
    cases h with
    | inside ha h =>
      rw [List.mem_singleton.mp ha] at h
      rw [ih h]

/-- sixty-two negations leave room for the list -/
theorem rewritten_nested : read (nested 62).compact = .ok (nestedCalls 62) ∧
    ¬ BareAt 63 (nestedCalls 62) ∧
    ∃ q, read (nestedCalls 62).write = .ok q ∧ q = nestedCalls 62 ∧
      (nestedCalls 62).same q = true ∧ q.write = (nestedCalls 62).write := by
  have accepted := read_nested (n := 62) (by omega)
  have bare : ¬ BareAt 63 (nestedCalls 62) := by
    intro h
    have := eq_of_bareAt_nestedCalls h
    omega
  exact ⟨accepted, bare, (rewritten accepted).1 bare⟩

/-- sixty-three do not: what was read is refused when it is written and read again -/
theorem nested_refused : read (nested 63).compact = .ok (nestedCalls 63) ∧
    read (nestedCalls 63).write = .error .malformed ∧
    ¬ ∀ text p, read text = .ok p → ∃ q, read p.write = .ok q ∧ p.same q = true := by
  have accepted := read_nested (n := 63) le_rfl
  have deep : 2 * 63 + 2 ≤ (nestedCalls 63).toJson.depth := (bareAt_nestedCalls 63).depth_ge
  have refused := read_write_of_depth_gt (isData_of_read accepted) deep
  refine ⟨accepted, refused, ?_⟩
  intro every
  obtain ⟨q, again, -⟩ := every _ _ accepted
  rw [refused] at again
  cases again

end Program
end Chance
