import Chance.Proofs.Doubles
import Chance.Proofs.Writing

/-!
# Values in normal form

Data have their objects sorted by key, with no key twice.  Every value has such a form (`plain`),
which is no deeper than the value and stores the same numbers, and a value in that form is its own.

* `Json.induction`         a property of all values, from those of their items and members;
* `Sorted`                 the normal form;
* `sorted_plain`, `plain_of_sorted`        `plain` makes it and leaves it;
* `storable_plain`, `depth_plain_le`       what else `plain` leaves;
* `same_self`              a value with storable numbers is equal to itself.
-/

namespace Chance
namespace Json

/-! ## Induction -/

/-- a property of all values, from those of their items and members -/
theorem induction {P : Json → Prop} (null : P .null) (bool : ∀ b, P (.bool b))
    (number : ∀ n, P (.number n)) (string : ∀ s, P (.string s))
    (array : ∀ items : List Json, (∀ v ∈ items, P v) → P (.array items))
    (object : ∀ members : List (String × Json), (∀ m ∈ members, P m.2) → P (.object members)) :
    ∀ v : Json, P v
  | .null => null
  | .bool b => bool b
  | .number n => number n
  | .string s => string s
  | .array items => array items fun v _ => induction null bool number string array object v
  | .object members => object members fun m hm => by
    have smaller : sizeOf m.2 < 1 + sizeOf members := by
      have inside := List.sizeOf_lt_of_mem hm
      obtain ⟨k, v⟩ := m
      simp only [Prod.mk.sizeOf_spec] at inside
      dsimp only
      omega
    exact induction null bool number string array object m.2

/-! ## Members in order -/

/-- the keys ascend -/
def Ascending (members : List (String × Json)) : Prop := members.Pairwise fun m n => m.1 < n.1

instance (members : List (String × Json)) : Decidable (Ascending members) :=
  inferInstanceAs (Decidable (members.Pairwise fun m n => m.1 < n.1))

theorem mem_insertMember {key : String} {v : Json} {members : List (String × Json)}
    {m : String × Json} (h : m ∈ insertMember key v members) : m = (key, v) ∨ m ∈ members := by
  induction members with
  | nil => exact .inl (List.mem_singleton.mp h)
  | cons n rest ih =>
    obtain ⟨k, w⟩ := n
    unfold insertMember at h
    split_ifs at h with same before
    · rcases List.mem_cons.mp h with rfl | h
      · exact .inl rfl
      · exact .inr (List.mem_cons_of_mem _ h)
    · exact List.mem_cons.mp h
    · rcases List.mem_cons.mp h with rfl | h
      · exact .inr List.mem_cons_self
      · exact (ih h).imp_right (List.mem_cons_of_mem _)

theorem Ascending.insertMember (key : String) (v : Json) {members : List (String × Json)}
    (h : Ascending members) : Ascending (insertMember key v members) := by
  induction members with
  | nil => exact List.pairwise_singleton _ _
  | cons n rest ih =>
    obtain ⟨k, w⟩ := n
    obtain ⟨first, rest'⟩ := List.pairwise_cons.mp h
    unfold Json.insertMember
    split_ifs with same before
    · subst same
      exact List.pairwise_cons.mpr ⟨first, rest'⟩
    · refine List.pairwise_cons.mpr ⟨fun m hm => ?_, h⟩
      rcases List.mem_cons.mp hm with rfl | hm
      · exact before
      · exact lt_trans before (first m hm)
    · refine List.pairwise_cons.mpr ⟨fun m hm => ?_, ih rest'⟩
      rcases mem_insertMember hm with rfl | hm
      · exact lt_of_le_of_ne (not_lt.mp before) (Ne.symm same)
      · exact first m hm

/-- a key behind all others goes to the end -/
theorem insertMember_of_lt {key : String} {v : Json} {members : List (String × Json)}
    (h : ∀ m ∈ members, m.1 < key) : insertMember key v members = members ++ [(key, v)] := by
  induction members with
  | nil => rfl
  | cons n rest ih =>
    obtain ⟨k, w⟩ := n
    obtain ⟨first, others⟩ := List.forall_mem_cons.mp h
    unfold insertMember
    rw [if_neg (ne_of_gt first), if_neg (lt_asymm first), ih others]
    rfl

theorem mem_plainMembers {members sorted : List (String × Json)} {m : String × Json}
    (h : m ∈ plainMembers members sorted) :
    (∃ n ∈ members, m = (n.1, n.2.plain)) ∨ m ∈ sorted := by
  induction members generalizing sorted with
  | nil => exact .inr h
  | cons n rest ih =>
    obtain ⟨k, v⟩ := n
    rcases ih h with ⟨n, hn, rfl⟩ | h
    · exact .inl ⟨n, List.mem_cons_of_mem _ hn, rfl⟩
    · rcases mem_insertMember h with rfl | h
      · exact .inl ⟨(k, v), List.mem_cons_self, rfl⟩
      · exact .inr h

theorem Ascending.plainMembers (members : List (String × Json))
    {sorted : List (String × Json)} (h : Ascending sorted) :
    Ascending (plainMembers members sorted) := by
  induction members generalizing sorted with
  | nil => exact h
  | cons n rest ih =>
    obtain ⟨k, v⟩ := n
    exact ih (h.insertMember k v.plain)

/-- members in order are left in order -/
theorem plainMembers_of_ascending {members sorted : List (String × Json)}
    (h : Ascending (sorted ++ members)) (fixed : ∀ m ∈ members, m.2.plain = m.2) :
    Json.plainMembers members sorted = sorted ++ members := by
  induction members generalizing sorted with
  | nil => exact (List.append_nil sorted).symm
  | cons n rest ih =>
    obtain ⟨k, v⟩ := n
    obtain ⟨first, others⟩ := List.forall_mem_cons.mp fixed
    have last : ∀ m ∈ sorted, m.1 < k := fun m hm =>
      (List.pairwise_append.mp h).2.2 m hm (k, v) List.mem_cons_self
    have split : sorted ++ (k, v) :: rest = sorted ++ [(k, v)] ++ rest := by
      rw [List.append_assoc, List.singleton_append]
    rw [split] at h ⊢
    rw [Json.plainMembers, first, insertMember_of_lt last]
    exact ih h others

/-! ## Normal form -/

/-- the keys of every object ascend -/
inductive Sorted : Json → Prop
  | null : Sorted .null
  | bool (b : Bool) : Sorted (.bool b)
  | number (n : Number) : Sorted (.number n)
  | string (s : String) : Sorted (.string s)
  | array {items : List Json} (h : ∀ v ∈ items, Sorted v) : Sorted (.array items)
  | object {members : List (String × Json)} (h : ∀ m ∈ members, Sorted m.2)
      (ascending : Ascending members) : Sorted (.object members)

theorem plainItems_eq_map (items : List Json) : plainItems items = items.map plain := by
  induction items with
  | nil => rfl
  | cons v rest ih => rw [plainItems, ih, List.map_cons]

theorem plain_of_sorted {v : Json} (h : Sorted v) : v.plain = v := by
  induction h with
  | array _ ih =>
    rw [plain, plainItems_eq_map]
    exact congrArg Json.array ((List.map_congr_left ih).trans (List.map_id' _))
  | object _ ascending ih =>
    rw [plain]
    exact congrArg Json.object (plainMembers_of_ascending ascending ih)
  | _ => rfl

theorem sorted_plain (v : Json) : Sorted v.plain := by
  induction v using induction with
  | null => exact .null
  | bool b => exact .bool b
  | number n => exact .number n
  | string s => exact .string s
  | array items ih =>
    rw [plain, plainItems_eq_map]
    refine .array fun w hw => ?_
    obtain ⟨v, hv, rfl⟩ := List.mem_map.mp hw
    exact ih v hv
  | object members ih =>
    rw [plain]
    refine .object (fun m hm => ?_) (Ascending.plainMembers members List.Pairwise.nil)
    rcases mem_plainMembers hm with ⟨n, hn, rfl⟩ | hm
    · exact ih n hn
    · cases hm

theorem storable_plain {v : Json} (h : Storable v) : Storable v.plain := by
  induction h with
  | null => exact .null
  | bool b => exact .bool b
  | number h => exact .number h
  | string s => exact .string s
  | array _ ih =>
    rw [plain, plainItems_eq_map]
    refine .array fun w hw => ?_
    obtain ⟨v, hv, rfl⟩ := List.mem_map.mp hw
    exact ih v hv
  | object _ ih =>
    rw [plain]
    refine .object fun m hm => ?_
    rcases mem_plainMembers hm with ⟨n, hn, rfl⟩ | hm
    · exact ih n hn
    · cases hm

theorem depth_plain_le (v : Json) : v.plain.depth ≤ v.depth := by
  induction v using induction with
  | array items ih =>
    rw [plain, plainItems_eq_map, depth, depth]
    refine Nat.add_le_add_left (depthItems_le.mpr fun w hw => ?_) 1
    obtain ⟨v, hv, rfl⟩ := List.mem_map.mp hw
    exact le_trans (ih v hv) (depthItems_le.mp le_rfl v hv)
  | object members ih =>
    rw [plain, depth, depth]
    refine Nat.add_le_add_left (depthMembers_le.mpr fun m hm => ?_) 1
    rcases mem_plainMembers hm with ⟨n, hn, rfl⟩ | hm
    · exact le_trans (ih n hn) (depthMembers_le.mp le_rfl n hn)
    · cases hm
  | _ => exact le_rfl

/-! ## Equality -/

/-- a finite double is equal to itself -/
theorem beq_self_of_isFinite {x : Float} (h : x.isFinite = true) : (x == x) = true := by
  have compared := compare_eq_cmp (representable_unpack h) (representable_unpack h)
  rw [cmp_self_eq_eq] at compared
  show (x.toModel.unpack.compare x.toModel.unpack == some .eq) = true
  rw [compared]
  rfl

theorem number_same_self {n : Number} (h : n.Storable) : n.same n = true := by
  cases n with
  | integer n => exact beq_self_eq_true n
  | float x => exact beq_self_of_isFinite h

theorem sameItems_self {items : List Json} (h : ∀ v ∈ items, v.same v = true) :
    sameItems items items = true := by
  induction items with
  | nil => rfl
  | cons v rest ih =>
    obtain ⟨first, others⟩ := List.forall_mem_cons.mp h
    rw [sameItems, first, ih others, Bool.and_true]

theorem sameMembers_self {members : List (String × Json)} (h : ∀ m ∈ members, m.2.same m.2 = true) :
    sameMembers members members = true := by
  induction members with
  | nil => rfl
  | cons m rest ih =>
    obtain ⟨k, v⟩ := m
    obtain ⟨first, others⟩ := List.forall_mem_cons.mp h
    rw [sameMembers, first, ih others, beq_self_eq_true, Bool.and_true, Bool.and_true]

theorem same_self {v : Json} (h : Storable v) : v.same v = true := by
  induction h with
  | null => rfl
  | bool b => exact beq_self_eq_true b
  | number h => exact number_same_self h
  | string s => exact beq_self_eq_true s
  | array _ ih => exact sameItems_self ih
  | object _ ih => exact sameMembers_self ih

end Json
end Chance
