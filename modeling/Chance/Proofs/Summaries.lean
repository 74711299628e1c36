import Chance.Proofs.NormalForm
import Chance.Proofs.PlainTexts
import Chance.Proofs.TotalOrder
import Chance.Value.Text

/-!
# Summaries

The summary of a discrete value lists what is recorded, each outcome once and in order, so it does
not depend on the order in which outcomes occurred.  Its text loses nothing of a value of which all
numbers are finite: the text is one of the grammar, which gives the summary back, and the summary
has all entries, or all parameters inside the text of a distribution.

* `ascending_sorted`      the sorted entries are strictly ascending;
* `sorted_congr`          they depend on the entries alone, not on their order;
* `forall₂_sorted`        equal mass functions, entry by entry;
* `same_of_sorted`        equal entries, equal mass functions;
* `storable_summary`, `same_of_summary`   what a summary tells of its value;
* `summaries`             order, completeness and faithfulness.
-/

namespace Chance

/-- outcomes of one rank are one outcome -/
def Ranked (α : Type) [Outcome α] : Prop :=
  ∀ a b : α, Outcome.rank a = Outcome.rank b → Outcome.key a = Outcome.key b

theorem ranked_bool : Ranked Bool := by
  unfold Ranked
  decide

theorem ranked_int64 : Ranked Int64 := by
  intro a b h
  rw [Int64.toInt_inj.mp h]

theorem ranked_double : Ranked Double := by
  intro x y h
  rw [Double.rank_inj h]

namespace Value

/-! ## Sorted entries -/

section

variable {α M : Type} [Outcome α]

theorem perm_sorted (s : Pmf α M) : (sorted s).Perm s.entries := List.mergeSort_perm _ _

theorem mem_sorted {s : Pmf α M} {e : α × M} : e ∈ sorted s ↔ e ∈ s.entries :=
  (perm_sorted s).mem_iff

theorem nodup_sorted (s : Pmf α M) : ((sorted s).map fun e => Outcome.key e.1).Nodup :=
  ((perm_sorted s).map _).nodup_iff.mpr s.nodup

theorem ascending_sorted (ranked : Ranked α) (s : Pmf α M) :
    (sorted s).Pairwise fun e f => Outcome.rank e.1 < Outcome.rank f.1 := by
  have ordered : (sorted s).Pairwise fun e f =>
      decide (Outcome.rank e.1 ≤ Outcome.rank f.1) = true := by
    refine List.pairwise_mergeSort (fun e f g ef fg => ?_) (fun e f => ?_) s.entries
    · exact decide_eq_true ((of_decide_eq_true ef).trans (of_decide_eq_true fg))
    · rw [Bool.or_eq_true, decide_eq_true_iff, decide_eq_true_iff]
      exact le_total _ _
  refine ordered.imp₂ (fun e f le other => ?_) (List.pairwise_map.mp (nodup_sorted s))
  exact (of_decide_eq_true le).lt_of_ne fun same => other (ranked _ _ same)

omit [Outcome α] in
/-- a list has one strictly ascending order -/
theorem eq_of_ascending {rank : α → Int} {l l' : List α}
    (h : l.Pairwise fun a b => rank a < rank b) (h' : l'.Pairwise fun a b => rank a < rank b)
    (perm : l.Perm l') : l = l' :=
  List.Perm.eq_of_pairwise (fun _ _ _ _ less greater => absurd greater less.not_gt) h h' perm

theorem sorted_eq (ranked : Ranked α) {s : Pmf α M} {es : List (α × M)} (perm : es.Perm s.entries)
    (ascending : es.Pairwise fun e f => Outcome.rank e.1 < Outcome.rank f.1) : sorted s = es :=
  eq_of_ascending (ascending_sorted ranked s) ascending ((perm_sorted s).trans perm.symm)

/-- the order in which outcomes occurred makes no difference -/
theorem sorted_congr (ranked : Ranked α) {s t : Pmf α M} (h : s.entries.Perm t.entries) :
    sorted s = sorted t :=
  sorted_eq ranked ((perm_sorted t).trans h.symm) (ascending_sorted ranked t)

variable [Mass M]

theorem sorted_eq_map (s : Pmf α M) :
    sorted s = ((sorted s).map Prod.fst).map fun v => (v, s.get v) :=
  Pmf.eq_map_get fun _ => mem_sorted.mp

/-- the outcomes of equal mass functions -/
theorem perm_values {s t : Pmf α M} (h : s.same t = true)
    (exact : ∀ v ∈ s.values, ∀ w ∈ t.values, Outcome.key w = Outcome.key v → w = v) :
    s.values.Perm t.values := by
  obtain ⟨size, entries⟩ := (Pmf.same_iff s t).mp h
  have distinct : s.values.Nodup := by
    refine List.Nodup.of_map Outcome.key ?_
    unfold Pmf.values
    rw [List.map_map]
    exact s.nodup
  have recorded : s.values ⊆ t.values := by
    intro v hv
    obtain ⟨e, he, rfl⟩ := List.mem_map.mp hv
    obtain ⟨f, hf, key, -⟩ := entries e he
    have hw : f.1 ∈ t.values := List.mem_map_of_mem hf
    rwa [exact e.1 hv f.1 hw key] at hw
  refine (List.subperm_of_subset distinct recorded).perm_of_length_le ?_
  unfold Pmf.values
  rw [List.length_map, List.length_map]
  exact size.ge

/-- equal mass functions have the same outcomes in the same order, with equal masses -/
theorem forall₂_sorted (ranked : Ranked α) {s t : Pmf α M} (h : s.same t = true)
    (exact : ∀ v ∈ s.values, ∀ w ∈ t.values, Outcome.key w = Outcome.key v → w = v) :
    List.Forall₂ (fun e f => e.1 = f.1 ∧ Mass.eq e.2 f.2 = true) (sorted s) (sorted t) := by
  have outcomes : (sorted s).map Prod.fst = (sorted t).map Prod.fst := by
    have ascending (s : Pmf α M) : ((sorted s).map Prod.fst).Pairwise fun v w =>
        Outcome.rank v < Outcome.rank w := List.pairwise_map.mpr (ascending_sorted ranked s)
    refine eq_of_ascending (ascending s) (ascending t) ?_
    exact ((perm_sorted s).map _).trans
      ((perm_values h exact).trans ((perm_sorted t).map _).symm)
  rw [sorted_eq_map s, sorted_eq_map t, ← outcomes, List.forall₂_map_left_iff,
    List.forall₂_map_right_iff, List.forall₂_same]
  intro v hv
  obtain ⟨e, he, rfl⟩ := List.mem_map.mp hv
  obtain ⟨f, hf, key, masses⟩ := ((Pmf.same_iff s t).mp h).2 e (mem_sorted.mp he)
  refine ⟨rfl, ?_⟩
  rwa [Pmf.get_of_mem (mem_sorted.mp he), ← Pmf.get_congr t key, Pmf.get_of_mem hf]

end

/-! ## Listings -/

section

variable {α : Type} [Outcome α]

def entryJson (write : α → Json) (e : α × Float) : Json :=
  .object [("value", write e.1), ("mass", .number (.float e.2))]

/-- the summary of a discrete value that lists these entries -/
def listing (kind : String) (write : α → Json) (es : List (α × Float)) : Json :=
  .object [("kind", .string kind), ("support", .array (es.map (entryJson write)))]

/-- equal entries make equal mass functions -/
theorem same_of_sorted {s t : Pmf α Float} (finite : ∀ e ∈ s.entries, e.2.isFinite = true)
    (h : List.Forall₂ (fun e f => Outcome.key e.1 = Outcome.key f.1 ∧ e.2 = f.2)
      (sorted s) (sorted t)) : s.same t = true := by
  have size : s.size = t.size :=
    (perm_sorted s).length_eq.symm.trans (h.length_eq.trans (perm_sorted t).length_eq)
  refine (Pmf.same_iff s t).mpr ⟨size, fun e he => ?_⟩
  obtain ⟨i, hi, rfl⟩ := List.getElem_of_mem (mem_sorted.mpr he)
  have hj : i < (sorted t).length := h.length_eq ▸ hi
  obtain ⟨key, mass⟩ := (List.forall₂_iff_get.mp h).2 i hi hj
  refine ⟨(sorted t)[i], mem_sorted.mp (List.getElem_mem hj), key.symm, ?_⟩
  have self := Json.beq_self_of_isFinite (finite _ he)
  change ((sorted s)[i].2 == (sorted s)[i].2) = true at self
  show ((sorted s)[i].2 == (sorted t)[i].2) = true
  have masses : (sorted s)[i].2 = (sorted t)[i].2 := mass
  rwa [← masses]

/-- a listing tells its entries -/
theorem forall₂_of_listing {kind : String} {write : α → Json}
    (told : ∀ a b, write a = write b → Outcome.key a = Outcome.key b) {es fs : List (α × Float)}
    (h : listing kind write es = listing kind write fs) :
    List.Forall₂ (fun e f => Outcome.key e.1 = Outcome.key f.1 ∧ e.2 = f.2) es fs := by
  have items : es.map (entryJson write) = fs.map (entryJson write) := by
    simpa only [listing, Json.object.injEq, List.cons.injEq, Prod.mk.injEq, Json.array.injEq,
      true_and, and_true] using h
  rw [← List.forall₂_eq_eq_eq, List.forall₂_map_left_iff, List.forall₂_map_right_iff] at items
  refine items.imp fun e f same => ?_
  simp only [entryJson, Json.object.injEq, List.cons.injEq, Prod.mk.injEq, Json.number.injEq,
    Json.Number.float.injEq, true_and, and_true] at same
  exact same.imp_left (told _ _)

omit [Outcome α] in
theorem storable_listing {kind : String} {write : α → Json} {es : List (α × Float)}
    (values : ∀ e ∈ es, Json.Storable (write e.1)) (masses : ∀ e ∈ es, e.2.isFinite = true) :
    Json.Storable (listing kind write es) := by
  refine .object (List.forall_mem_cons.mpr ⟨.string _, List.forall_mem_singleton.mpr ?_⟩)
  refine .array fun v hv => ?_
  obtain ⟨e, he, rfl⟩ := List.mem_map.mp hv
  exact .object (List.forall_mem_cons.mpr ⟨values e he,
    List.forall_mem_singleton.mpr (.number (masses e he))⟩)

end

theorem summary_bool (s : Pmf Bool Float) :
    (Value.bool s).summary = listing "bool" .bool (sorted s) := rfl

theorem summary_int (s : Pmf Int64 Float) :
    (Value.int s).summary =
      listing "int" (fun n => .number (.integer n.toInt)) (sorted s) := rfl

theorem summary_float (s : Pmf Double Float) :
    (Value.float s).summary =
      listing "float" (fun x => .number (.float x.toFloat)) (sorted s) := rfl

/-! ## Faithfulness -/

/-- all outcomes, masses, parameters, offsets and scales are finite -/
def Finite : Value Float → Prop
  | .bool s => ∀ e ∈ s.entries, e.2.isFinite = true
  | .int s => ∀ e ∈ s.entries, e.2.isFinite = true
  | .float s => ∀ e ∈ s.entries, e.1.toFloat.isFinite = true ∧ e.2.isFinite = true
  | .continuous z => z.law.Finite ∧ z.offset.isFinite = true ∧ z.scale.isFinite = true
  | .distribution d => d.Finite

theorem storable_law {law : Law} (h : law.Finite) : Json.Storable law.toJson := by
  cases law with
  | normal mean sd =>
    refine .object ?_
    simp only [List.forall_mem_cons, List.not_mem_nil, false_imp_iff, implies_true, and_true]
    exact ⟨.string _, .number h.1, .number h.2⟩
  | beta a b =>
    refine .object ?_
    simp only [List.forall_mem_cons, List.not_mem_nil, false_imp_iff, implies_true, and_true]
    exact ⟨.string _, .number h.1, .number h.2⟩

theorem storable_summary {v : Value Float} (h : v.Finite) : Json.Storable v.summary := by
  cases v with
  | bool s =>
    rw [summary_bool]
    exact storable_listing (fun e _ => .bool e.1) fun e he => h e (mem_sorted.mp he)
  | int s =>
    rw [summary_int]
    refine storable_listing (fun e _ => .number ?_) fun e he => h e (mem_sorted.mp he)
    have low := e.1.le_toInt
    have high := e.1.toInt_lt
    show -2 ^ 63 ≤ e.1.toInt ∧ e.1.toInt < 2 ^ 64
    omega
  | float s =>
    rw [summary_float]
    exact storable_listing (fun e he => .number (h e (mem_sorted.mp he)).1)
      fun e he => (h e (mem_sorted.mp he)).2
  | continuous z =>
    obtain ⟨law, offset, scale⟩ := h
    refine .object ?_
    simp only [List.forall_mem_cons, List.not_mem_nil, false_imp_iff, implies_true, and_true]
    exact ⟨.string _, storable_law law, .number offset, .number scale⟩
  | distribution d =>
    refine .object ?_
    simp only [List.forall_mem_cons, List.not_mem_nil, false_imp_iff, implies_true, and_true]
    exact ⟨.string _, .string _, .string _⟩

theorem law_same_self {law : Law} (h : law.Finite) : law.same law = true := by
  cases law with
  | normal mean sd =>
    exact Bool.and_eq_true_iff.mpr
      ⟨Json.beq_self_of_isFinite h.1, Json.beq_self_of_isFinite h.2⟩
  | beta a b =>
    exact Bool.and_eq_true_iff.mpr
      ⟨Json.beq_self_of_isFinite h.1, Json.beq_self_of_isFinite h.2⟩

theorem distribution_same_self {d : Distribution} (h : d.Finite) : d.same d = true := by
  cases d with
  | bernoulli p => exact Json.beq_self_of_isFinite h
  | flip p => exact Json.beq_self_of_isFinite h
  | continuous law => exact law_same_self h

theorem law_of_toJson {l k : Law} (h : l.toJson = k.toJson) : l = k := by
  cases l <;> cases k <;> simp_all [Law.toJson]

/-- the kind is written first -/
theorem kind_of_summary {v w : Value Float} (h : v.summary = w.summary) : v.kind = w.kind := by
  cases v <;> cases w <;> first | rfl | simp [summary, pmfSummary] at h

/-- equal summaries are those of equal values -/
theorem same_of_summary {v w : Value Float} (hv : v.Finite) (hw : w.Finite)
    (h : v.summary = w.summary) : v.same w = true := by
  have kind := kind_of_summary h
  cases v with
  | bool s => cases w with
    | bool t =>
      refine same_of_sorted hv (forall₂_of_listing (fun a b same => ?_) h)
      rw [Json.bool.inj same]
    | _ => cases kind
  | int s => cases w with
    | int t =>
      rw [summary_int, summary_int] at h
      refine same_of_sorted hv (forall₂_of_listing (fun a b same => ?_) h)
      rw [Int64.toInt_inj.mp (Json.Number.integer.inj (Json.number.inj same))]
    | _ => cases kind
  | float s => cases w with
    | float t =>
      rw [summary_float, summary_float] at h
      refine same_of_sorted (fun e he => (hv e he).2) (forall₂_of_listing (fun x y same => ?_) h)
      exact (Double.key_eq_iff_toFloat x y).mpr (Json.Number.float.inj (Json.number.inj same))
    | _ => cases kind
  | continuous z => cases w with
    | continuous y =>
      simp only [summary, Json.object.injEq, List.cons.injEq, Prod.mk.injEq, Json.number.injEq,
        Json.Number.float.injEq, true_and, and_true] at h
      obtain ⟨law, offset, scale⟩ := h
      obtain ⟨finite, finiteOffset, finiteScale⟩ := hv
      have same : z = y := by
        cases z
        cases y
        cases law_of_toJson law
        cases offset
        cases scale
        rfl
      rw [← same]
      exact Bool.and_eq_true_iff.mpr ⟨Bool.and_eq_true_iff.mpr
        ⟨law_same_self finite, Json.beq_self_of_isFinite finiteOffset⟩,
        Json.beq_self_of_isFinite finiteScale⟩
    | _ => cases kind
  | distribution d => cases w with
    | distribution e =>
      simp only [summary, Json.object.injEq, List.cons.injEq, Prod.mk.injEq, Json.string.injEq,
        true_and, and_true] at h
      rw [← Distribution.eq_of_text hv hw h.1 h.2]
      exact distribution_same_self hv
    | _ => cases kind

/-- the text of a summary tells the value -/
theorem same_of_summaryText {v w : Value Float} (hv : v.Finite) (hw : w.Finite)
    (h : v.summaryText = w.summaryText) : v.same w = true := by
  have text := Json.text_pretty (storable_summary hw)
  rw [← show v.summary.pretty = w.summary.pretty from h] at text
  exact same_of_summary hv hw (Json.text_unique (Json.text_pretty (storable_summary hv)) text)

/-! ## All summaries -/

/-- what is no number is recorded once -/
theorem countP_isNaN_le (s : Pmf Double Float) :
    (sorted s).countP (fun e => e.1.toFloat.isNaN) ≤ 1 := by
  have keys : (((sorted s).filter fun e => e.1.toFloat.isNaN).map fun e => Outcome.key e.1) =
      List.replicate ((sorted s).countP fun e => e.1.toFloat.isNaN) 0x7ff8000000000000 := by
    rw [List.eq_replicate_iff, List.length_map, List.countP_eq_length_filter]
    refine ⟨rfl, fun k hk => ?_⟩
    obtain ⟨e, he, rfl⟩ := List.mem_map.mp hk
    exact if_pos (List.mem_filter.mp he).2
  rw [← List.nodup_replicate, ← keys]
  exact (nodup_sorted s).sublist (List.filter_sublist.map _)

theorem eq_of_key_double {s : Pmf Double Float} (numbers : ∀ x ∈ s.values, x.toFloat.isNaN = false)
    {t : Pmf Double Float} : ∀ x ∈ s.values, ∀ y ∈ t.values,
      Outcome.key y = Outcome.key x → y = x := by
  intro x hx y _ key
  refine ((Double.key_eq_iff y x).mp key).resolve_right fun none => ?_
  exact absurd (numbers x hx) (Bool.not_eq_false _ ▸ none.2)

/-- **Summaries.**  The summary of a discrete value lists each entry of its mass function once, with
strictly ascending outcomes: false before true, integers in order, doubles by their ranks, which are
in the order of numbers with the negative zero before the other one and with words that are no
number at the ends, at most one of these.  Equal values list the same outcomes with equal masses,
unless one of them is no number.  Where all numbers are finite, values with one text are equal. -/
theorem summaries :
    (∀ s : Pmf Bool Float, (Value.bool s).summary = listing "bool" .bool (sorted s) ∧
      (sorted s).Perm s.entries ∧ (sorted s).Pairwise fun e f => e.1 < f.1) ∧
    (∀ s : Pmf Int64 Float,
      (Value.int s).summary = listing "int" (fun n => .number (.integer n.toInt)) (sorted s) ∧
      (sorted s).Perm s.entries ∧ (sorted s).Pairwise fun e f => e.1 < f.1) ∧
    (∀ s : Pmf Double Float,
      (Value.float s).summary = listing "float" (fun x => .number (.float x.toFloat)) (sorted s) ∧
      (sorted s).Perm s.entries ∧ ((sorted s).Pairwise fun e f => e.1.rank < f.1.rank) ∧
      (sorted s).countP (fun e => e.1.toFloat.isNaN) ≤ 1) ∧
    (∀ x y : Double, x.toFloat.isNaN = false → y.toFloat.isNaN = false →
      (x.rank < y.rank ↔
        x.toFloat < y.toFloat ∨ (x = .ofFloat (-0.0) ∧ y = .ofFloat 0.0))) ∧
    (∀ x y : Double, x.toFloat.isNaN = true → y.toFloat.isNaN = false →
      (x.word < Double.signBit → y.rank < x.rank) ∧
        (¬ x.word < Double.signBit → x.rank < y.rank)) ∧
    (∀ s t : Pmf Bool Float, (Value.bool s).same (.bool t) = true →
      List.Forall₂ (fun e f => e.1 = f.1 ∧ (e.2 == f.2) = true) (sorted s) (sorted t)) ∧
    (∀ s t : Pmf Int64 Float, (Value.int s).same (.int t) = true →
      List.Forall₂ (fun e f => e.1 = f.1 ∧ (e.2 == f.2) = true) (sorted s) (sorted t)) ∧
    (∀ s t : Pmf Double Float, (∀ x ∈ s.values, x.toFloat.isNaN = false) →
      (Value.float s).same (.float t) = true →
      List.Forall₂ (fun e f => e.1 = f.1 ∧ (e.2 == f.2) = true) (sorted s) (sorted t)) ∧
    (∀ v w : Value Float, v.Finite → w.Finite → v.summaryText = w.summaryText →
      v.same w = true) := by
  have bools (a b : Bool) : Outcome.rank a < Outcome.rank b → a < b := by
    revert a b
    decide
  have integers (a b : Int64) (h : Outcome.rank a < Outcome.rank b) : a < b :=
    Int64.lt_iff_toInt_lt.mpr h
  refine ⟨fun s => ⟨summary_bool s, perm_sorted s, ?_⟩,
    fun s => ⟨summary_int s, perm_sorted s, ?_⟩,
    fun s => ⟨summary_float s, perm_sorted s, ascending_sorted ranked_double s,
      countP_isNaN_le s⟩,
    fun x y => Double.rank_lt_iff, fun x y => Double.rank_of_isNaN, fun s t same => ?_,
    fun s t same => ?_, fun s t numbers same => ?_, fun v w => same_of_summaryText⟩
  · exact (ascending_sorted ranked_bool s).imp (bools _ _)
  · exact (ascending_sorted ranked_int64 s).imp (integers _ _)
  · exact forall₂_sorted ranked_bool same fun _ _ _ _ => Outcome.Exact.eq_of_key
  · exact forall₂_sorted ranked_int64 same fun _ _ _ _ => Outcome.Exact.eq_of_key
  · exact forall₂_sorted ranked_double same (eq_of_key_double numbers)

/-! ### Three doubles, recorded in two orders -/

def upwards : Pmf Double Float :=
  ((Pmf.empty.add (.ofFloat (-0.0)) 0.5).add (.ofFloat 0.0) 0.25).add (.ofFloat 2.5) 0.25

def downwards : Pmf Double Float :=
  ((Pmf.empty.add (.ofFloat 2.5) 0.25).add (.ofFloat 0.0) 0.25).add (.ofFloat (-0.0)) 0.5

theorem sorted_upwards : sorted upwards = sorted downwards :=
  sorted_congr ranked_double (by decide +kernel)

theorem summaries_upwards :
    (Value.float upwards).Finite ∧ (Value.float downwards).Finite ∧
    (Value.float upwards).summaryText = (Value.float downwards).summaryText ∧
    (Value.float upwards).same (.float downwards) = true ∧
    List.Forall₂ (fun e f => e.1 = f.1 ∧ (e.2 == f.2) = true) (sorted upwards)
      (sorted downwards) ∧
    (Double.ofFloat (-0.0)).rank < (Double.ofFloat 0.0).rank ∧
    (Double.ofFloat 2.5).rank < (Double.mk 0x7ff8000000000000).rank := by
  obtain ⟨-, -, -, numbers, others, -, -, doubles, faithful⟩ := summaries
  have up : (Value.float upwards).Finite := by
    show ∀ e ∈ upwards.entries, e.1.toFloat.isFinite = true ∧ e.2.isFinite = true
    decide +kernel
  have down : (Value.float downwards).Finite := by
    show ∀ e ∈ downwards.entries, e.1.toFloat.isFinite = true ∧ e.2.isFinite = true
    decide +kernel
  have text : (Value.float upwards).summaryText = (Value.float downwards).summaryText := by
    unfold summaryText
    rw [summary_float, summary_float, sorted_upwards]
  have same := faithful _ _ up down text
  refine ⟨up, down, text, same, doubles _ _ (by decide +kernel) same, ?_, ?_⟩
  · exact (numbers _ _ (by decide) (by decide)).mpr (.inr ⟨rfl, rfl⟩)
  · exact (others _ _ (by decide) (by decide)).1 (by decide)

end Value
end Chance
