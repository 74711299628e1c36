import Chance.Json.Writer
import Chance.Proofs.Decimals
import Chance.Proofs.Tokens

/-!
# Written values

What is written for a value is a text of that value: strings with their escapes, integers with
their digits, doubles with the fewest digits that read back.  Numbers have to be those that can be
stored (`Number.Storable`).

* `stringText_writeString`      strings;
* `numberText_writeInt`, `numberText_writeFloat`   numbers;
* `text_compact`, `text_pretty`   values.
-/

namespace Chance
namespace Json

/-! ## Storable numbers -/

/-- an integer of 64 bits, signed or unsigned, or a finite double -/
def Number.Storable : Number → Prop
  | .integer n => -2 ^ 63 ≤ n ∧ n < 2 ^ 64
  | .float x => x.isFinite = true

instance (n : Number) : Decidable n.Storable :=
  match n with
  | .integer n => inferInstanceAs (Decidable (-2 ^ 63 ≤ n ∧ n < 2 ^ 64))
  | .float x => inferInstanceAs (Decidable (x.isFinite = true))

/-- all numbers in the value can be stored -/
inductive Storable : Json → Prop
  | null : Storable .null
  | bool (b : Bool) : Storable (.bool b)
  | number {n : Number} (h : n.Storable) : Storable (.number n)
  | string (s : String) : Storable (.string s)
  | array {items : List Json} (h : ∀ v ∈ items, Storable v) : Storable (.array items)
  | object {members : List (String × Json)} (h : ∀ m ∈ members, Storable m.2) :
      Storable (.object members)

namespace Grammar

open Reader

/-! ## Strings -/

theorem hexDigit?_digitChar : ∀ k < 16, hexDigit? (Nat.digitChar k) = some k := by
  decide

/-- a control is written with its number -/
theorem unitText_hexPair {n : Nat} (h : n < 32) : UnitText n ('0' :: '0' :: hexPair n) := by
  have unit := UnitText.four (hexDigit?_digitChar 0 (by omega)) (hexDigit?_digitChar 0 (by omega))
    (hexDigit?_digitChar (n / 16) (by omega)) (hexDigit?_digitChar (n % 16) (by omega))
  have number : ((0 * 16 + 0) * 16 + n / 16) * 16 + n % 16 = n := by omega
  rw [number] at unit
  exact unit

theorem charText_escapeChar (c : Char) : CharText .exact c (escapeChar c) := by
  unfold escapeChar
  split_ifs with quote backslash back tab line feed carriage control
  · rw [quote]
    exact .short (by decide)
  · rw [backslash]
    exact .short (by decide)
  · rw [back]
    exact .short (by decide)
  · rw [tab]
    exact .short (by decide)
  · rw [line]
    exact .short (by decide)
  · rw [feed]
    exact .short (by decide)
  · rw [carriage]
    exact .short (by decide)
  · have high : isHighSurrogate c.toNat = false := decide_eq_false (by omega)
    have low : isLowSurrogate c.toNat = false := decide_eq_false (by omega)
    have text : CharText .exact (Char.ofNat c.toNat) _ :=
      .unit (unitText_hexPair control) fun _ => ⟨high, low⟩
    rwa [Char.ofNat_toNat] at text
  · exact .raw (Nat.le_of_not_lt control) quote backslash

theorem charsText_flatMap (s : List Char) : CharsText .exact s (s.flatMap escapeChar) := by
  induction s with
  | nil => exact .nil
  | cons c s ih => exact .cons (charText_escapeChar c) ih

theorem stringText_writeString (s : String) : StringText .exact s (writeString s) := by
  have text := StringText.quoted (charsText_flatMap s.toList)
  rwa [String.ofList_toList] at text

/-! ## Digits -/

theorem digitChar_eq_zero {n : Nat} (h : n < 10) (zero : Nat.digitChar n = '0') : n = 0 := by
  have all : ∀ k < 10, Nat.digitChar k = '0' → k = 0 := by decide
  exact all n h zero

/-- no number but zero starts with a zero -/
theorem head_toDigits {n : Nat} (h : (Nat.toDigits 10 n).head? = some '0') : n = 0 := by
  induction n using Nat.strongRecOn with
  | ind n ih =>
    by_cases small : n < 10
    · rw [Nat.toDigits_of_lt_base small] at h
      exact digitChar_eq_zero small (Option.some.inj h)
    · rw [Nat.toDigits_of_base_le (by omega) (by omega),
        List.head?_append_of_ne_nil _ Nat.toDigits_ne_nil] at h
      have := ih (n / 10) (by omega) h
      omega

theorem digits_toDigits (n : Nat) : Digits (Nat.toDigits 10 n) :=
  ⟨Nat.toDigits_ne_nil, fun _ hd => Nat.isDigit_of_mem_toDigits (by decide) (by decide) hd⟩

theorem whole_toDigits (n : Nat) : Whole (Nat.toDigits 10 n) := by
  refine ⟨digits_toDigits n, ?_⟩
  intro zero
  rw [head_toDigits zero]
  rfl

/-! ## Integers -/

theorem numberText_writeInt {n : Int} (h : (Number.integer n).Storable) :
    NumberText (.integer n) (writeInt n) := by
  obtain ⟨low, high⟩ := h
  have parts : UnsignedText (Nat.toDigits 10 n.natAbs) none none (Nat.toDigits 10 n.natAbs) := by
    have := UnsignedText.parts (whole_toDigits n.natAbs) .absent .absent
    rwa [List.append_nil, List.append_nil] at this
  unfold writeInt
  split_ifs with negative
  · have text := NumberText.negative parts
    have number : Reader.numberOf true (Nat.toDigits 10 n.natAbs) none none = .integer n := by
      unfold Reader.numberOf integerNumber
      dsimp only
      rw [Nat.ofDigitChars_ten_toDigits, if_pos rfl, if_pos ⟨by omega, by omega⟩]
      congr 1
      omega
    rwa [number] at text
  · have text := NumberText.positive parts
    have number : Reader.numberOf false (Nat.toDigits 10 n.natAbs) none none = .integer n := by
      unfold Reader.numberOf integerNumber
      dsimp only
      rw [Nat.ofDigitChars_ten_toDigits, if_neg (by decide),
        if_pos (by show _ < 18446744073709551616; omega)]
      congr 1
      omega
    rwa [number] at text

/-! ## Decimals -/

/-- the text of a number that has the value of the decimal, and is no integer -/
def DecimalText (d : Decimal) (cs : List Char) : Prop :=
  ∃ whole fraction exponent, UnsignedText whole fraction exponent cs ∧
    ¬ (fraction = none ∧ exponent = none) ∧
    Decimal.value ⟨Nat.ofDigitChars 10 (whole ++ fraction.getD []) 0,
      exponent.getD 0 - (fraction.getD []).length⟩ = d.value

theorem floatNumber_of_value {negative : Bool} {whole fraction : List Char} {e : Int} {d : Decimal}
    (h : Decimal.value ⟨Nat.ofDigitChars 10 (whole ++ fraction) 0, e - fraction.length⟩ =
      d.value) :
    floatNumber negative whole fraction e = if negative then -d.toFloat else d.toFloat := by
  unfold floatNumber
  rw [Decimal.toFloat_congr h]

theorem DecimalText.number {d : Decimal} {cs : List Char} (h : DecimalText d cs)
    (negative : Bool) :
    ∃ whole fraction exponent, UnsignedText whole fraction exponent cs ∧
      Reader.numberOf negative whole fraction exponent =
        .float (if negative then -d.toFloat else d.toFloat) := by
  obtain ⟨whole, fraction, exponent, text, shape, value⟩ := h
  refine ⟨whole, fraction, exponent, text, ?_⟩
  rw [← floatNumber_of_value value]
  unfold Reader.numberOf
  split
  · exact absurd ⟨rfl, rfl⟩ shape
  · rfl

/-- the digits of a decimal, and how much of its value they leave to the exponent -/
theorem ofDigitChars_digits (d : Decimal) : Nat.ofDigitChars 10 d.digits 0 = d.significand :=
  Nat.ofDigitChars_ten_toDigits

/-- the first digits of a decimal that is not zero -/
theorem whole_take {d : Decimal} (h : d.significand ≠ 0) {n : Nat} (pos : 0 < n)
    (zeros : List Char) (hz : ∀ z ∈ zeros, z.isDigit = true) :
    Whole (d.digits.take n ++ zeros) := by
  obtain ⟨⟨nonempty, all⟩, -⟩ := whole_toDigits d.significand
  have head := fun zero => h (head_toDigits (n := d.significand) zero)
  unfold Decimal.digits
  obtain ⟨k, rfl⟩ := Nat.exists_eq_add_of_lt pos
  cases ds : Nat.toDigits 10 d.significand with
  | nil => exact absurd ds nonempty
  | cons c more =>
    rw [ds] at all head
    refine ⟨⟨by simp, ?_⟩, fun zero => absurd zero head⟩
    intro x hx
    rcases List.mem_append.mp hx with hx | hx
    · exact all x (List.mem_of_mem_take hx)
    · exact hz x hx

theorem isDigit_of_mem_replicate {n : Nat} : ∀ z ∈ List.replicate n '0', z.isDigit = true := by
  intro z hz
  rw [List.eq_of_mem_replicate hz]
  rfl

/-- positional notation without digits before the point -/
theorem decimalText_below {d : Decimal} {point : Int}
    (he : point = d.exponent + d.digits.length) (low : point ≤ 0) :
    DecimalText d ('0' :: '.' :: (List.replicate (-point).toNat '0' ++ d.digits)) := by
  refine ⟨['0'], some (List.replicate (-point).toNat '0' ++ d.digits), none, ?_, by simp, ?_⟩
  · have digits : Digits (List.replicate (-point).toNat '0' ++ d.digits) := by
      obtain ⟨nonempty, all⟩ := digits_toDigits d.significand
      refine ⟨List.append_ne_nil_of_right_ne_nil _ nonempty, fun c hc => ?_⟩
      rcases List.mem_append.mp hc with hc | hc
      · exact isDigit_of_mem_replicate c hc
      · exact all c hc
    have parts := UnsignedText.parts (whole_toDigits 0) (.present digits) .absent
    rwa [List.append_nil] at parts
  · have significand : Nat.ofDigitChars 10
        (['0'] ++ (List.replicate (-point).toNat '0' ++ d.digits)) 0 = d.significand := by
      rw [Nat.ofDigitChars_append, Nat.ofDigitChars_append, Nat.ofDigitChars_replicate_zero]
      exact ofDigitChars_digits d
    unfold Decimal.value
    dsimp only [Option.getD]
    rw [significand, List.length_append, List.length_replicate]
    congr 2
    push_cast
    omega

/-- zeros behind the digits -/
theorem ofDigitChars_zeros (d : Decimal) (n : Nat) :
    Nat.ofDigitChars 10 (d.digits ++ List.replicate n '0') 0 = d.significand * 10 ^ n := by
  rw [Nat.ofDigitChars_append, ofDigitChars_digits, Nat.ofDigitChars_replicate_zero, mul_comm]

/-- positional notation without digits behind the point -/
theorem decimalText_whole {d : Decimal} (h : d.significand ≠ 0) {point : Int}
    (he : point = d.exponent + d.digits.length) (high : d.digits.length ≤ point.toNat) :
    DecimalText d (d.digits ++ List.replicate (point.toNat - d.digits.length) '0' ++
      ".0".toList) := by
  have length : 0 < d.digits.length := Nat.length_toDigits_pos
  refine ⟨d.digits ++ List.replicate (point.toNat - d.digits.length) '0', some ['0'], none, ?_,
    by simp, ?_⟩
  · have whole := whole_take h length (List.replicate (point.toNat - d.digits.length) '0')
      isDigit_of_mem_replicate
    rw [List.take_length] at whole
    exact .parts whole (.present (digits_toDigits 0)) .absent
  · have significand : Nat.ofDigitChars 10
        (d.digits ++ List.replicate (point.toNat - d.digits.length) '0' ++ ['0']) 0 =
          d.significand * 10 ^ (d.exponent.toNat + 1) := by
      have places : point.toNat - d.digits.length = d.exponent.toNat := by omega
      rw [Nat.ofDigitChars_append, ofDigitChars_zeros, places]
      show 10 * (d.significand * 10 ^ d.exponent.toNat) + 0 = _
      ring
    have exponent : (10 : Rat) ^ (d.exponent.toNat + 1) * 10 ^ (-1 : Int) = 10 ^ d.exponent := by
      rw [← zpow_natCast, ← zpow_add₀ (by norm_num)]
      congr 1
      push_cast
      omega
    unfold Decimal.value
    dsimp only [Option.getD]
    rw [significand, ← exponent]
    push_cast
    rw [mul_assoc]
    rfl

/-- the digits of a decimal, cut in two -/
theorem ofDigitChars_cut (d : Decimal) (n : Nat) :
    Nat.ofDigitChars 10 (d.digits.take n ++ d.digits.drop n) 0 = d.significand := by
  rw [List.take_append_drop, ofDigitChars_digits]

theorem digits_drop {d : Decimal} {n : Nat} (h : d.digits.drop n ≠ []) :
    Digits (d.digits.drop n) :=
  ⟨h, fun c hc => (digits_toDigits d.significand).2 c (List.mem_of_mem_drop hc)⟩

/-- positional notation with the point between digits -/
theorem decimalText_between {d : Decimal} (h : d.significand ≠ 0) {point : Int}
    (he : point = d.exponent + d.digits.length) (pos : 0 < point)
    (between : ¬ d.digits.length ≤ point.toNat) :
    DecimalText d (d.digits.take point.toNat ++ '.' :: d.digits.drop point.toNat) := by
  have rest : d.digits.drop point.toNat ≠ [] := by
    intro nothing
    exact between (List.drop_eq_nil_iff.mp nothing)
  refine ⟨d.digits.take point.toNat, some (d.digits.drop point.toNat), none, ?_, by simp, ?_⟩
  · have whole := whole_take h (n := point.toNat) (by omega) [] (by simp)
    rw [List.append_nil] at whole
    have parts := UnsignedText.parts whole (.present (digits_drop rest)) .absent
    rwa [List.append_nil] at parts
  · unfold Decimal.value
    dsimp only [Option.getD]
    rw [ofDigitChars_cut, List.length_drop]
    congr 2
    omega

/-- one digit before the point, and an exponent -/
theorem decimalText_writeExponent {d : Decimal} (h : d.significand ≠ 0) :
    DecimalText d (FloatLayout.writeExponent d.digits (d.exponent + d.digits.length - 1)) := by
  have length : 0 < d.digits.length := Nat.length_toDigits_pos
  have whole := whole_take h Nat.one_pos [] (by simp)
  rw [List.append_nil] at whole
  generalize he : d.exponent + d.digits.length - 1 = e
  have exponent : ExponentText (some e)
      ('e' :: (if e < 0 then '-' else '+') :: Nat.toDigits 10 e.natAbs) := by
    split_ifs with negative
    · have text := ExponentText.minus (.inl rfl) (digits_toDigits e.natAbs)
      rw [Nat.ofDigitChars_ten_toDigits] at text
      have size : -(e.natAbs : Int) = e := by omega
      rwa [size] at text
    · have text := ExponentText.plus (.inl rfl) (digits_toDigits e.natAbs)
      rw [Nat.ofDigitChars_ten_toDigits] at text
      have size : (e.natAbs : Int) = e := by omega
      rwa [size] at text
  have value (fraction : Option (List Char)) (same : fraction.getD [] = d.digits.drop 1) :
      Decimal.value ⟨Nat.ofDigitChars 10 (d.digits.take 1 ++ fraction.getD []) 0,
        (some e).getD 0 - (fraction.getD []).length⟩ = d.value := by
    rw [same, ofDigitChars_cut, List.length_drop, Option.getD_some]
    unfold Decimal.value
    congr 2
    dsimp only
    omega
  unfold FloatLayout.writeExponent
  cases more : d.digits.drop 1 with
  | nil =>
    rw [more] at value
    refine ⟨d.digits.take 1, none, some e, ?_, by simp, value none rfl⟩
    have parts := UnsignedText.parts whole .absent exponent
    simpa using parts
  | cons c cs =>
    have digits := digits_drop (d := d) (n := 1) (by rw [more]; simp)
    rw [more] at value digits
    refine ⟨d.digits.take 1, some (c :: cs), some e, ?_, by simp, value (some (c :: cs)) rfl⟩
    have parts := UnsignedText.parts whole (.present digits) exponent
    simpa using parts

/-- a decimal is written as a number of its value -/
theorem decimalText_writeDecimal {d : Decimal} (h : d.significand ≠ 0) :
    DecimalText d (FloatLayout.json.writeDecimal d) := by
  unfold FloatLayout.writeDecimal
  dsimp only
  split_ifs with positional
  · unfold FloatLayout.writePositional
    split_ifs with low high
    · exact decimalText_below (by omega) low
    · exact decimalText_whole h (by omega) high
    · exact decimalText_between h (by omega) (by omega) high
  · exact decimalText_writeExponent h

/-! ## Doubles -/

theorem unpack_isFinite {x : Float} (h : x.isFinite = true) :
    x.toModel.unpack.isFinite = true := h

/-- the text of a decimal with a sign -/
theorem DecimalText.signed {d : Decimal} {cs : List Char} (h : DecimalText d cs) :
    NumberText (.float d.toFloat) cs ∧ NumberText (.float (-d.toFloat)) ('-' :: cs) := by
  constructor
  · obtain ⟨whole, fraction, exponent, text, number⟩ := h.number false
    have positive := NumberText.positive text
    rwa [number] at positive
  · obtain ⟨whole, fraction, exponent, text, number⟩ := h.number true
    have negative := NumberText.negative text
    rwa [number] at negative

/-- a decimal that is read as a positive double is not zero -/
theorem significand_ne_zero {d : Decimal} {m : Nat} {e : Int} {pos : 0 < m}
    (h : d.toFloat = .ofModel (.pack (.finite .positive m e pos))) (canonical : Canonical m e) :
    d.significand ≠ 0 := by
  intro zero
  obtain ⟨n, k⟩ := d
  cases zero
  rw [Decimal.toFloat_zero] at h
  have unpacked := congrArg (fun x : Float => x.toModel.unpack) h
  have same : (Float.Model.pack (.finite .positive m e pos)).unpack = .finite .positive m e pos :=
    unpack_pack canonical
  dsimp only at unpacked
  rw [same] at unpacked
  cases unpacked

theorem decimalText_zero : DecimalText ⟨0, 0⟩ ('0' :: ".0".toList) := by
  refine ⟨['0'], some ['0'], none, ?_, by simp, ?_⟩
  · exact .parts (whole_toDigits 0) (.present (digits_toDigits 0)) .absent
  · show Decimal.value ⟨0, -1⟩ = _
    unfold Decimal.value
    simp

/-- What a layout writes of a finite double is a decimal that reads back, with its sign: what holds
of zeros and of all such decimals holds of doubles. -/
theorem write_of_decimals {layout : FloatLayout} {P : Float → List Char → Prop}
    (zero : P 0.0 ('0' :: layout.wholeEnd) ∧ P (-0.0) ('-' :: '0' :: layout.wholeEnd))
    (decimal : ∀ d : Decimal, d.significand ≠ 0 → P d.toFloat (layout.writeDecimal d) ∧
      P (-d.toFloat) ('-' :: layout.writeDecimal d))
    {x : Float} (finite : x.isFinite = true) : P x (layout.write x) := by
  have parts := ofModel_pack finite
  unfold FloatLayout.write
  split
  · next shape =>
    have := unpack_isFinite finite
    rw [shape] at this
    cases this
  · next shape =>
    have := unpack_isFinite finite
    rw [shape] at this
    cases this
  · next shape =>
    have := unpack_isFinite finite
    rw [shape] at this
    cases this
  · next s shape =>
    rw [shape] at parts
    rw [parts]
    cases s with
    | positive => exact zero.1
    | negative => exact zero.2
  · next s m e pos shape =>
    -- the digits are those of a positive number, so the first of them is no zero
    have back := Decimal.toFloat_shortest_abs layout.tie shape
    show P x (FloatLayout.signed s
      (layout.writeDecimal (Decimal.shortest layout.tie x.abs (Decimal.ofBinary m e))))
    generalize Decimal.shortest layout.tie x.abs (Decimal.ofBinary m e) = d at back ⊢
    have nonzero : d.significand ≠ 0 := significand_ne_zero (back.trans (abs_of_unpack shape))
      (canonical_of_unpack shape)
    obtain ⟨positive, negative⟩ := decimal d nonzero
    rw [back] at positive negative
    cases s with
    | positive =>
      rw [abs_of_positive shape] at positive
      exact positive
    | negative =>
      rw [neg_abs_of_negative shape] at negative
      exact negative

/-- a double is written as a number that is read as this double -/
theorem numberText_writeFloat {x : Float} (finite : x.isFinite = true) :
    NumberText (.float x) (FloatLayout.json.write x) := by
  have zero := decimalText_zero.signed
  rw [Decimal.toFloat_zero] at zero
  exact write_of_decimals (P := fun x cs => NumberText (.float x) cs) zero
    (fun _ nonzero => (decimalText_writeDecimal nonzero).signed) finite

theorem numberText_writeNumber {n : Number} (h : n.Storable) : NumberText n (writeNumber n) := by
  cases n with
  | integer n => exact numberText_writeInt h
  | float x => exact numberText_writeFloat h

theorem inRange_of_storable {n : Number} (h : n.Storable) : n.inRange = true := by
  cases n with
  | integer n => rfl
  | float x => exact h

/-! ## Values -/

theorem paddedText_of_valueText {v : Json} {cs : List Char} (h : ValueText .exact v cs) :
    PaddedText .exact v cs := by
  have padded := PaddedText.padded blanks_nil h blanks_nil
  rwa [List.append_nil] at padded

theorem keyText_writeString (key : String) : KeyText .exact key (writeString key) := by
  have padded := KeyText.padded blanks_nil (stringText_writeString key) blanks_nil
  rwa [List.append_nil] at padded

theorem itemsText_compactItems {v : Json} {vs : List Json}
    (h : ∀ w ∈ v :: vs, ValueText .exact w w.compactChars) :
    ItemsText .exact (v :: vs) (compactItems true (v :: vs)) := by
  show ItemsText .exact (v :: vs) (v.compactChars ++ compactItems false vs)
  induction vs generalizing v with
  | nil =>
    have last := ItemsText.last (paddedText_of_valueText (h v List.mem_cons_self))
    rwa [← List.append_nil v.compactChars] at last
  | cons w vs ih =>
    obtain ⟨first, rest⟩ := List.forall_mem_cons.mp h
    exact .more (paddedText_of_valueText first) (ih rest)

theorem membersText_compactMembers {m : String × Json} {ms : List (String × Json)}
    (h : ∀ n ∈ m :: ms, ValueText .exact n.2 n.2.compactChars) :
    MembersText .exact (m :: ms) (compactMembers true (m :: ms)) := by
  obtain ⟨k, v⟩ := m
  show MembersText .exact ((k, v) :: ms)
    (writeString k ++ ':' :: v.compactChars ++ compactMembers false ms)
  rw [List.append_assoc, List.cons_append]
  induction ms generalizing k v with
  | nil =>
    have value := paddedText_of_valueText (h (k, v) List.mem_cons_self)
    rw [compactMembers, List.append_nil]
    exact .last (keyText_writeString k) value
  | cons m ms ih =>
    obtain ⟨first, rest⟩ := List.forall_mem_cons.mp h
    obtain ⟨j, w⟩ := m
    have next := ih j w rest
    rw [← List.cons_append, ← List.append_assoc] at next
    exact .more (keyText_writeString k) (paddedText_of_valueText first) next

theorem valueText_compactChars {v : Json} (h : Storable v) : ValueText .exact v v.compactChars := by
  induction h with
  | null => exact .null
  | bool b => cases b <;> constructor
  | number h => exact .number (numberText_writeNumber h) fun _ => inRange_of_storable h
  | string s => exact .string (stringText_writeString s)
  | @array items _ ih =>
    cases items with
    | nil => exact .emptyArray blanks_nil
    | cons v vs => exact .array (itemsText_compactItems ih)
  | @object members _ ih =>
    cases members with
    | nil => exact .emptyObject blanks_nil
    | cons m ms => exact .object (membersText_compactMembers ih)

/-! ## Values on several lines -/

theorem blanks_newLine (level : Nat) : Blanks (newLine level) := by
  intro c hc
  rcases List.mem_cons.mp hc with rfl | hc
  · rfl
  · rw [List.eq_of_mem_replicate hc]
    rfl

/-- items, each on a line of its own, and the blanks behind them -/
theorem itemsText_prettyItems {level : Nat} {b : List Char} (hb : Blanks b) {v : Json}
    {vs : List Json} (h : ∀ w ∈ v :: vs, ValueText .exact w (w.prettyChars level)) :
    ItemsText .exact (v :: vs)
      (newLine level ++ (v.prettyChars level ++ (prettyItems level vs ++ b))) := by
  induction vs generalizing v with
  | nil => exact .last (.padded (blanks_newLine level) (h v List.mem_cons_self) hb)
  | cons w vs ih =>
    obtain ⟨first, rest⟩ := List.forall_mem_cons.mp h
    have line := PaddedText.padded (blanks_newLine level) first blanks_nil
    have items := ItemsText.more line (ih rest)
    simpa only [prettyItems, List.append_nil, List.append_assoc, List.cons_append] using items

theorem membersText_prettyMembers {level : Nat} {b : List Char} (hb : Blanks b) {k : String}
    {v : Json} {ms : List (String × Json)}
    (h : ∀ n ∈ (k, v) :: ms, ValueText .exact n.2 (n.2.prettyChars level)) :
    MembersText .exact ((k, v) :: ms) (newLine level ++ (writeString k ++
      ':' :: ' ' :: (v.prettyChars level ++ (prettyMembers level ms ++ b)))) := by
  have key (k : String) : KeyText .exact k (newLine level ++ writeString k) := by
    have padded := KeyText.padded (blanks_newLine level) (stringText_writeString k) blanks_nil
    rwa [List.append_nil] at padded
  have blank : Blanks [' '] := by
    intro c hc
    rw [List.mem_singleton.mp hc]
    rfl
  induction ms generalizing k v with
  | nil =>
    have line := PaddedText.padded blank (h (k, v) List.mem_cons_self) hb
    have members := MembersText.last (key k) line
    simpa only [prettyMembers, List.nil_append, List.append_assoc, List.cons_append] using members
  | cons m ms ih =>
    obtain ⟨first, rest⟩ := List.forall_mem_cons.mp h
    obtain ⟨j, w⟩ := m
    have line := PaddedText.padded blank first blanks_nil
    have members := MembersText.more (key k) line (ih rest)
    simpa only [prettyMembers, List.append_nil, List.nil_append, List.append_assoc,
      List.cons_append] using members

theorem valueText_prettyChars {v : Json} (h : Storable v) (level : Nat) :
    ValueText .exact v (v.prettyChars level) := by
  induction h generalizing level with
  | null => exact .null
  | bool b => cases b <;> constructor
  | number h => exact .number (numberText_writeNumber h) fun _ => inRange_of_storable h
  | string s => exact .string (stringText_writeString s)
  | @array items _ ih =>
    cases items with
    | nil => exact .emptyArray blanks_nil
    | cons v vs =>
      have lines := itemsText_prettyItems (blanks_newLine level) fun w hw => ih w hw (level + 1)
      have text := ValueText.array lines
      simpa only [prettyChars, List.append_assoc] using text
  | @object members _ ih =>
    cases members with
    | nil => exact .emptyObject blanks_nil
    | cons m ms =>
      obtain ⟨k, v⟩ := m
      have lines := membersText_prettyMembers (blanks_newLine level)
        fun n hn => ih n hn (level + 1)
      have text := ValueText.object lines
      simpa only [prettyChars, List.append_assoc, List.cons_append] using text

end Grammar

/-- **What is written is read.**  The text without blanks is a text of the value. -/
theorem text_compact {v : Json} (h : Storable v) : Text v v.compact := by
  unfold Text compact
  rw [String.toList_ofList]
  exact Grammar.paddedText_of_valueText (Grammar.valueText_compactChars h)

/-- and so is the text with one member or item a line -/
theorem text_pretty {v : Json} (h : Storable v) : Text v v.pretty := by
  unfold Text pretty
  rw [String.toList_ofList]
  exact Grammar.paddedText_of_valueText (Grammar.valueText_prettyChars h 0)

end Json
end Chance
