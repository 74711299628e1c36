import Chance.Law
import Chance.Proofs.Parsing
import Chance.Proofs.Writing

/-!
# Texts of numbers and distributions for people

The text of a finite double never has an exponent, and none of its parts is lost: it is the text of
a JSON number, an integer where the double is whole, that has the value of the double.  So the text
tells the double, also inside the text of a distribution, where a blank or a brace ends it.

* `ReadsAs`               the text of a JSON number with the value of a double;
* `readsAs_plain`         plain text of a finite double;
* `plain_inj`             the text tells the double;
* `Law.eq_of_text`, `Distribution.eq_of_text`   the text tells the parameters.
-/

namespace Chance

open Json.Grammar

/-- the text of a JSON number, integer or not, that has the value of the double -/
def ReadsAs (x : Float) (cs : List Char) : Prop := ∃ n, NumberText n cs ∧ n.toFloat = x

/-! ## Numbers -/

/-- integers with and without a sign, and those that are too large for 64 bits -/
theorem toFloat_integerNumber (negative : Bool) (n : Nat) :
    (Json.Reader.integerNumber negative n).toFloat =
      if negative then -Decimal.toFloat ⟨n, 0⟩ else Decimal.toFloat ⟨n, 0⟩ := by
  unfold Json.Reader.integerNumber
  cases negative with
  | true =>
    rw [if_pos rfl, if_pos rfl]
    split
    · next range =>
      have below : -(n : Int) < 0 := by omega
      show Json.floatOfInt (-(n : Int)) = _
      unfold Json.floatOfInt
      rw [if_pos below, Int.natAbs_neg, Int.natAbs_natCast]
    · rfl
  | false =>
    rw [if_neg Bool.false_ne_true, if_neg Bool.false_ne_true]
    split
    · have above : ¬ (n : Int) < 0 := by omega
      show Json.floatOfInt n = _
      unfold Json.floatOfInt
      rw [if_neg above, Int.natAbs_natCast]
    · rfl

/-- digits without a point -/
theorem readsAs_whole {whole : List Char} (hw : Whole whole) {d : Decimal}
    (value : Decimal.value ⟨Nat.ofDigitChars 10 whole 0, 0⟩ = d.value) :
    ReadsAs d.toFloat whole ∧ ReadsAs (-d.toFloat) ('-' :: whole) := by
  have parts : UnsignedText whole none none whole := by
    have text := UnsignedText.parts hw .absent .absent
    rwa [List.append_nil, List.append_nil] at text
  have number := Decimal.toFloat_congr value
  refine ⟨⟨_, .positive parts, ?_⟩, ⟨_, .negative parts, ?_⟩⟩
  · exact (toFloat_integerNumber false _).trans number
  · exact (toFloat_integerNumber true _).trans (congrArg (fun x => -x) number)

/-- digits with a point -/
theorem readsAs_decimalText {d : Decimal} {cs : List Char} (h : DecimalText d cs) :
    ReadsAs d.toFloat cs ∧ ReadsAs (-d.toFloat) ('-' :: cs) :=
  ⟨⟨_, h.signed.1, rfl⟩, ⟨_, h.signed.2, rfl⟩⟩

theorem readsAs_writeDecimal {d : Decimal} (h : d.significand ≠ 0) :
    ReadsAs d.toFloat (FloatLayout.plain.writeDecimal d) ∧
      ReadsAs (-d.toFloat) ('-' :: FloatLayout.plain.writeDecimal d) := by
  have length : 0 < d.digits.length := Nat.length_toDigits_pos
  show ReadsAs _ (FloatLayout.plain.writePositional d.digits (d.exponent + d.digits.length - 1 + 1))
    ∧ ReadsAs _ ('-' :: FloatLayout.plain.writePositional d.digits _)
  generalize hp : d.exponent + d.digits.length - 1 + 1 = point
  unfold FloatLayout.writePositional
  split_ifs with low high
  · exact readsAs_decimalText (decimalText_below (by omega) low)
  · show ReadsAs _ (d.digits ++ List.replicate (point.toNat - d.digits.length) '0' ++ []) ∧
      ReadsAs _ ('-' :: (d.digits ++ List.replicate (point.toNat - d.digits.length) '0' ++ []))
    rw [List.append_nil]
    have whole := whole_take h length (List.replicate (point.toNat - d.digits.length) '0')
      isDigit_of_mem_replicate
    rw [List.take_length] at whole
    refine readsAs_whole whole ?_
    have places : point.toNat - d.digits.length = d.exponent.toNat := by omega
    have exponent : (10 : Rat) ^ d.exponent.toNat = 10 ^ d.exponent := by
      rw [← zpow_natCast]
      congr 1
      omega
    rw [ofDigitChars_zeros, places]
    unfold Decimal.value
    dsimp only
    rw [zpow_zero, mul_one, ← exponent]
    push_cast
    rfl
  · exact readsAs_decimalText (decimalText_between h (by omega) (by omega) high)

/-- the text of a double is that of a number of its value -/
theorem readsAs_plain {x : Float} (finite : x.isFinite = true) :
    ReadsAs x (FloatLayout.plain.write x) := by
  have zero : ReadsAs 0.0 ['0'] ∧ ReadsAs (-0.0) ['-', '0'] := by
    have text := readsAs_whole (whole_toDigits 0) (d := ⟨0, 0⟩) rfl
    rwa [Decimal.toFloat_zero] at text
  exact write_of_decimals (P := ReadsAs) zero (fun _ => readsAs_writeDecimal) finite

/-- a text is that of one double -/
theorem ReadsAs.unique {x y : Float} {cs : List Char} (hx : ReadsAs x cs) (hy : ReadsAs y cs)
    (finiteX : x.isFinite = true) (finiteY : y.isFinite = true) : x = y := by
  have text {z : Float} {n : Json.Number} (hn : NumberText n cs) (same : n.toFloat = z)
      (finite : z.isFinite = true) : Json.Text (.number n) (String.ofList cs) := by
    have range : n.inRange = true := by
      cases n with
      | integer n => rfl
      | float y =>
        change y = z at same
        exact same ▸ finite
    unfold Json.Text
    rw [String.toList_ofList]
    exact paddedText_of_valueText (.number hn fun _ => range)
  obtain ⟨n, hn, rfl⟩ := hx
  obtain ⟨k, hk, rfl⟩ := hy
  cases Json.text_unique (text hn rfl finiteX) (text hk rfl finiteY)
  rfl

/-- **plain text of numbers** tells them apart -/
theorem plain_inj {x y : Float} (hx : x.isFinite = true) (hy : y.isFinite = true)
    (same : FloatLayout.plain.write x = FloatLayout.plain.write y) : x = y :=
  (readsAs_plain hx).unique (same ▸ readsAs_plain hy) hx hy

/-! ## Parameters -/

/-- no number has a blank in its text -/
theorem noBlank_numberText {n : Json.Number} {cs : List Char} (h : NumberText n cs) : ' ' ∉ cs := by
  have digits {ds : List Char} (h : Digits ds) : ' ' ∉ ds := fun blank => by
    cases h.2 ' ' blank
  have unsigned {whole cs : List Char} {fraction : Option (List Char)} {exponent : Option Int}
      (h : UnsignedText whole fraction exponent cs) : ' ' ∉ cs := by
    obtain ⟨hw, hf, he⟩ := h
    rw [List.mem_append, List.mem_append, not_or, not_or]
    refine ⟨digits hw.1, ?_, ?_⟩
    · cases hf with
      | absent => exact List.not_mem_nil
      | present h => exact List.not_mem_cons_of_ne_of_not_mem (by decide) (digits h)
    · cases he with
      | absent => exact List.not_mem_nil
      | bare letter h => rcases letter with rfl | rfl <;> simp [digits h]
      | plus letter h => rcases letter with rfl | rfl <;> simp [digits h]
      | minus letter h => rcases letter with rfl | rfl <;> simp [digits h]
  cases h with
  | positive h => exact unsigned h
  | negative h => exact List.not_mem_cons_of_ne_of_not_mem (by decide) (unsigned h)

theorem noBlank_plain {x : Float} (finite : x.isFinite = true) :
    ' ' ∉ FloatLayout.plain.write x := by
  obtain ⟨n, text, -⟩ := readsAs_plain finite
  exact noBlank_numberText text

/-- one parameter, up to the brace -/
theorem eq_of_parameter {x y : Float} (hx : x.isFinite = true) (hy : y.isFinite = true)
    {first rest : List Char}
    (same : first ++ (FloatLayout.plain.write x ++ rest) =
      first ++ (FloatLayout.plain.write y ++ rest)) : x = y :=
  plain_inj hx hy (List.append_cancel_right (List.append_cancel_left same))

/-- texts up to the first blank -/
theorem append_blank_inj {a b c d : List Char} (ha : ' ' ∉ a) (hb : ' ' ∉ b)
    (same : a ++ ' ' :: c = b ++ ' ' :: d) : a = b ∧ c = d := by
  induction a generalizing b with
  | nil => cases b with
    | nil => exact ⟨rfl, (List.cons.inj same).2⟩
    | cons e b => exact absurd ((List.cons.inj same).1 ▸ List.mem_cons_self) hb
  | cons e a ih => cases b with
    | nil => exact absurd ((List.cons.inj same).1 ▸ List.mem_cons_self) ha
    | cons f b =>
      obtain ⟨rfl, more⟩ := List.cons.inj same
      obtain ⟨rfl, rfl⟩ := ih (List.not_mem_of_not_mem_cons ha)
        (List.not_mem_of_not_mem_cons hb) more
      exact ⟨rfl, rfl⟩

/-- two parameters, the first one up to the blank -/
theorem eq_of_parameters {x y u v : Float} (hx : x.isFinite = true) (hy : y.isFinite = true)
    (hu : u.isFinite = true) (hv : v.isFinite = true) {first second rest : List Char}
    (same : first ++ (FloatLayout.plain.write x ++ ' ' :: (second ++
        (FloatLayout.plain.write u ++ rest))) =
      first ++ (FloatLayout.plain.write y ++ ' ' :: (second ++
        (FloatLayout.plain.write v ++ rest)))) : x = y ∧ u = v := by
  obtain ⟨texts, more⟩ := append_blank_inj (noBlank_plain hx) (noBlank_plain hy)
    (List.append_cancel_left same)
  exact ⟨plain_inj hx hy texts, eq_of_parameter hu hv more⟩

/-! ## Distributions -/

/-- a law whose parameters are finite -/
def Law.Finite : Law → Prop
  | .normal mean sd => mean.isFinite = true ∧ sd.isFinite = true
  | .beta a b => a.isFinite = true ∧ b.isFinite = true

def Distribution.Finite : Distribution → Prop
  | .bernoulli p => p.isFinite = true
  | .flip p => p.isFinite = true
  | .continuous law => law.Finite

theorem toList_parameterText (name : String) (x : Float) :
    (Law.parameterText name x).toList = name.toList ++ "=".toList ++ FloatLayout.plain.write x := by
  unfold Law.parameterText FloatLayout.text
  rw [String.toList_append, String.toList_append]
  exact congrArg _ String.toList_ofList

theorem toList_oneParameter (family name : String) (x : Float) :
    (family ++ Law.parameterText name x ++ "\x7d").toList =
      (family.toList ++ name.toList ++ "=".toList) ++
        (FloatLayout.plain.write x ++ "\x7d".toList) := by
  rw [String.toList_append, String.toList_append, toList_parameterText]
  simp only [List.append_assoc]

theorem toList_twoParameters (family first second : String) (x y : Float) :
    (family ++ Law.parameterText first x ++ " " ++ Law.parameterText second y ++ "\x7d").toList =
      (family.toList ++ first.toList ++ "=".toList) ++ (FloatLayout.plain.write x ++ ' ' ::
        ((second.toList ++ "=".toList) ++ (FloatLayout.plain.write y ++ "\x7d".toList))) := by
  have blank : " ".toList = [' '] := rfl
  rw [String.toList_append, String.toList_append, String.toList_append, String.toList_append,
    toList_parameterText, toList_parameterText, blank]
  simp only [List.append_assoc, List.cons_append, List.nil_append]

/-- the text of a law with its name tells the law -/
theorem Law.eq_of_text {l k : Law} (hl : l.Finite) (hk : k.Finite) (name : l.name = k.name)
    (text : l.text = k.text) : l = k := by
  have lists := congrArg String.toList text
  cases l with
  | normal m s => cases k with
    | normal n t =>
      unfold Law.text at lists
      rw [toList_twoParameters, toList_twoParameters] at lists
      obtain ⟨rfl, rfl⟩ := eq_of_parameters hl.1 hk.1 hl.2 hk.2 lists
      rfl
    | beta a b => simp [Law.name] at name
  | beta a b => cases k with
    | beta c d =>
      unfold Law.text at lists
      rw [toList_twoParameters, toList_twoParameters] at lists
      obtain ⟨rfl, rfl⟩ := eq_of_parameters hl.1 hk.1 hl.2 hk.2 lists
      rfl
    | normal n t => simp [Law.name] at name

/-- the text of a distribution with its name tells the distribution -/
theorem Distribution.eq_of_text {d e : Distribution} (hd : d.Finite) (he : e.Finite)
    (name : d.name = e.name) (text : d.text = e.text) : d = e := by
  have lists := congrArg String.toList text
  cases d with
  | bernoulli p => cases e with
    | bernoulli q =>
      unfold Distribution.text at lists
      rw [toList_oneParameter, toList_oneParameter] at lists
      rw [eq_of_parameter hd he lists]
    | flip q => simp [Distribution.name] at name
    | continuous law => cases law <;> simp [Distribution.name, Law.name] at name
  | flip p => cases e with
    | bernoulli q => simp [Distribution.name] at name
    | flip q =>
      unfold Distribution.text at lists
      rw [toList_oneParameter, toList_oneParameter] at lists
      rw [eq_of_parameter hd he lists]
    | continuous law => cases law <;> simp [Distribution.name, Law.name] at name
  | continuous law => cases e with
    | bernoulli q => cases law <;> simp [Distribution.name, Law.name] at name
    | flip q => cases law <;> simp [Distribution.name, Law.name] at name
    | continuous law' => exact congrArg Distribution.continuous (Law.eq_of_text hd he name text)

end Chance
