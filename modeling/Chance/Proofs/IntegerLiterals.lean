import Chance.Law.Cumulative
import Chance.Proofs.Denotation
import Chance.Proofs.Evaluation
import Chance.Proofs.Writing

/-!
# Integer literals

What becomes of an integer that a program has for a constant.  The reader keeps integers from
`-2^63` to `2^64 - 1`, and of these the 64-bit integers are literals and the rest is out of range.
Any other integer, and minus zero, is a double before it is asked whether it is a literal, so that
it is rounded instead of refused.

* `IntegerText`, `ConstantText`   the texts of an integer, and of a program that is a constant;
* `Number.ofText`, `numberText_of_integerText`   the number that an integer text is read as;
* `read_constant`         a constant is read as its number, or refused where that is out of range;
* `Yields`                a text is a program with the same result whatever the random source;
* `integer_literals`      the value of each integer text;
* `wide_literal_rounded`  an integer of 65 bits is a sample of doubles.
-/

namespace Chance
namespace Json

open Grammar

/-! ## Texts -/

/-- the texts of an integer: digits, with a minus sign in front of them if there is one -/
inductive IntegerText : Int → List Char → Prop
  | unsigned {ds : List Char} (h : Whole ds) : IntegerText (Nat.ofDigitChars 10 ds 0 : Nat) ds
  | signed {ds : List Char} (h : Whole ds) :
      IntegerText (-(Nat.ofDigitChars 10 ds 0 : Nat)) ('-' :: ds)

/-- the only integer text whose double is not that of its integer -/
def minusZero : List Char := ['-', '0']

theorem le_ofDigitChars (ds : List Char) (n : Nat) : n ≤ Nat.ofDigitChars 10 ds n := by
  induction ds generalizing n with
  | nil => exact Nat.le_refl n
  | cons d ds ih =>
    have step := ih (10 * n + (d.toNat - '0'.toNat))
    rw [Nat.ofDigitChars_cons]
    omega

/-- zero has one text without a sign -/
theorem eq_zero_of_whole {ds : List Char} (h : Whole ds) (zero : Nat.ofDigitChars 10 ds 0 = 0) :
    ds = ['0'] := by
  obtain ⟨d, more, rfl, digit⟩ := h.head
  have first := le_ofDigitChars more (10 * 0 + (d.toNat - '0'.toNat))
  rw [← Nat.ofDigitChars_cons, zero] at first
  refine h.2 (congrArg some ?_)
  have low : 48 ≤ d.toNat := by
    simp only [Char.isDigit, Bool.and_eq_true, decide_eq_true_eq] at digit
    exact UInt32.le_iff_toNat_le.mp digit.1
  refine Char.toNat_inj.mp ?_
  show d.toNat = 48
  have base : '0'.toNat = 48 := rfl
  omega

theorem eq_zero_of_minusZero {n : Int} (h : IntegerText n minusZero) : n = 0 := by
  cases h with
  | unsigned whole => exact absurd (whole.1.2 '-' List.mem_cons_self) (by decide)
  | signed _ => rfl

theorem integerText_writeInt (n : Int) : IntegerText n (writeInt n) := by
  have whole := whole_toDigits n.natAbs
  have value := Nat.ofDigitChars_ten_toDigits (n := n.natAbs)
  unfold writeInt
  split
  · have text := IntegerText.signed whole
    rwa [value, show -(n.natAbs : Int) = n by omega] at text
  · have text := IntegerText.unsigned whole
    rwa [value, show (n.natAbs : Int) = n by omega] at text

/-! ## Numbers -/

/-- what an integer text is read as: an integer of 64 bits, with or without a sign, or a double -/
def Number.ofText (n : Int) (cs : List Char) : Number :=
  if cs = minusZero then .float (-0.0)
  else if -2 ^ 63 ≤ n ∧ n < 2 ^ 64 then .integer n
  else .float (floatOfInt n)

theorem numberText_of_integerText {n : Int} {cs : List Char} (h : IntegerText n cs) :
    NumberText (.ofText n cs) cs := by
  have parts {ds : List Char} (h : Whole ds) : UnsignedText ds none none ds := by
    have text := UnsignedText.parts h .absent .absent
    rwa [List.append_nil, List.append_nil] at text
  cases h with
  | @unsigned ds h =>
    have text := NumberText.positive (parts h)
    obtain ⟨d, more, rfl, digit⟩ := h.head
    have sign : d :: more ≠ minusZero := by
      rintro ⟨⟩
      exact absurd digit (by decide)
    have number : Reader.numberOf false (d :: more) none none =
        .ofText (Nat.ofDigitChars 10 (d :: more) 0 : Nat) (d :: more) := by
      unfold Reader.numberOf Reader.integerNumber Number.ofText
      have size : UInt64.size = 2 ^ 64 := rfl
      dsimp only
      rw [if_neg (by decide), if_neg sign, size]
      by_cases small : Nat.ofDigitChars 10 (d :: more) 0 < 2 ^ 64
      · rw [if_pos small, if_pos ⟨by omega, by omega⟩]
      · rw [if_neg small, if_neg (by omega)]
        unfold floatOfInt
        rw [if_neg (by omega), Int.natAbs_natCast]
    rwa [number] at text
  | @signed ds h =>
    have text := NumberText.negative (parts h)
    have number : Reader.numberOf true ds none none =
        .ofText (-(Nat.ofDigitChars 10 ds 0 : Nat)) ('-' :: ds) := by
      unfold Reader.numberOf Reader.integerNumber Number.ofText
      dsimp only
      rw [if_pos rfl]
      by_cases zero : Nat.ofDigitChars 10 ds 0 = 0
      · rw [if_neg fun within => within.1 zero, eq_zero_of_whole h zero]
        exact (if_pos rfl).symm
      · have other : '-' :: ds ≠ minusZero := by
          rintro ⟨⟩
          exact zero rfl
        rw [if_neg other]
        by_cases small : Nat.ofDigitChars 10 ds 0 ≤ 2 ^ 63
        · rw [if_pos ⟨zero, small⟩, if_pos ⟨by omega, by omega⟩]
        · rw [if_neg fun within => small within.2, if_neg (by omega)]
          unfold floatOfInt
          rw [if_pos (by omega), Int.natAbs_neg, Int.natAbs_natCast]
    rwa [number] at text

end Json

namespace Program

open Json Json.Grammar Json.Reader

/-! ## Constants -/

/-- the texts of an object whose only member is a constant, told by the text of its value -/
inductive ConstantText (cs : List Char) : String → Prop
  | object {a ks d e b : List Char} (ha : Blanks a) (hk : KeyText .exact "const" ks) (hd : Blanks d)
      (he : Blanks e) (hb : Blanks b) :
      ConstantText cs
        (String.ofList (a ++ (('{' :: ((ks ++ ':' :: (d ++ (cs ++ e))) ++ ['}'])) ++ b)))

/-- an object is refused with its first member -/
theorem value_object_refused {key : String} {ks cs : List Char} {d : Nat} {f : Json.Fault}
    (hk : KeyText .exact key ks) (refused : value .strict d cs = .error f) :
    value .strict (d + 1) ('{' :: (ks ++ ':' :: cs)) = .error f := by
  cases hk with
  | @padded a t b ha hs hb =>
    have trimmed := key_complete (.padded blanks_nil hs hb) cs
    obtain ⟨t, rfl⟩ : ∃ t', t = '"' :: t' := by
      cases hs with
      | quoted _ => exact ⟨_, rfl⟩
    have members : Reader.object .strict _ _ _ = _ :=
      object_members (memberStep (value .strict d)) [] ha (t ++ b ++ ':' :: cs)
    obtain ⟨rest, first, colon⟩ := trimmed
    have step : memberStep (value .strict d) [] key rest = .error f := by
      simp only [memberStep, colon, refused]
    have shape : a ++ ('"' :: t ++ b) ++ ':' :: cs = a ++ '"' :: (t ++ b ++ ':' :: cs) := by
      simp
    have shape' : [] ++ ('"' :: t ++ b) ++ ':' :: cs = '"' :: (t ++ b ++ ':' :: cs) := by
      simp
    rw [shape'] at first
    change memberKey .strict _ = _ at first
    rw [value_object, shape, members]
    simp only [objectMembers, first, step]

/-- a number that is a constant is read, or refused where it is out of range -/
theorem read_constant {cs : List Char} {text : String} (program : ConstantText cs text)
    {n : Json.Number} (h : NumberText n cs) :
    Program.read text =
      if n.inRange = true then .ok (.const (.number n)) else .error .malformed := by
  split
  · next range =>
    refine read_eq_ok_iff.mpr ⟨.object [("const", .number n)], ?_, ?_⟩
    · refine Json.read_eq_ok_iff.mpr ⟨?_, by simp [depth, depthMembers, depthLimit]⟩
      cases program with
      | object ha hk hd he hb =>
        unfold Json.Text
        rw [String.toList_ofList]
        exact .padded ha (.object (.last hk (.padded hd (.number h fun _ => range) he))) hb
    · exact .const (@Sole.amid "const" [] [] _ nofun nofun)
  · next range =>
    have refused : value .strict depthLimit text.toList = .error .malformed := by
      cases program with
      | @object a ks d e b ha hk hd he hb =>
        have stop : NoPart (e ++ '}' :: b) := (Ends.append he (ends_brace b)).noPart
        have number : Reader.number .strict _ = _ := number_eq h stop
        obtain ⟨c, cs', rfl, hc⟩ := h.starts
        have item : value .strict 126 (d ++ (c :: cs' ++ (e ++ '}' :: b))) = .error .malformed := by
          rw [value_blanks hd, List.cons_append, value_number hc, ← List.cons_append, number,
            if_pos (by simpa [Rules.strict] using range)]
        have shape : '{' :: (ks ++ ':' :: (d ++ (c :: cs' ++ e)) ++ ['}']) ++ b =
            '{' :: (ks ++ ':' :: (d ++ (c :: cs' ++ (e ++ '}' :: b)))) := by
          simp
        rw [String.toList_ofList, value_blanks ha, shape]
        exact value_object_refused hk item
    unfold Program.read whole reading
    rw [refused]

/-! ## Results -/

/-- the text is a program with this result, from each source and without a draw -/
def Yields (F : Cumulative) (text : String) (r : Except (Fault Float) (Value Float)) : Prop :=
  ∃ p, Program.read text = .ok p ∧ ∀ {σ : Type} [Source σ] (s : σ), p.eval F s = (r, s)

variable {n : Int} {cs : List Char} {text : String}

theorem yields_ofText (F : Cumulative) (digits : IntegerText n cs) (program : ConstantText cs text)
    (range : (Number.ofText n cs).inRange = true) :
    Yields F text (Value.constant (.number (.ofText n cs))) := by
  have read := read_constant program (numberText_of_integerText digits)
  rw [if_pos range] at read
  exact ⟨_, read, fun s => eval_const F _ s⟩

/-- outside the range of the reader's integers -/
theorem ofText_of_wide (h : n < -2 ^ 63 ∨ 2 ^ 64 ≤ n) (digits : IntegerText n cs) :
    Number.ofText n cs = .float (floatOfInt n) := by
  have other : cs ≠ minusZero := by
    rintro rfl
    have zero := eq_zero_of_minusZero digits
    omega
  unfold Number.ofText
  rw [if_neg other, if_neg (by omega)]

/-- inside it, minus zero apart -/
theorem ofText_of_narrow (low : -2 ^ 63 ≤ n) (high : n < 2 ^ 64) (other : cs ≠ minusZero) :
    Number.ofText n cs = .integer n := by
  unfold Number.ofText
  rw [if_neg other, if_pos ⟨low, high⟩]

/-- **The value of an integer text.**  Integers of 64 bits are exact, unless the text is minus zero;
those that need all 64 bits for their magnitude are out of range; all others are rounded to a
double, or are no JSON where they are beyond all doubles. -/
theorem integer_literals (F : Cumulative) (digits : IntegerText n cs)
    (program : ConstantText cs text) :
    (cs ≠ minusZero → -2 ^ 63 ≤ n → n < 2 ^ 63 →
      ∃ k : Int64, k.toInt = n ∧ Yields F text (.ok (.int (Pmf.certain k)))) ∧
    (2 ^ 63 ≤ n → n < 2 ^ 64 → Yields F text (.error (.unsupportedConstant (.outOfRange n)))) ∧
    (n < -2 ^ 63 ∨ 2 ^ 64 ≤ n → (floatOfInt n).isFinite = true →
      Yields F text (.ok (.float (Pmf.certain (.ofFloat (floatOfInt n)))))) ∧
    (n < -2 ^ 63 ∨ 2 ^ 64 ≤ n → (floatOfInt n).isFinite = false →
      Program.read text = .error .malformed) ∧
    (cs = minusZero → Yields F text (.ok (.float (Pmf.certain (.ofFloat (-0.0)))))) := by
  have yields := yields_ofText F digits program
  refine ⟨fun other low high => ?_, fun low high => ?_, fun wide finite => ?_,
    fun wide infinite => ?_, fun zero => ?_⟩
  · have integer : Number.ofText n cs = .integer n := ofText_of_narrow low (by omega) other
    have exact : (Int64.ofInt n).toInt = n := Int64.toInt_ofInt_of_le low high
    have literal : Value.constant (M := Float) (.number (.integer n)) =
        .ok (.int (Pmf.certain (Int64.ofInt n))) := by
      simp only [Value.constant, Literal.ofJson, int64?_eq_some_iff.mpr exact, Literal.toValue]
    rw [integer, literal] at yields
    exact ⟨_, exact, yields rfl⟩
  · have other : cs ≠ minusZero := by
      rintro rfl
      have zero := eq_zero_of_minusZero digits
      omega
    have none : int64? n = none := by
      refine Option.eq_none_iff_forall_ne_some.mpr fun k hk => ?_
      have bound := k.toInt_lt
      have exact := int64?_eq_some_iff.mp hk
      omega
    have refused : Value.constant (M := Float) (.number (.integer n)) =
        .error (.unsupportedConstant (.outOfRange n)) := by
      simp only [Value.constant, Literal.ofJson, none]
    rw [ofText_of_narrow (by omega) high other, refused] at yields
    exact yields rfl
  · rw [ofText_of_wide wide digits] at yields
    exact yields finite
  · have read := read_constant program (numberText_of_integerText digits)
    rw [ofText_of_wide wide digits] at read
    exact read.trans (if_neg fun finite => absurd (infinite.symm.trans finite) (by decide))
  · rw [Number.ofText, if_pos zero] at yields
    exact yields (by decide)

/-! ### An integer of 65 bits -/

/-- the object with one blank, in front of the constant -/
def constantObject (cs : List Char) : String :=
  String.ofList ('{' :: (writeString "const" ++ ':' :: ' ' :: (cs ++ ['}'])))

theorem constantText_constantObject (cs : List Char) : ConstantText cs (constantObject cs) := by
  have blank : Blanks [' '] := by
    intro c hc
    rw [List.mem_singleton.mp hc]
    rfl
  have text : ConstantText cs _ :=
    .object blanks_nil (keyText_writeString "const") blank blanks_nil blanks_nil
  simpa [constantObject] using text

theorem integer_literals_wide :
    IntegerText (2 ^ 64) (writeInt (2 ^ 64)) ∧
    ConstantText (writeInt (2 ^ 64)) (constantObject (writeInt (2 ^ 64))) ∧
    Yields Law.cumulative (constantObject (writeInt (2 ^ 64)))
      (.ok (.float (Pmf.certain (.ofFloat (floatOfInt (2 ^ 64)))))) := by
  have digits := integerText_writeInt (2 ^ 64)
  have program := constantText_constantObject (writeInt (2 ^ 64))
  refine ⟨digits, program, ?_⟩
  exact (integer_literals Law.cumulative digits program).2.2.1 (by decide) (by decide +kernel)

/-- the result of a text does not depend on how it is found -/
theorem Yields.unique {F : Cumulative} {r r' : Except (Fault Float) (Value Float)}
    (h : Yields F text r) (h' : Yields F text r') : r = r' := by
  obtain ⟨p, read, result⟩ := h
  obtain ⟨p', read', result'⟩ := h'
  cases read.symm.trans read'
  let s : Sequence := ⟨fun _ => 0.0, 0⟩
  exact congrArg Prod.fst ((result s).symm.trans (result' s))

/-- an integer out of range that is a sample of doubles instead of being refused -/
theorem wide_literal_rounded :
    IntegerText (2 ^ 64) (writeInt (2 ^ 64)) ∧
    ConstantText (writeInt (2 ^ 64)) (constantObject (writeInt (2 ^ 64))) ∧
    ¬ (2 : Int) ^ 64 < 2 ^ 63 ∧
    Yields Law.cumulative (constantObject (writeInt (2 ^ 64)))
      (.ok (.float (Pmf.certain (.ofFloat (floatOfInt (2 ^ 64)))))) ∧
    ¬ ∃ why, Yields Law.cumulative (constantObject (writeInt (2 ^ 64)))
      (.error (.unsupportedConstant why)) := by
  have digits := integerText_writeInt (2 ^ 64)
  have program := constantText_constantObject (writeInt (2 ^ 64))
  have rounded := yields_ofText Law.cumulative digits program
  rw [ofText_of_wide (by decide) digits] at rounded
  have result := rounded (by decide +kernel)
  refine ⟨digits, program, by decide, result, ?_⟩
  rintro ⟨why, refused⟩
  cases refused.unique result

end Program
end Chance
