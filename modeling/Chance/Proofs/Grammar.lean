import Chance.Json.Reader
import Mathlib

/-!
# The grammar of JSON

Which texts are a JSON value: a relation between values and texts with one constructor for each
production, next to the reader and not through it.  Blanks are part of `PaddedText`; a string
takes every character but quotes, backslashes and controls as it is, and a surrogate escape only
in a pair; a number is one that doubles reach.  A `loose` text, one that is passed over, differs in
the last two: every escape stands alone, and a number may be of any size.

* `Json.depth`          how many lists and objects stand inside each other;
* `Care`                whether a text is used or passed over;
* `StringText`, `NumberText`   the tokens that have parts;
* `ValueText`, `PaddedText`, `ItemsText`, `MembersText`   values, lists and objects;
* `Json.Text`           a whole text.
-/

namespace Chance
namespace Json

/-! ## Depth -/

mutual

/-- how many lists and objects stand inside each other -/
def depth : Json → Nat
  | .array items => 1 + depthItems items
  | .object members => 1 + depthMembers members
  | .null => 0
  | .bool _ => 0
  | .number _ => 0
  | .string _ => 0

def depthItems : List Json → Nat
  | [] => 0
  | v :: vs => max (depth v) (depthItems vs)

def depthMembers : List (String × Json) → Nat
  | [] => 0
  | (_, v) :: rest => max (depth v) (depthMembers rest)

end

theorem depthItems_le {d : Nat} {vs : List Json} :
    depthItems vs ≤ d ↔ ∀ v ∈ vs, v.depth ≤ d := by
  induction vs with
  | nil => simp [depthItems]
  | cons v vs ih => simp [depthItems, ih]

theorem depthMembers_le {d : Nat} {ms : List (String × Json)} :
    depthMembers ms ≤ d ↔ ∀ m ∈ ms, m.2.depth ≤ d := by
  induction ms with
  | nil => simp [depthMembers]
  | cons m ms ih =>
    obtain ⟨k, v⟩ := m
    simp only [depthMembers, max_le_iff, ih, List.forall_mem_cons]

namespace Grammar

open Reader

/-- nothing but blanks -/
def Blanks (cs : List Char) : Prop := ∀ c ∈ cs, isBlank c = true

/-- how closely a text is looked at -/
inductive Care where
  /-- the text of a value that is used -/
  | exact
  /-- the text of a value that is passed over -/
  | loose
deriving DecidableEq, Repr

/-! ## Strings -/

/-- the letters of the short escapes and the characters they stand for -/
def shortEscapes : List (Char × Char) :=
  [('"', '"'), ('\\', '\\'), ('/', '/'), ('b', '\x08'), ('f', '\x0c'), ('n', '\n'), ('r', '\r'),
    ('t', '\t')]

/-- four hexadecimal digits and their number -/
inductive UnitText : Nat → List Char → Prop
  | four {a b c d : Char} {i j k l : Nat} (ha : hexDigit? a = some i) (hb : hexDigit? b = some j)
      (hc : hexDigit? c = some k) (hd : hexDigit? d = some l) :
      UnitText (((i * 16 + j) * 16 + k) * 16 + l) [a, b, c, d]

/-- the texts of a character inside a string -/
inductive CharText (k : Care) : Char → List Char → Prop
  | raw {c : Char} (control : 32 ≤ c.toNat) (quote : c ≠ '"') (backslash : c ≠ '\\') :
      CharText k c [c]
  | short {letter c : Char} (h : (letter, c) ∈ shortEscapes) : CharText k c ['\\', letter]
  | unit {n : Nat} {ds : List Char} (h : UnitText n ds)
      (alone : k = .exact → isHighSurrogate n = false ∧ isLowSurrogate n = false) :
      CharText k (Char.ofNat n) ('\\' :: 'u' :: ds)
  | pair {m n : Nat} {ds es : List Char} (care : k = .exact) (hm : UnitText m ds)
      (hn : UnitText n es) (high : isHighSurrogate m = true) (low : isLowSurrogate n = true) :
      CharText k (ofSurrogates m n) ('\\' :: 'u' :: (ds ++ '\\' :: 'u' :: es))

/-- the texts of the characters of a string -/
inductive CharsText (k : Care) : List Char → List Char → Prop
  | nil : CharsText k [] []
  | cons {c : Char} {s cs ds : List Char} (h : CharText k c cs) (hs : CharsText k s ds) :
      CharsText k (c :: s) (cs ++ ds)

inductive StringText (k : Care) : String → List Char → Prop
  | quoted {s : List Char} {cs : List Char} (h : CharsText k s cs) :
      StringText k (String.ofList s) ('"' :: (cs ++ ['"']))

/-! ## Numbers -/

/-- at least one digit -/
def Digits (ds : List Char) : Prop := ds ≠ [] ∧ ∀ d ∈ ds, d.isDigit = true

/-- digits of which the first is no zero, or a zero alone -/
def Whole (ds : List Char) : Prop := Digits ds ∧ (ds.head? = some '0' → ds = ['0'])

/-- a point and digits, or nothing -/
inductive FractionText : Option (List Char) → List Char → Prop
  | absent : FractionText none []
  | present {ds : List Char} (h : Digits ds) : FractionText (some ds) ('.' :: ds)

/-- a letter, a sign if there is one, and digits, or nothing -/
inductive ExponentText : Option Int → List Char → Prop
  | absent : ExponentText none []
  | bare {e : Char} {ds : List Char} (letter : e = 'e' ∨ e = 'E') (h : Digits ds) :
      ExponentText (some (Nat.ofDigitChars 10 ds 0)) (e :: ds)
  | plus {e : Char} {ds : List Char} (letter : e = 'e' ∨ e = 'E') (h : Digits ds) :
      ExponentText (some (Nat.ofDigitChars 10 ds 0)) (e :: '+' :: ds)
  | minus {e : Char} {ds : List Char} (letter : e = 'e' ∨ e = 'E') (h : Digits ds) :
      ExponentText (some (-(Nat.ofDigitChars 10 ds 0 : Int))) (e :: '-' :: ds)

/-- the text of a number without its sign -/
inductive UnsignedText : List Char → Option (List Char) → Option Int → List Char → Prop
  | parts {whole fs es : List Char} {fraction : Option (List Char)} {exponent : Option Int}
      (hw : Whole whole) (hf : FractionText fraction fs) (he : ExponentText exponent es) :
      UnsignedText whole fraction exponent (whole ++ (fs ++ es))

inductive NumberText : Number → List Char → Prop
  | positive {whole cs : List Char} {fraction : Option (List Char)} {exponent : Option Int}
      (h : UnsignedText whole fraction exponent cs) :
      NumberText (Reader.numberOf false whole fraction exponent) cs
  | negative {whole cs : List Char} {fraction : Option (List Char)} {exponent : Option Int}
      (h : UnsignedText whole fraction exponent cs) :
      NumberText (Reader.numberOf true whole fraction exponent) ('-' :: cs)

/-! ## Values -/

/-- a key, up to the colon -/
inductive KeyText (k : Care) : String → List Char → Prop
  | padded {key : String} {a cs b : List Char} (ha : Blanks a) (h : StringText k key cs)
      (hb : Blanks b) : KeyText k key (a ++ (cs ++ b))

mutual

/-- the texts of a value -/
inductive ValueText (k : Care) : Json → List Char → Prop
  | null : ValueText k .null ['n', 'u', 'l', 'l']
  | yes : ValueText k (.bool true) ['t', 'r', 'u', 'e']
  | no : ValueText k (.bool false) ['f', 'a', 'l', 's', 'e']
  | number {n : Number} {cs : List Char} (h : NumberText n cs)
      (range : k = .exact → n.inRange = true) : ValueText k (.number n) cs
  | string {s : String} {cs : List Char} (h : StringText k s cs) : ValueText k (.string s) cs
  | emptyArray {a : List Char} (ha : Blanks a) : ValueText k (.array []) ('[' :: (a ++ [']']))
  | array {vs : List Json} {cs : List Char} (h : ItemsText k vs cs) :
      ValueText k (.array vs) ('[' :: (cs ++ [']']))
  | emptyObject {a : List Char} (ha : Blanks a) : ValueText k (.object []) ('{' :: (a ++ ['}']))
  | object {ms : List (String × Json)} {cs : List Char} (h : MembersText k ms cs) :
      ValueText k (.object ms) ('{' :: (cs ++ ['}']))

/-- a value with blanks around it -/
inductive PaddedText (k : Care) : Json → List Char → Prop
  | padded {v : Json} {a cs b : List Char} (ha : Blanks a) (h : ValueText k v cs) (hb : Blanks b) :
      PaddedText k v (a ++ (cs ++ b))

/-- one or more items with commas between them -/
inductive ItemsText (k : Care) : List Json → List Char → Prop
  | last {v : Json} {cs : List Char} (h : PaddedText k v cs) : ItemsText k [v] cs
  | more {v : Json} {vs : List Json} {cs ds : List Char} (h : PaddedText k v cs)
      (hs : ItemsText k vs ds) : ItemsText k (v :: vs) (cs ++ ',' :: ds)

/-- one or more members with commas between them -/
inductive MembersText (k : Care) : List (String × Json) → List Char → Prop
  | last {key : String} {v : Json} {ks cs : List Char} (hk : KeyText k key ks)
      (h : PaddedText k v cs) : MembersText k [(key, v)] (ks ++ ':' :: cs)
  | more {key : String} {v : Json} {ms : List (String × Json)} {ks cs ds : List Char}
      (hk : KeyText k key ks) (h : PaddedText k v cs) (hs : MembersText k ms ds) :
      MembersText k ((key, v) :: ms) (ks ++ ':' :: (cs ++ ',' :: ds))

end

end Grammar

/-- the text is this value, with blanks around it -/
def Text (v : Json) (text : String) : Prop := Grammar.PaddedText .exact v text.toList

end Json
end Chance
