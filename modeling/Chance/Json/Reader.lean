import Chance.Json

/-!
# Reading JSON

One function per rule of the grammar, over lists of characters; each returns what it read and the
rest of the text, or the fault of the first character that fits no rule.  `value` is the grammar,
bounded in depth; `object` and `list` hand each member or item to a step, so that a reader that
expects a certain shape can stop at the first item that does not have it.

Two sets of `Rules` occur.  `Rules.strict` is for values that are used; `Rules.skimmed` is for
values that are passed over, where escapes need not be paired and numbers may be of any size.
-/

namespace Chance
namespace Json

/-- is the number within the range of doubles? -/
def Number.inRange : Number → Bool
  | .integer _ => true
  | .float x => x.isFinite

namespace Reader

/-- a reader of something at the front of a text -/
abbrev Reading (α : Type) := List Char → Except Fault (α × List Char)

/-- how closely a value is looked at -/
structure Rules where
  /-- a surrogate escape needs its partner -/
  paired : Bool
  /-- a number has to lie within the range of doubles -/
  bounded : Bool
  /-- the fault of a number that the end of the text cuts short -/
  cutNumber : Fault

/-- for values that are used -/
def Rules.strict : Rules := ⟨true, true, .truncated⟩

/-- for values that are passed over -/
def Rules.skimmed : Rules := ⟨false, false, .malformed⟩

/-! ## Blanks and words -/

def isBlank (c : Char) : Bool := c == ' ' || c == '\t' || c == '\n' || c == '\r'

def skipBlank (cs : List Char) : List Char := cs.dropWhile isBlank

/-- the given characters and nothing else -/
def word : List Char → List Char → Except Fault (List Char)
  | [], cs => .ok cs
  | _ :: _, [] => .error .truncated
  | w :: ws, c :: cs => if c = w then word ws cs else .error .malformed

theorem skipBlank_cons_of_isBlank {c : Char} (h : isBlank c = true) (cs : List Char) :
    skipBlank (c :: cs) = skipBlank cs := by simp [skipBlank, h]

theorem skipBlank_cons_of_not_isBlank {c : Char} (h : isBlank c = false) (cs : List Char) :
    skipBlank (c :: cs) = c :: cs := by simp [skipBlank, h]

/-- nothing but the word is accepted -/
theorem eq_append_of_word {ws cs rest : List Char} (h : word ws cs = .ok rest) :
    cs = ws ++ rest := by
  induction ws generalizing cs with
  | nil => simpa [word] using h
  | cons w ws ih =>
    cases cs with
    | nil => simp [word] at h
    | cons c cs =>
      by_cases hc : c = w
      · simp only [word, hc, if_true] at h
        simp [hc, ih h]
      · simp [word, hc] at h

/-- a given character after blanks -/
def token (t : Char) (cs : List Char) : Except Fault (List Char) :=
  match skipBlank cs with
  | [] => .error .truncated
  | c :: rest => if c = t then .ok rest else .error .malformed

/-! ## Strings -/

def hexDigit? (c : Char) : Option Nat :=
  if c.isDigit then some (c.toNat - 48)
  else if 'a' ≤ c ∧ c ≤ 'f' then some (c.toNat - 87)
  else if 'A' ≤ c ∧ c ≤ 'F' then some (c.toNat - 55)
  else none

/-- The four hexadecimal digits of an escape.  Fewer than four bytes before the end of the text
are a text cut short. -/
def hexFour : Reading Nat
  | a :: b :: c :: d :: rest =>
    match hexDigit? a, hexDigit? b, hexDigit? c, hexDigit? d with
    | some a, some b, some c, some d => .ok (((a * 16 + b) * 16 + c) * 16 + d, rest)
    | _, _, _, _ => .error .malformed
  | short =>
    if (String.ofList short).utf8ByteSize < 4 then .error .truncated else .error .malformed

def isHighSurrogate (n : Nat) : Bool := decide (0xD800 ≤ n ∧ n < 0xDC00)

def isLowSurrogate (n : Nat) : Bool := decide (0xDC00 ≤ n ∧ n < 0xE000)

/-- the character that a surrogate pair stands for -/
def ofSurrogates (high low : Nat) : Char :=
  Char.ofNat (0x10000 + (high - 0xD800) * 0x400 + (low - 0xDC00))

/-- the second half of a surrogate pair, after its first half -/
def lowSurrogate (high : Nat) : Reading Char
  | [] | ['\\'] => .error .truncated
  | '\\' :: 'u' :: rest =>
    match hexFour rest with
    | .error f => .error f
    | .ok (low, rest) =>
      if isLowSurrogate low then .ok (ofSurrogates high low, rest) else .error .malformed
  | _ => .error .malformed

def numericEscape (rules : Rules) (cs : List Char) : Except Fault (Char × List Char) :=
  match hexFour cs with
  | .error f => .error f
  | .ok (n, rest) =>
    if rules.paired && isLowSurrogate n then .error .malformed
    else if rules.paired && isHighSurrogate n then lowSurrogate n rest
    else .ok (Char.ofNat n, rest)

def escape (rules : Rules) : Reading Char
  | [] => .error .truncated
  | '"' :: rest => .ok ('"', rest)
  | '\\' :: rest => .ok ('\\', rest)
  | '/' :: rest => .ok ('/', rest)
  | 'b' :: rest => .ok ('\x08', rest)
  | 'f' :: rest => .ok ('\x0c', rest)
  | 'n' :: rest => .ok ('\n', rest)
  | 'r' :: rest => .ok ('\r', rest)
  | 't' :: rest => .ok ('\t', rest)
  | 'u' :: rest => numericEscape rules rest
  | _ => .error .malformed

/-- The characters of a string up to its closing quote.  Every step takes a character off the
text, so the text itself is a list long enough to count the steps. -/
def stringChars (rules : Rules) : List Char → Reading (List Char)
  | [], _ => .error .truncated
  | _ :: _, [] => .error .truncated
  | _ :: fuel, c :: rest =>
    if c = '"' then .ok ([], rest)
    else if c = '\\' then
      match escape rules rest with
      | .error f => .error f
      | .ok (d, rest) =>
        match stringChars rules fuel rest with
        | .error f => .error f
        | .ok (s, rest) => .ok (d :: s, rest)
    else if c.toNat < 32 then .error .malformed
    else
      match stringChars rules fuel rest with
      | .error f => .error f
      | .ok (s, rest) => .ok (c :: s, rest)

def stringRest (rules : Rules) (cs : List Char) : Except Fault (String × List Char) :=
  match stringChars rules cs cs with
  | .error f => .error f
  | .ok (s, rest) => .ok (String.ofList s, rest)

/-! ## Numbers -/

/-- a run of digits, at least one -/
def digitRun (rules : Rules) (cs : List Char) : Except Fault (List Char × List Char) :=
  match cs with
  | [] => .error rules.cutNumber
  | c :: _ =>
    if c.isDigit then .ok (cs.takeWhile Char.isDigit, cs.dropWhile Char.isDigit)
    else .error .malformed

/-- the digits before the point, without a leading zero -/
def wholeDigits (rules : Rules) (cs : List Char) : Except Fault (List Char × List Char) :=
  match digitRun rules cs with
  | .error f => .error f
  | .ok ('0' :: _ :: _, _) => .error .malformed
  | .ok (ds, rest) => .ok (ds, rest)

/-- the digits after the point, if there is one -/
def fractionDigits (rules : Rules) : Reading (Option (List Char))
  | '.' :: rest =>
    match digitRun rules rest with
    | .error f => .error f
    | .ok (ds, rest) => .ok (some ds, rest)
  | cs => .ok (none, cs)

/-- an exponent after its letter -/
def signedExponent (rules : Rules) (cs : List Char) : Except Fault (Int × List Char) :=
  match cs with
  | '-' :: rest =>
    match digitRun rules rest with
    | .error f => .error f
    | .ok (ds, rest) => .ok (-(Nat.ofDigitChars 10 ds 0 : Int), rest)
  | '+' :: rest =>
    match digitRun rules rest with
    | .error f => .error f
    | .ok (ds, rest) => .ok (Nat.ofDigitChars 10 ds 0, rest)
  | _ =>
    match digitRun rules cs with
    | .error f => .error f
    | .ok (ds, rest) => .ok (Nat.ofDigitChars 10 ds 0, rest)

/-- the exponent, if there is one -/
def exponentPart (rules : Rules) : Reading (Option Int)
  | c :: rest =>
    if c = 'e' ∨ c = 'E' then
      match signedExponent rules rest with
      | .error f => .error f
      | .ok (e, rest) => .ok (some e, rest)
    else .ok (none, c :: rest)
  | [] => .ok (none, [])

/-- The number of an integer text: an integer within 64 bits, else the nearest double.  There is
no integer minus zero. -/
def integerNumber (negative : Bool) (n : Nat) : Number :=
  if negative then
    if n ≠ 0 ∧ n ≤ 0x8000000000000000 then .integer (-n) else .float (-(Decimal.toFloat ⟨n, 0⟩))
  else if n < UInt64.size then .integer n
  else .float (Decimal.toFloat ⟨n, 0⟩)

/-- the double of a text with a fraction or an exponent -/
def floatNumber (negative : Bool) (whole fraction : List Char) (exponent : Int) : Float :=
  let magnitude := Decimal.toFloat
    ⟨Nat.ofDigitChars 10 (whole ++ fraction) 0, exponent - fraction.length⟩
  if negative then -magnitude else magnitude

/-- the number of the parts of its text -/
def numberOf (negative : Bool) (whole : List Char) (fraction : Option (List Char))
    (exponent : Option Int) : Number :=
  match fraction, exponent with
  | none, none => integerNumber negative (Nat.ofDigitChars 10 whole 0)
  | _, _ => .float (floatNumber negative whole (fraction.getD []) (exponent.getD 0))

def unsignedNumber (rules : Rules) (negative : Bool) (cs : List Char) :
    Except Fault (Number × List Char) :=
  match wholeDigits rules cs with
  | .error f => .error f
  | .ok (whole, rest) =>
    match fractionDigits rules rest with
    | .error f => .error f
    | .ok (fraction, rest) =>
      match exponentPart rules rest with
      | .error f => .error f
      | .ok (exponent, rest) =>
        let n := numberOf negative whole fraction exponent
        if rules.bounded && !n.inRange then .error .malformed else .ok (n, rest)

def number (rules : Rules) : Reading Number
  | '-' :: rest => unsignedNumber rules true rest
  | cs => unsignedNumber rules false cs

/-! ## Lists and objects, one step per item -/

/-- the items of a list, after its opening bracket, with at least one item; the first list of
characters counts the items -/
def listItems {σ : Type} (step : σ → Reading σ) : List Char → σ → Reading σ
  | [], _, _ => .error .truncated
  | _ :: fuel, s, cs =>
    match step s cs with
    | .error f => .error f
    | .ok (s, rest) =>
      match skipBlank rest with
      | [] => .error .truncated
      | ']' :: rest => .ok (s, rest)
      | ',' :: rest => listItems step fuel s rest
      | _ => .error .malformed

def list {σ : Type} (step : σ → Reading σ) (s : σ) (cs : List Char) :
    Except Fault (σ × List Char) :=
  match skipBlank cs with
  | [] => .error .truncated
  | ']' :: rest => .ok (s, rest)
  | rest => listItems step rest s rest

def memberKey (rules : Rules) (cs : List Char) : Except Fault (String × List Char) :=
  match token '"' cs with
  | .error f => .error f
  | .ok rest => stringRest rules rest

/-- the members of an object, after its opening brace, with at least one member; the step is
handed the key and the text after it, and the first list of characters counts the members -/
def objectMembers {σ : Type} (rules : Rules) (step : σ → String → Reading σ) :
    List Char → σ → Reading σ
  | [], _, _ => .error .truncated
  | _ :: fuel, s, cs =>
    match memberKey rules cs with
    | .error f => .error f
    | .ok (key, rest) =>
      match step s key rest with
      | .error f => .error f
      | .ok (s, rest) =>
        match skipBlank rest with
        | [] => .error .truncated
        | '}' :: rest => .ok (s, rest)
        | ',' :: rest => objectMembers rules step fuel s rest
        | _ => .error .malformed

def object {σ : Type} (rules : Rules) (step : σ → String → Reading σ) (s : σ)
    (cs : List Char) : Except Fault (σ × List Char) :=
  match skipBlank cs with
  | [] => .error .truncated
  | '}' :: rest => .ok (s, rest)
  | rest => objectMembers rules step rest s rest

/-! ## Values -/

/-- a list step that reads an item and puts it in front of those read so far -/
def itemStep (item : Reading Json) (items : List Json) (cs : List Char) :
    Except Fault (List Json × List Char) :=
  match item cs with
  | .error f => .error f
  | .ok (v, rest) => .ok (v :: items, rest)

/-- an object step that reads a member and puts it in front of those read so far -/
def memberStep (item : Reading Json) (members : List (String × Json)) (key : String)
    (cs : List Char) : Except Fault (List (String × Json) × List Char) :=
  match token ':' cs with
  | .error f => .error f
  | .ok rest =>
    match item rest with
    | .error f => .error f
    | .ok (v, rest) => .ok ((key, v) :: members, rest)

/-- a keyword value, after its first letter -/
def keyword (letters : String) (v : Json) (cs : List Char) : Except Fault (Json × List Char) :=
  match word letters.toList cs with
  | .error f => .error f
  | .ok rest => .ok (v, rest)

/-- A value with at most `depth` lists and objects inside each other. -/
def value (rules : Rules) : Nat → Reading Json
  | depth, cs =>
    match skipBlank cs with
    | [] => .error .truncated
    | 'n' :: rest => keyword "ull" .null rest
    | 't' :: rest => keyword "rue" (.bool true) rest
    | 'f' :: rest => keyword "alse" (.bool false) rest
    | '"' :: rest =>
      match stringRest rules rest with
      | .error f => .error f
      | .ok (s, rest) => .ok (.string s, rest)
    | '[' :: rest =>
      match depth with
      | 0 => .error .malformed
      | depth + 1 =>
        match list (itemStep (value rules depth)) [] rest with
        | .error f => .error f
        | .ok (items, rest) => .ok (.array items.reverse, rest)
    | '{' :: rest =>
      match depth with
      | 0 => .error .malformed
      | depth + 1 =>
        match object rules (memberStep (value rules depth)) [] rest with
        | .error f => .error f
        | .ok (members, rest) => .ok (.object members.reverse, rest)
    | c :: rest =>
      if c = '-' ∨ c.isDigit then
        match number rules (c :: rest) with
        | .error f => .error f
        | .ok (n, rest) => .ok (.number n, rest)
      else .error .malformed

/-- how many lists and objects may stand inside each other -/
def depthLimit : Nat := 127

/-- A value that is passed over; nothing in it can be nested deeper than the text is long. -/
def skimmed (cs : List Char) : Except Fault (Unit × List Char) :=
  match value .skimmed cs.length cs with
  | .error f => .error f
  | .ok (_, rest) => .ok ((), rest)

/-! ## Whole texts -/

/-- the whole text is read, blanks around it apart -/
def whole {α : Type} (reading : Reading α) (text : String) : Except Fault α :=
  match reading text.toList with
  | .error f => .error f
  | .ok (a, rest) => if (skipBlank rest).isEmpty then .ok a else .error .malformed

/-! ## Readers that expect a shape -/

/-- a scalar; a list or an object in its place has the wrong shape as soon as it opens -/
def scalar (cs : List Char) : Except Fault (Json × List Char) :=
  match skipBlank cs with
  | '[' :: _ | '{' :: _ => .error .misshapen
  | rest => value .strict 0 rest

/-- the fault of a value in whose place something else was expected -/
def wrongShape (cs : List Char) : Fault :=
  match scalar cs with
  | .error f => f
  | .ok _ => .misshapen

/-- a string in a place where nothing else fits -/
def onlyString (cs : List Char) : Except Fault (String × List Char) :=
  match scalar cs with
  | .error f => .error f
  | .ok (.string s, rest) => .ok (s, rest)
  | .ok _ => .error .misshapen

/-- `null` in a place where nothing else fits -/
def onlyNull (cs : List Char) : Except Fault (Unit × List Char) :=
  match scalar cs with
  | .error f => .error f
  | .ok (.null, rest) => .ok ((), rest)
  | .ok _ => .error .misshapen

end Reader

def read (text : String) : Except Fault Json :=
  Reader.whole (Reader.value .strict Reader.depthLimit) text

end Json
end Chance
