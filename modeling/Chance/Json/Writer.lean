import Chance.Json
import Chance.Decimal.Layout

/-!
# Writing JSON

`compact` writes a value without blanks, `pretty` with two blanks of indentation for each level
and one member or item a line.  Objects are written in the order of their members.
-/

namespace Chance
namespace Json

def hexPair (n : Nat) : List Char := [Nat.digitChar (n / 16), Nat.digitChar (n % 16)]

/-- a character inside a string: quotes, backslashes and controls are escaped -/
def escapeChar (c : Char) : List Char :=
  if c = '"' then ['\\', '"']
  else if c = '\\' then ['\\', '\\']
  else if c = '\x08' then ['\\', 'b']
  else if c = '\t' then ['\\', 't']
  else if c = '\n' then ['\\', 'n']
  else if c = '\x0c' then ['\\', 'f']
  else if c = '\r' then ['\\', 'r']
  else if c.toNat < 32 then '\\' :: 'u' :: '0' :: '0' :: hexPair c.toNat
  else [c]

def writeString (s : String) : List Char :=
  '"' :: (s.toList.flatMap escapeChar ++ ['"'])

def writeInt (n : Int) : List Char :=
  if n < 0 then '-' :: Nat.toDigits 10 n.natAbs else Nat.toDigits 10 n.natAbs

def writeNumber : Number → List Char
  | .integer n => writeInt n
  | .float x => FloatLayout.json.write x

/-- the scalars are written alike in both forms -/
def writeBool (b : Bool) : List Char := if b then "true".toList else "false".toList

mutual

def compactChars : Json → List Char
  | .null => "null".toList
  | .bool b => writeBool b
  | .number n => writeNumber n
  | .string s => writeString s
  | .array items => '[' :: (compactItems true items ++ [']'])
  | .object members => '{' :: (compactMembers true members ++ ['}'])

def compactItems (first : Bool) : List Json → List Char
  | [] => []
  | x :: xs => (if first then [] else [',']) ++ compactChars x ++ compactItems false xs

def compactMembers (first : Bool) : List (String × Json) → List Char
  | [] => []
  | (k, v) :: rest =>
    (if first then [] else [',']) ++ writeString k ++ ':' :: compactChars v
      ++ compactMembers false rest

end

def newLine (level : Nat) : List Char := '\n' :: List.replicate (2 * level) ' '

mutual

def prettyChars (level : Nat) : Json → List Char
  | .null => "null".toList
  | .bool b => writeBool b
  | .number n => writeNumber n
  | .string s => writeString s
  | .array [] => ['[', ']']
  | .array (x :: xs) =>
    '[' :: (newLine (level + 1) ++ prettyChars (level + 1) x ++ prettyItems (level + 1) xs
      ++ newLine level ++ [']'])
  | .object [] => ['{', '}']
  | .object ((k, v) :: rest) =>
    '{' :: (newLine (level + 1) ++ writeString k ++ ':' :: ' ' :: prettyChars (level + 1) v
      ++ prettyMembers (level + 1) rest ++ newLine level ++ ['}'])

def prettyItems (level : Nat) : List Json → List Char
  | [] => []
  | x :: xs => ',' :: (newLine level ++ prettyChars level x ++ prettyItems level xs)

def prettyMembers (level : Nat) : List (String × Json) → List Char
  | [] => []
  | (k, v) :: rest =>
    ',' :: (newLine level ++ writeString k ++ ':' :: ' ' :: prettyChars level v
      ++ prettyMembers level rest)

end

/-- the text without blanks -/
def compact (v : Json) : String := String.ofList v.compactChars

/-- the text with one member or item a line -/
def pretty (v : Json) : String := String.ofList (v.prettyChars 0)

end Json
end Chance
