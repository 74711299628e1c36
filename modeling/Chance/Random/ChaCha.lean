import Chance.Random.Source

/-!
# The ChaCha stream

ChaCha with twelve rounds, a key of eight words, a block counter of 64 bits from zero and no
nonce.  A draw takes two words of the stream, the first one lower, and keeps the upper 53 bits.
The key is spread out of a seed of 64 bits by a linear congruential generator with a permuted
output, or given by its bytes.
-/

namespace Chance

namespace ChaCha

/-! ## Blocks -/

/-- four words, a row of the state -/
structure Row where
  w0 : UInt32
  w1 : UInt32
  w2 : UInt32
  w3 : UInt32
deriving DecidableEq, Repr

namespace Row

def zip (f : UInt32 → UInt32 → UInt32) (x y : Row) : Row :=
  ⟨f x.w0 y.w0, f x.w1 y.w1, f x.w2 y.w2, f x.w3 y.w3⟩

/-- the words one place to the left, the first one last -/
def turn (x : Row) : Row := ⟨x.w1, x.w2, x.w3, x.w0⟩

def toList (x : Row) : List UInt32 := [x.w0, x.w1, x.w2, x.w3]

end Row

/-- a word rotated left by `n` bits, `0 < n < 32` -/
def rotateLeft (n : UInt32) (w : UInt32) : UInt32 := (w <<< n) ||| (w >>> (32 - n))

/-- exclusive or, then a rotation by `n` bits -/
def mix (n : UInt32) (x y : Row) : Row := x.zip (fun a b => rotateLeft n (a ^^^ b)) y

def plus (x y : Row) : Row := x.zip (· + ·) y

/-- the sixteen words of a block -/
structure State where
  a : Row
  b : Row
  c : Row
  d : Row
deriving DecidableEq, Repr

namespace State

/-- the quarter rounds of all four columns -/
def columnRound (s : State) : State :=
  let a := plus s.a s.b
  let d := mix 16 s.d a
  let c := plus s.c d
  let b := mix 12 s.b c
  let a := plus a b
  let d := mix 8 d a
  let c := plus c d
  let b := mix 7 b c
  ⟨a, b, c, d⟩

/-- the diagonals turned into columns -/
def slant (s : State) : State := ⟨s.a, s.b.turn, s.c.turn.turn, s.d.turn.turn.turn⟩

/-- the columns turned back into diagonals -/
def unslant (s : State) : State := ⟨s.a, s.b.turn.turn.turn, s.c.turn.turn, s.d.turn⟩

def doubleRound (s : State) : State := s.columnRound.slant.columnRound.unslant

def block (s : State) : State :=
  let r := Nat.repeat doubleRound 6 s
  ⟨plus r.a s.a, plus r.b s.b, plus r.c s.c, plus r.d s.d⟩

def words (s : State) : List UInt32 := s.a.toList ++ s.b.toList ++ s.c.toList ++ s.d.toList

end State

def constants : Row := ⟨0x61707865, 0x3320646e, 0x79622d32, 0x6b206574⟩

def initial (key : Row × Row) (n : Nat) : State :=
  ⟨constants, key.1, key.2, ⟨n.toUInt32, (n >>> 32).toUInt32, 0, 0⟩⟩

def word (key : Row × Row) (i : Nat) : UInt32 :=
  ((initial key (i / 16)).block.words[i % 16]?).getD 0

/-! ## Seeds -/

/-- the step of the generator behind a seed -/
def seedStep (state : UInt64) : UInt64 := state * 6364136223846793005 + 11634580027462260723

def seedWord (state : UInt64) : UInt32 :=
  let mixed := (((state >>> 18) ^^^ state) >>> 27).toUInt32
  let turns := (state >>> 59).toUInt32
  if turns = 0 then mixed else rotateLeft (32 - turns) mixed

/-- the states after a state, `n` of them -/
def seedStates : Nat → UInt64 → List UInt64
  | 0, _ => []
  | n + 1, state => seedStep state :: seedStates n (seedStep state)

def keyOf (seed : UInt64) : Row × Row :=
  match (seedStates 8 seed).map seedWord with
  | [a, b, c, d, e, f, g, h] => (⟨a, b, c, d⟩, ⟨e, f, g, h⟩)
  | _ => (⟨0, 0, 0, 0⟩, ⟨0, 0, 0, 0⟩)

end ChaCha

/-- the stream of a key, `taken` draws after its start -/
structure ChaCha where
  key : ChaCha.Row × ChaCha.Row
  taken : Nat
deriving DecidableEq, Repr

namespace ChaCha

def seeded (seed : UInt64) : ChaCha := ⟨keyOf seed, 0⟩

/-- the word of four bytes, the lowest one first -/
def wordOfBytes (bytes : List UInt8) : UInt32 := bytes.foldr (fun b n => n * 256 + b.toUInt32) 0

/-- the stream whose key is given by its thirty-two bytes -/
def ofBytes (bytes : List UInt8) : ChaCha :=
  let word i := wordOfBytes ((bytes.drop (4 * i)).take 4)
  ⟨(⟨word 0, word 1, word 2, word 3⟩, ⟨word 4, word 5, word 6, word 7⟩), 0⟩

def draw (s : ChaCha) : Float :=
  let low := word s.key (2 * s.taken)
  let high := word s.key (2 * s.taken + 1)
  uniformDouble ((low.toUInt64 ||| (high.toUInt64 <<< 32)) >>> 11)

instance : Source ChaCha where
  next s := (s.draw, { s with taken := s.taken + 1 })

end ChaCha
end Chance
