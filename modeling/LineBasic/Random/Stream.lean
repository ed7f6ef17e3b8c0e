/-!
# A stream of random words

The stream cipher ChaCha with twelve rounds, used as a generator of 32-bit words. A seed of 64 bits
is spread over the key by a congruential generator with a permuted output.
-/
namespace LineBasic.Random

/-- Four words side by side: a row of the cipher's state. -/
structure Row where
  a : UInt32
  b : UInt32
  c : UInt32
  d : UInt32
deriving DecidableEq, Repr

namespace Row

def zip (f : UInt32 → UInt32 → UInt32) (x y : Row) : Row :=
  ⟨f x.a y.a, f x.b y.b, f x.c y.c, f x.d y.d⟩

def map (f : UInt32 → UInt32) (x : Row) : Row :=
  ⟨f x.a, f x.b, f x.c, f x.d⟩

/-- Moves the words one place to the left, the first to the end. -/
def turn (x : Row) : Row :=
  ⟨x.b, x.c, x.d, x.a⟩

def words (x : Row) : List UInt32 :=
  [x.a, x.b, x.c, x.d]

end Row

/-- Rotates a word to the left, by less than its width. -/
def rotate (n x : UInt32) : UInt32 :=
  (x <<< n) ||| (x >>> ((32 - n) % 32))

/-- The cipher's state, row by row: constants, key, key, counter and nonce. -/
structure State where
  r0 : Row
  r1 : Row
  r2 : Row
  r3 : Row
deriving DecidableEq, Repr

namespace State

/-- Mixes each column. -/
def mix (s : State) : State :=
  let r0 := s.r0.zip (· + ·) s.r1
  let r3 := (s.r3.zip (· ^^^ ·) r0).map (rotate 16)
  let r2 := s.r2.zip (· + ·) r3
  let r1 := (s.r1.zip (· ^^^ ·) r2).map (rotate 12)
  let r0 := r0.zip (· + ·) r1
  let r3 := (r3.zip (· ^^^ ·) r0).map (rotate 8)
  let r2 := r2.zip (· + ·) r3
  let r1 := (r1.zip (· ^^^ ·) r2).map (rotate 7)
  ⟨r0, r1, r2, r3⟩

/-- Mixes the columns, then the diagonals. -/
def doubleRound (s : State) : State :=
  let s := s.mix
  let s := mix ⟨s.r0, s.r1.turn, s.r2.turn.turn, s.r3.turn.turn.turn⟩
  ⟨s.r0, s.r1.turn.turn.turn, s.r2.turn.turn, s.r3.turn⟩

def add (s t : State) : State :=
  ⟨s.r0.zip (· + ·) t.r0, s.r1.zip (· + ·) t.r1, s.r2.zip (· + ·) t.r2, s.r3.zip (· + ·) t.r3⟩

def words (s : State) : List UInt32 :=
  s.r0.words ++ s.r1.words ++ s.r2.words ++ s.r3.words

end State

structure Key where
  low : Row
  high : Row
deriving DecidableEq, Repr

/-- The sixteen words of one block of the stream. -/
def block (key : Key) (counter : UInt64) : List UInt32 :=
  let start : State :=
    ⟨⟨0x61707865, 0x3320646e, 0x79622d32, 0x6b206574⟩, key.low, key.high,
      ⟨counter.toUInt32, (counter >>> 32).toUInt32, 0, 0⟩⟩
  ((Nat.repeat State.doubleRound 6 start).add start).words

/-- The next state of the generator that fills the key. -/
def spread (s : UInt64) : UInt64 :=
  s * 6364136223846793005 + 11634580027462260723

/-- The word that the key generator gives in a state. -/
def keyWord (s : UInt64) : UInt32 :=
  let right : UInt32 := (s >>> 59).toUInt32
  rotate ((32 - right) % 32) (((s >>> 18) ^^^ s) >>> 27).toUInt32

/-- The four words after state `s`. -/
def keyRow (s : UInt64) : Row :=
  ⟨keyWord (spread s), keyWord (spread (spread s)), keyWord (spread (spread (spread s))),
    keyWord (spread (spread (spread (spread s))))⟩

def Key.ofSeed (seed : UInt64) : Key :=
  ⟨keyRow seed, keyRow (Nat.repeat spread 4 seed)⟩

/-- A generator: its key, the number of the next block and the words of the last one not yet
taken. -/
structure Generator where
  key : Key
  counter : UInt64 := 0
  pending : List UInt32 := []
deriving DecidableEq, Repr

namespace Generator

def ofSeed (seed : UInt64) : Generator :=
  { key := Key.ofSeed seed }

/-- Takes the next word of the stream. -/
def next (g : Generator) : UInt32 × Generator :=
  match g.pending with
  | w :: ws => (w, { g with pending := ws })
  | [] =>
    let ws := block g.key g.counter
    (ws.headD 0, { g with counter := g.counter + 1, pending := ws.tail })

end Generator

end LineBasic.Random
