/-
  Federated.Sampling.ChaCha

  The ChaCha stream: blocks of sixteen words that follow from a key and the number of the
  block. The state is four rows of four words; a round mixes the rows column by column, and
  every second round does so along the diagonals. A key of eight words is spread from a 64-bit
  seed by a linear congruential generator with permuted output.
-/

namespace Federated

namespace ChaCha

/-- Four words, a row of the state. -/
structure Quad where
  w0 : UInt32
  w1 : UInt32
  w2 : UInt32
  w3 : UInt32
  deriving DecidableEq

namespace Quad

/-- Word by word sums, modulo 2^32. -/
def add (p q : Quad) : Quad := ⟨p.w0 + q.w0, p.w1 + q.w1, p.w2 + q.w2, p.w3 + q.w3⟩

/-- Word by word exclusive or, each word then rotated left. -/
def xorRotate (amount : UInt32) (p q : Quad) : Quad :=
  let word (x y : UInt32) : UInt32 :=
    let z := x ^^^ y
    (z <<< amount) ||| (z >>> (32 - amount))
  ⟨word p.w0 q.w0, word p.w1 q.w1, word p.w2 q.w2, word p.w3 q.w3⟩

/-- The words, each moved one place to the front. -/
def turn (q : Quad) : Quad := ⟨q.w1, q.w2, q.w3, q.w0⟩

/-- The words in order. -/
def toList (q : Quad) : List UInt32 := [q.w0, q.w1, q.w2, q.w3]

end Quad

/-- The state of a block. -/
structure State where
  a : Quad
  b : Quad
  c : Quad
  d : Quad
  deriving DecidableEq

namespace State

/-- Mixes the four rows column by column. -/
def mix (s : State) : State :=
  let a := s.a.add s.b
  let d := s.d.xorRotate 16 a
  let c := s.c.add d
  let b := s.b.xorRotate 12 c
  let a := a.add b
  let d := d.xorRotate 8 a
  let c := c.add d
  ⟨a, b.xorRotate 7 c, c, d⟩

/-- Row `i` turned by `i` places, so that diagonals become columns. -/
def slant (s : State) : State := ⟨s.a, s.b.turn, s.c.turn.turn, s.d.turn.turn.turn⟩

/-- Undoes `slant`. -/
def straighten (s : State) : State := ⟨s.a, s.b.turn.turn.turn, s.c.turn.turn, s.d.turn⟩

/-- A round along the columns and one along the diagonals. -/
def doubleRound (s : State) : State := s.mix.slant.mix.straighten

/-- `n` double rounds. -/
def rounds (s : State) : Nat → State
  | 0 => s
  | n + 1 => s.doubleRound.rounds n

/-- Row by row sums. -/
def add (s t : State) : State := ⟨s.a.add t.a, s.b.add t.b, s.c.add t.c, s.d.add t.d⟩

end State

/-- A key of eight words. -/
abbrev Key := Quad × Quad

/-- The first row of every state: the words of "expand 32-byte k". -/
def constants : Quad := ⟨0x61707865, 0x3320646e, 0x79622d32, 0x6b206574⟩

/-- The state that a block starts from: the constants, the key, and the number of the block,
    its low word first. -/
def start (key : Key) (number : UInt64) : State :=
  ⟨constants, key.1, key.2, ⟨number.toUInt32, (number >>> 32).toUInt32, 0, 0⟩⟩

/-- The first word of a block and the fifteen behind it: the start after twelve rounds, with
    the start itself added. -/
def block (key : Key) (number : UInt64) : UInt32 × List UInt32 :=
  let s := start key number
  let out := (s.rounds 6).add s
  (out.a.w0, [out.a.w1, out.a.w2, out.a.w3] ++ out.b.toList ++ out.c.toList ++ out.d.toList)

/-! ## Keys from seeds -/

/-- The seed sequence modulo 2^64. -/
def seedStep (s : UInt64) : UInt64 := s * 6364136223846793005 + 11634580027462260723

/-- The word that a member of the seed sequence gives: its upper bits folded down, rotated
    right by the topmost five. -/
def seedWord (s : UInt64) : UInt32 :=
  let folded := (((s >>> 18) ^^^ s) >>> 27).toUInt32
  let amount := (s >>> 59).toUInt32
  (folded >>> amount) ||| (folded <<< (32 - amount))

/-- The words of the next four members of the seed sequence, and the last of them. -/
def seedQuad (s : UInt64) : Quad × UInt64 :=
  let s0 := seedStep s
  let s1 := seedStep s0
  let s2 := seedStep s1
  let s3 := seedStep s2
  (⟨seedWord s0, seedWord s1, seedWord s2, seedWord s3⟩, s3)

/-- The key of a seed. -/
def keyOfSeed (seed : UInt64) : Key :=
  let low := seedQuad seed
  (low.1, (seedQuad low.2).1)

end ChaCha

end Federated
