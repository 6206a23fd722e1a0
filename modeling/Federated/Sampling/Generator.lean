/-
  Federated.Sampling.Generator

  A seeded source of random numbers, and the shuffling of rows by it. Equal seeds give equal
  streams.

    * `shuffle_perm` — shuffling loses and repeats nothing.
-/
import Federated.Numeric.Binary
import Federated.Sampling.ChaCha

namespace Federated

/-- A source of 32-bit words: the blocks of a key, one after the other. -/
structure Generator where
  key : ChaCha.Key
  /-- The number of the next block. -/
  number : UInt64
  /-- The words of the last block that are still to be drawn. -/
  pending : List UInt32

namespace Generator

/-- The source of a seed, which counts modulo 2^64. -/
def ofSeed (seed : Nat) : Generator := ⟨ChaCha.keyOfSeed (UInt64.ofNat seed), 0, []⟩

/-- The next word, and the source behind it. -/
def next (g : Generator) : UInt32 × Generator :=
  match g.pending with
  | word :: pending => (word, { g with pending })
  | [] =>
    let block := ChaCha.block g.key g.number
    (block.1, ⟨g.key, g.number + 1, block.2⟩)

/-- The count of words. -/
def wordCount : Nat := Nat.pow 2 32

/-- A number below `bound`, which is at most the count of words: the word's share of the bound,
    corrected by a second word where the first leaves the choice biased. -/
def below (g : Generator) (bound : Nat) : Nat × Generator :=
  let drawn := g.next
  let product := drawn.1.toNat * bound
  let share := product / wordCount
  let rest := product % wordCount
  if rest ≤ wordCount - bound then (share, drawn.2)
  else
    let second := drawn.2.next
    (share + (rest + second.1.toNat * bound / wordCount) / wordCount, second.2)

/-- A single spread evenly from `low` to `high`, by steps of the 2^23rd part between them. -/
def between (g : Generator) (low high : Float32) : Float32 × Generator :=
  let drawn := g.next
  let share := singleOf (.finite false (drawn.1 >>> 9).toNat (-23))
  (share * (high - low) + low, drawn.2)

/-! ## Shuffling -/

/-- A source of places for a growing row: the first choice is among one place, and each among
    one more than the last. A word serves several choices as long as there are few places. -/
structure Chooser where
  source : Generator
  /-- The places of the last choice. -/
  places : Nat
  /-- What is left of the number drawn last. -/
  rest : Nat
  /-- The choices that are still read off it. -/
  left : Nat

namespace Chooser

/-- A chooser before its first choice, which has one place and needs no draw. -/
def ofSource (g : Generator) : Chooser := ⟨g, 0, 0, 1⟩

/-- The product of `count` numbers from `n` on, extended by the next ones while it stays below
    the count of words, and how many numbers that makes; `fuel` bounds the extension. -/
def extend (n product count : Nat) : Nat → Nat × Nat
  | 0 => (product, count)
  | fuel + 1 =>
    let next := product * (n + count)
    if next < wordCount then extend n next (count + 1) fuel else (product, count)

/-- The bound of a draw that serves the choices among `n` places and more, and how many it
    serves. Each factor but the first is at least two, so 32 factors are too many. -/
def sharedBound (n : Nat) : Nat × Nat := extend n n 1 32

/-- Reads a place off what is left of a draw. The last choice that a draw serves takes all of
    it. -/
def pick (source : Generator) (places rest left : Nat) : Nat × Chooser :=
  if left = 0 then (rest, ⟨source, places, rest, 0⟩)
  else (rest % places, ⟨source, places, rest / places, left⟩)

/-- The next place, and the chooser behind it. -/
def next (c : Chooser) : Nat × Chooser :=
  let places := c.places + 1
  if c.left = 0 then
    let shared := sharedBound places
    let drawn := c.source.below shared.1
    pick drawn.2 places drawn.1 (shared.2 - 1)
  else pick c.source places c.rest (c.left - 1)

end Chooser

/-- Exchanges each of the last `left` places, in order, with a random one not behind it. -/
def shuffleLast (xs : Array Nat) (c : Chooser) : Nat → Array Nat × Generator
  | 0 => (xs, c.source)
  | left + 1 =>
    let chosen := c.next
    shuffleLast (xs.swapIfInBounds (xs.size - (left + 1)) chosen.1) chosen.2 left

/-- The elements of an array in a random order. -/
def shuffle (g : Generator) (xs : Array Nat) : Array Nat × Generator :=
  shuffleLast xs (.ofSource g) xs.size

theorem shuffleLast_perm (xs : Array Nat) (c : Chooser) (n : Nat) :
    (shuffleLast xs c n).1.Perm xs := by
  induction n generalizing xs c with
  | zero => exact .refl _
  | succ n ih =>
    unfold shuffleLast
    refine (ih _ _).trans ?_
    simp only [Array.swapIfInBounds]
    split
    · split
      · exact Array.swap_perm _ _
      · exact .refl _
    · exact .refl _

/-- Shuffling loses and repeats nothing. -/
theorem shuffle_perm (g : Generator) (xs : Array Nat) : (g.shuffle xs).1.Perm xs :=
  shuffleLast_perm xs (.ofSource g) xs.size

/-! ## Rows of singles -/

/-- `n` singles from `low` to `high`, behind those already drawn. -/
def fill (g : Generator) (low high : Float32) (drawn : Array Float32) :
    Nat → Array Float32 × Generator
  | 0 => (drawn, g)
  | n + 1 =>
    match g.between low high with
    | (x, g) => fill g low high (drawn.push x) n

/-- Filling draws as many as asked for. -/
theorem size_fill (g : Generator) (low high : Float32) (drawn : Array Float32) (n : Nat) :
    (g.fill low high drawn n).1.size = drawn.size + n := by
  induction n generalizing g drawn with
  | zero => rfl
  | succ n ih =>
    unfold fill
    split
    rw [ih, Array.size_push, Nat.add_assoc, Nat.add_comm 1]

end Generator

end Federated
