/-
  Federated.Scalar

  The numbers that models are made of. Training is written over any `Scalar`, so that the
  same definitions run in single precision and can be read in exact arithmetic.
-/
import Federated.Numeric.Binary

namespace Federated

/-- Numbers with the operations that training needs. Comparisons are tests, so that a value
    that is no number can fail all of them. -/
class Scalar (α : Type) extends Add α, Sub α, Mul α, Div α, Neg α where
  zero : α
  one : α
  /-- The scalar nearest to a count. -/
  ofCount : Nat → α
  sqrt : α → α
  isFinite : α → Bool
  lt : α → α → Bool
  le : α → α → Bool

namespace Scalar

variable {α : Type} [Scalar α]

/-- Whether a scalar is a finite number above zero. -/
def isPositive (x : α) : Bool := isFinite x && !le x zero

/-- Whether a scalar lies in the half-open interval from zero to one. -/
def isFraction (x : α) : Bool := le zero x && lt x one

/-- The magnitude of a scalar. -/
def abs (x : α) : α := if lt x zero then -x else x

/-- The sum of `n` terms, in order, from zero. -/
def sum (n : Nat) (term : Fin n → α) : α := Fin.foldl n (fun acc k => acc + term k) zero

/-- The terms that a block of a sum holds. -/
def blockSize : Nat := 256

/-- The sum of `n` terms in blocks: each block is summed from zero, and the block sums are added
    in order. -/
def blockedSum (n : Nat) (term : Fin n → α) : α :=
  sum ((n + (blockSize - 1)) / blockSize) fun b =>
    sum (min blockSize (n - blockSize * b)) fun k =>
      term ⟨blockSize * b + k, by have := k.isLt; omega⟩

/-- The sum of an array in eight lanes: element `i` of every full group of eight goes to lane
    `i`, lanes four apart are added, their sums follow one another, and the elements of the
    last, smaller group come at the end. -/
def lanedSum (xs : Array α) : α :=
  let groups := xs.size / 8
  let lane (l : Fin 8) : α := sum groups fun g =>
    have h : 8 * g.val + l.val < xs.size := by have := g.isLt; have := l.isLt; omega
    xs[8 * g.val + l.val]
  let pairs := sum 4 fun l =>
    lane ⟨l, by omega⟩ + lane ⟨l + 4, by omega⟩
  Fin.foldl (xs.size % 8) (fun acc k =>
    have h : 8 * groups + k.val < xs.size := by have := k.isLt; omega
    acc + xs[8 * groups + k.val]) pairs

end Scalar

/-- Single precision; every operation is rounded on its own. -/
instance : Scalar Float32 where
  zero := Float32.ofBits 0
  one := Float32.ofBits 0x3f800000
  ofCount := singleOfCount
  sqrt := Float32.sqrt
  isFinite := Float32.isFinite
  lt x y := x < y
  le x y := x ≤ y

/-- Double precision; every operation is rounded on its own. -/
instance : Scalar Float where
  zero := Float.ofBits 0
  one := Float.ofBits 0x3ff0000000000000
  ofCount := doubleOfCount
  sqrt := Float.sqrt
  isFinite := Float.isFinite
  lt x y := x < y
  le x y := x ≤ y

end Federated
