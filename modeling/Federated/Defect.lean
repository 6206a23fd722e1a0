/-
  Federated.Defect

  Computations that stop without an answer. A refused argument is an error value of its
  operation; a defect is a call that the operation has no answer for at all.
-/

namespace Federated

/-- Why a computation stopped without an answer. -/
inductive Defect where
  /-- A count left the 64-bit range. -/
  | overflow
  /-- A row outside the dataset was asked for. -/
  | outOfBounds
  /-- Two arrays whose shapes do not fit were combined. -/
  | shapes
  /-- A dataset was to be split among no shards. -/
  | noShards
  /-- A shard was asked for by an index beyond the last. -/
  | shardIndex
  /-- Shares that sum to zero were to be followed. -/
  | emptyParts
  /-- No actor of an epoch could go on, and no result was reached. -/
  | stalled
  deriving DecidableEq

/-- The words that go with a defect, for those a caller is told in words. -/
def Defect.message? : Defect → Option String
  | .noShards => some "there must be at least one shard"
  | .shardIndex => some "shard index out of range"
  | .emptyParts => some "shard parts must not sum to zero"
  | .overflow | .outOfBounds | .shapes | .stalled => none

/-- The end of an operation that gave no result: a refusal with its cause, or a defect. -/
inductive Halt (ε : Type) where
  | error (cause : ε)
  | defect (cause : Defect)

/-- The same end with the cause seen as part of a wider kind of error. -/
def Halt.map {ε ε' : Type} (f : ε → ε') : Halt ε → Halt ε'
  | .error cause => .error (f cause)
  | .defect cause => .defect cause

/-- The largest count of 64 bits. -/
def countLimit : Nat := Nat.pow 2 64 - 1

/-- A count, unless it leaves the 64-bit range. -/
def counted (n : Nat) : Except Defect Nat := if n ≤ countLimit then .ok n else .error .overflow

theorem counted_of_le {n : Nat} (h : n ≤ countLimit) : counted n = .ok n := if_pos h

theorem counted_of_lt {n : Nat} (h : countLimit < n) : counted n = .error .overflow :=
  if_neg (Nat.not_le.2 h)

end Federated
