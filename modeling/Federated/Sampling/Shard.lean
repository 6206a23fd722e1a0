/-
  Federated.Sampling.Shard

  Splitting the rows of a dataset among workers: contiguous shards of balanced or of
  proportional size.
-/
import Federated.Defect

namespace Federated

/-- Contiguous rows, from `start` up to but not including `stop`. -/
structure Rows where
  start : Nat
  stop : Nat
  deriving DecidableEq

namespace Rows

/-- The number of rows. -/
def size (r : Rows) : Nat := r.stop - r.start

/-- The rows in order. -/
def toList (r : Rows) : List Nat := List.range' r.start r.size

@[simp] theorem length_toList (r : Rows) : r.toList.length = r.size := by simp [toList]

/-- The shard of one of `shards` workers, sizes differing by at most one, the larger shards
    first. -/
def shard (total index shards : Nat) : Except Defect Rows :=
  if shards = 0 then .error .noShards
  else if shards ≤ index then .error .shardIndex
  else
    let base := total / shards
    let larger := total % shards
    let start := index * base + min index larger
    .ok ⟨start, start + base + if index < larger then 1 else 0⟩

/-- The sum of parts, unless it leaves the 64-bit range on the way. -/
def sumParts (parts : List Nat) : Except Defect Nat :=
  parts.foldlM (fun sum part => counted (sum + part)) 0

/-- Shards behind `start`, each but the last with its part's share of `total` rounded down, the
    last with all that is left. -/
def followParts (total sum start : Nat) : List Nat → Except Defect (List Rows)
  | [] => .ok []
  | [_] => .ok [⟨start, total⟩]
  | part :: parts => do
    let stop ← counted (start + (← counted (total * part)) / sum)
    let stop := min stop total
    return ⟨start, stop⟩ :: (← followParts total sum stop parts)

/-- Contiguous shards in proportion to parts. -/
def shardsByParts (total : Nat) (parts : List Nat) : Except Defect (List Rows) := do
  let sum ← sumParts parts
  if sum = 0 then throw .emptyParts
  followParts total sum 0 parts

end Rows

end Federated
