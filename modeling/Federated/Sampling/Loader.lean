/-
  Federated.Sampling.Loader

  Loaders walk a shard of a dataset, one epoch at a time: the rows in order or shuffled, once
  or several times over, cut into batches.
-/
import Federated.Config.Basic
import Federated.Sampling.Dataset
import Federated.Sampling.Generator
import Federated.Sampling.Shard

namespace Federated

/-- A shard of a dataset and how it is walked. -/
structure Loader (α : Type) where
  dataset : Dataset α
  rows : Rows
  batchSize : Positive
  repetitions : Positive
  /-- The seed of shuffling; without one the rows keep their order. -/
  seed : Option Nat

/-- The batches of one epoch, of which some may have been handed out. -/
structure Batches (α : Type) where
  dataset : Dataset α
  /-- The rows of the epoch, as they are visited. -/
  order : List Nat
  batchSize : Positive
  /-- The number of rows that have been handed out. -/
  cursor : Nat
  cursor_le : cursor ≤ order.length

namespace Batches

variable {α : Type}

/-- The rows still to be visited. -/
def rest (b : Batches α) : List Nat := b.order.drop b.cursor

/-- The number of batches to come. -/
def left (b : Batches α) : Nat :=
  ((b.order.length - b.cursor) + (b.batchSize.val - 1)) / b.batchSize.val

/-- The next batch and what comes behind it. -/
def next? (b : Batches α) : Except Defect (Option (Batch α × Batches α)) :=
  if b.order.length ≤ b.cursor then .ok none
  else do
    let stop := min (← counted (b.cursor + b.batchSize.val)) b.order.length
    let batch ← b.dataset.gather ((b.order.take stop).drop b.cursor).toArray
    return some (batch, { b with cursor := stop, cursor_le := Nat.min_le_right _ _ })

/-- Rows cut into runs of `n`, the last one perhaps shorter. -/
def cut (n : Positive) : List Nat → List (List Nat)
  | [] => []
  | row :: rows => (row :: rows).take n.val :: cut n ((row :: rows).drop n.val)
termination_by rows => rows.length
decreasing_by
  have := n.property
  simp only [List.length_drop, List.length_cons]
  omega

/-- Cutting loses no row and keeps their order. -/
theorem flatten_cut (n : Positive) (rows : List Nat) : (cut n rows).flatten = rows := by
  fun_induction cut n rows with
  | case1 => rfl
  | case2 row rows ih => simp [ih]

/-- A run is never empty, and never longer than asked for. -/
theorem length_of_mem_cut (n : Positive) (rows run : List Nat) (h : run ∈ cut n rows) :
    run.length ≤ n.val ∧ run ≠ [] := by
  fun_induction cut n rows with
  | case1 => simp at h
  | case2 row rows ih =>
    rcases List.mem_cons.1 h with rfl | h
    · refine ⟨List.length_take_le _ _, ?_⟩
      have := n.property
      intro h
      have := congrArg List.length h
      simp at this
      omega
    · exact ih h

/-- All batches to come. -/
def toList (b : Batches α) : Except Defect (List (Batch α)) :=
  (cut b.batchSize b.rest).mapM fun rows => b.dataset.gather rows.toArray

end Batches

namespace Loader

variable {α : Type}

/-- A loader of given rows, as far as they exist, walked once and in order. -/
def ofRows (dataset : Dataset α) (rows : Rows) (batchSize : Positive) : Loader α :=
  let stop := min rows.stop dataset.size
  ⟨dataset, ⟨min rows.start stop, stop⟩, batchSize, ⟨1, Nat.one_pos⟩, none⟩

/-- The same loader, shuffled by a seed. -/
def shuffled (l : Loader α) (seed : Nat) : Loader α := { l with seed := some seed }

/-- The same loader, walking its rows several times per epoch. -/
def repeated (l : Loader α) (repetitions : Positive) : Loader α := { l with repetitions }

/-- The samples visited per epoch. -/
def samples (l : Loader α) : Except Defect Nat := counted (l.rows.size * l.repetitions.val)

/-- The number of batches per epoch. -/
def batchCount (l : Loader α) : Except Defect Nat := do
  return ((← l.samples) + (l.batchSize.val - 1)) / l.batchSize.val

/-- The most rows that an order can hold. -/
def orderLimit : Nat := Nat.pow 2 60 - 1

/-- The rows `n` times over, each time shuffled anew. -/
def shuffledPasses (rows : List Nat) (g : Generator) : Nat → List Nat
  | 0 => []
  | n + 1 =>
    let (pass, g) := g.shuffle rows.toArray
    pass.toList ++ shuffledPasses rows g n

/-- The rows of an epoch in the order they are visited. The seed of an epoch is the loader's
    seed plus the epoch, modulo 2^64. -/
def order (l : Loader α) (epoch : Nat) : Except Defect (List Nat) := do
  let samples ← l.samples
  if orderLimit < samples then throw .overflow
  if samples = 0 then return []
  let rows := l.rows.toList
  match l.seed with
  | none => return (List.replicate l.repetitions.val rows).flatten
  | some seed => return shuffledPasses rows (Generator.ofSeed (seed + epoch)) l.repetitions.val

/-- The batches of an epoch. -/
def batches (l : Loader α) (epoch : Nat) : Except Defect (Batches α) := do
  return ⟨l.dataset, ← l.order epoch, l.batchSize, 0, Nat.zero_le _⟩

end Loader

end Federated
