/-
  Federated.Barrier.Board

  The progress board: the latest report of each worker, for anyone to read.
-/
import Federated.Barrier.Report

namespace Federated

/-- Reports by worker number. -/
structure Board (α : Type) where
  reports : Array (Report α)

namespace Board

variable {α : Type}

/-- A board without reports. -/
def empty : Board α := ⟨#[]⟩

/-- A board with other reports in place of all it had. -/
def publish (reports : List (Report α)) : Board α := ⟨reports.toArray⟩

/-- Puts a report at its worker's place, or right behind the last one; a place further on does
    not exist yet, and the report is dropped. -/
def update (b : Board α) (r : Report α) : Board α :=
  if r.worker.index < b.reports.size then ⟨b.reports.set! r.worker.index r⟩
  else if r.worker.index = b.reports.size then ⟨b.reports.push r⟩
  else b

/-- The report at a worker's place. -/
def find? (b : Board α) (w : WorkerId) : Option (Report α) := b.reports[w.index]?

/-- All reports in order. -/
def toList (b : Board α) : List (Report α) := b.reports.toList

end Board

end Federated
