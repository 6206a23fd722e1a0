/-
  Federated.WorkerId

  Identities of the workers of an epoch. Workers are numbered from zero without gaps, so a
  worker's number is also the place of its record.
-/
import Federated.Dict
import Federated.Numeric.Digits

namespace Federated

/-- The number of a worker within an epoch. -/
structure WorkerId where
  index : Nat
  deriving DecidableEq

namespace WorkerId

/-- Workers are ordered by number. -/
instance : Ord WorkerId := ⟨compareOn WorkerId.index⟩

instance : Std.TransOrd WorkerId := inferInstanceAs (Std.TransCmp (compareOn WorkerId.index))

instance : Std.LawfulEqOrd WorkerId where
  eq_of_compare {a b} h := by
    have h' : compare a.index b.index = .eq := h
    cases a; cases b
    exact congrArg WorkerId.mk (Std.LawfulEqCmp.eq_of_compare h')

/-- The name a worker goes by in messages. -/
def name (w : WorkerId) : String := "worker-" ++ countText w.index

end WorkerId

end Federated
