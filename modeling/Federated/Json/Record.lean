/-
  Federated.Json.Record

  Reading the fields of a record. A record is written as an object, its fields in any order
  among others that are ignored, or as an array of its fields in order, from which trailing
  ones may be missing. A field that is written twice spoils the record.
-/
import Federated.Json.Basic

namespace Federated

namespace Json

/-- A record to read fields from. -/
inductive Record where
  | named (members : List (List Char × Json))
  | positional (items : List Json)

/-- A value as a record of at most `arity` fields; every name in it must be readable. -/
def record? (arity : Nat) : Json → Option Record
  | .object members =>
    (members.mapM fun (m : JsonText × Json) => m.1.map fun cs => (cs, m.2)).map .named
  | .array items => if items.length ≤ arity then some (.positional items) else none
  | _ => none

namespace Record

/-- The value written for a field: the member with one of its names, or the item at its
    place. A field may be left out; the outer option is none if it is written twice. -/
def look? (r : Record) (index : Nat) (names : List String) : Option (Option Json) :=
  match r with
  | .named members =>
    match members.filter fun m => names.any (·.toList == m.1) with
    | [] => some none
    | [m] => some (some m.2)
    | _ => none
  | .positional items => some items[index]?

/-- A field that must be written. -/
def required? {β : Type} (r : Record) (index : Nat) (names : List String) (f : Json → Option β) :
    Option β := do
  let value ← r.look? index names
  f (← value)

/-- A field with a default. -/
def optional? {β : Type} (r : Record) (index : Nat) (names : List String) (f : Json → Option β)
    (default : β) : Option β := do
  match ← r.look? index names with
  | none => some default
  | some j => f j

end Record

end Json

end Federated
