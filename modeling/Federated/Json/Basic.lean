/-
  Federated.Json.Basic

  JSON values. An object keeps its members in written order, repeats included, and a number
  keeps its spelling, so that every reader of a value decides for itself what it accepts.
-/
import Federated.Json.Numeral

namespace Federated

/-- The characters of a JSON string; none for one that names a code unit which is no character
    on its own. Such a string is well formed, but nothing can be read from it. -/
abbrev JsonText := Option (List Char)

/-- A JSON value. -/
inductive Json where
  | null
  | bool (value : Bool)
  | number (value : Numeral)
  | string (text : JsonText)
  | array (items : List Json)
  | object (members : List (JsonText × Json))

namespace Json

/-- A string of readable characters. -/
def ofString (s : String) : Json := .string (some s.toList)

/-- An object whose member names are readable. -/
def ofMembers (members : List (String × Json)) : Json :=
  .object (members.map fun m => (some m.1.toList, m.2))

/-- A count as a number. -/
def ofCount (n : Nat) : Json := .number (.ofCount n)

/-- A single as a number, or null if it is not finite. -/
def ofSingle (x : Float32) : Json := ((Numeral.ofSingle? x).map .number).getD .null

/-- A double as a number, or null if it is not finite. -/
def ofDouble (x : Float) : Json := ((Numeral.ofDouble? x).map .number).getD .null

/-- A value that may be missing, which is null then. -/
def ofOption {β : Type} (f : β → Json) : Option β → Json
  | none => .null
  | some x => f x

/-! ## Scalars read from a value -/

/-- A 64-bit count. -/
def count? : Json → Option Nat
  | .number n => n.count?
  | _ => none

/-- A single. -/
def single? : Json → Option Float32
  | .number n => n.single?
  | _ => none

/-- A double. -/
def double? : Json → Option Float
  | .number n => n.double?
  | _ => none

/-- A truth value. -/
def bool? : Json → Option Bool
  | .bool b => some b
  | _ => none

/-- A list of values of one kind. -/
def list? {β : Type} (f : Json → Option β) : Json → Option (List β)
  | .array items => items.mapM f
  | _ => none

/-- A value that may be null. -/
def nullable? {β : Type} (f : Json → Option β) : Json → Option (Option β)
  | .null => some none
  | j => (f j).map some

/-- One of a few names: the string itself, or an object whose only member has that name and
    the value null. -/
def name? (names : List String) : Json → Option String
  | .string (some cs) => names.find? (·.toList == cs)
  | .object [(some cs, .null)] => names.find? (·.toList == cs)
  | _ => none

end Json

end Federated
