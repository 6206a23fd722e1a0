/-
  Federated.Model.Json

  Parameters as JSON. A tensor is written with a format version, its shape, and its elements
  in row-major order.
-/
import Federated.Json.Reader
import Federated.Json.Record
import Federated.Json.Writer
import Federated.Model.Params

namespace Federated

namespace Tensor

/-- The version of the written form of a tensor. -/
def formatVersion : Nat := 1

/-- A tensor with its format version. -/
def toJson (t : Tensor Float32) : Json :=
  .ofMembers [("v", .ofCount formatVersion), ("dim", .array (t.shape.map .ofCount)),
    ("data", .array (t.data.toList.map .ofSingle))]

/-- The fields of a tensor met so far. -/
structure Parts where
  version : Option Unit := none
  shape : Option (List Nat) := none
  data : Option (List Float32) := none

/-- Takes a field in, in place of an earlier one of the same name. There are no other fields
    than the three, and the version must be the known one. -/
def Parts.take (p : Parts) (member : JsonText × Json) : Option Parts := do
  let name ← member.1
  if name = "v".toList then
    if (← member.2.count?) = formatVersion then some { p with version := some () } else none
  else if name = "dim".toList then
    return { p with shape := some (← member.2.list? Json.count?) }
  else if name = "data".toList then
    return { p with data := some (← member.2.list? Json.single?) }
  else none

/-- A tensor as an object of its three fields, or as an array of them. -/
def ofJson? : Json → Option (Tensor Float32)
  | .object members => do
    let p ← members.foldlM Parts.take {}
    let _ ← p.version
    ofData? (← p.shape) (← p.data).toArray
  | .array [version, shape, data] => do
    if (← version.count?) = formatVersion then
      ofData? (← shape.list? Json.count?) (← data.list? Json.single?).toArray
    else none
  | _ => none

end Tensor

namespace Params

/-- The member that holds all tensors. -/
def toJson (p : Params Float32) : Json :=
  .ofMembers [("params", .ofMembers (p.tensors.entries.map fun e => (e.1, e.2.toJson)))]

/-- Named tensors; of a repeated name the last one stays. -/
def tensorsOfJson? : Json → Option (Params Float32)
  | .object members => do
    let tensors ← members.mapM fun (m : JsonText × Json) => do
      return (String.ofList (← m.1), ← Tensor.ofJson? m.2)
    return ofList tensors
  | _ => none

/-- Parameters as a record of one field. -/
def ofJson? (j : Json) : Option (Params Float32) := do
  let r ← j.record? 1
  r.required? 0 ["params"] tensorsOfJson?

/-- The text of parameters. -/
def text (p : Params Float32) : String := p.toJson.text

/-- Parameters read from their text. -/
def ofText? (s : String) : Option (Params Float32) := (Json.parse? s).bind ofJson?

end Params

end Federated
