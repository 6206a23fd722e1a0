/-
  Federated.Model.Params

  The trainable parameters of a model at a point in time: named tensors in name order. Two
  sets of parameters have the same layout if they have the same names with the same shapes.
-/
import Federated.Dict
import Federated.Numeric.Digits
import Federated.Tensor.Basic

namespace Federated

/-- Named tensors, in name order. -/
structure Params (α : Type) where
  tensors : Dict String (Tensor α)

/-- The first difference between two layouts. -/
inductive LayoutMismatch where
  /-- One side lacks a parameter of the other. -/
  | missing (name : String)
  /-- Both sides have the parameter, in different shapes. -/
  | shape (name : String) (got expected : List Nat)
  deriving DecidableEq

/-- A shape in a message. -/
def shapeText (shape : List Nat) : String :=
  "[" ++ String.intercalate ", " (shape.map countText) ++ "]"

/-- The words for a difference between two layouts. -/
def LayoutMismatch.message : LayoutMismatch → String
  | .missing name => "parameter \x60" ++ name ++ "\x60 is missing"
  | .shape name got expected =>
    "parameter \x60" ++ name ++ "\x60 has shape " ++ shapeText got ++ ", expected " ++
      shapeText expected

namespace Params

variable {α : Type}

/-- No parameters. -/
def empty : Params α := ⟨Dict.empty⟩

/-- Binds one parameter after another; of a repeated name the last one stays. -/
def ofList (tensors : List (String × Tensor α)) : Params α := ⟨Dict.ofList tensors⟩

/-- Binds a parameter, in place of one with the same name. -/
def insert (p : Params α) (name : String) (t : Tensor α) : Params α := ⟨p.tensors.insert name t⟩

/-- The parameter of a name. -/
def find? (p : Params α) (name : String) : Option (Tensor α) := p.tensors.find? name

/-- The number of named tensors. -/
def size (p : Params α) : Nat := p.tensors.size

/-- Whether there are no parameters. -/
def isEmpty (p : Params α) : Bool := p.tensors.isEmpty

/-- The number of elements over all tensors. -/
def elementCount (p : Params α) : Nat := p.tensors.values.foldl (fun n t => n + t.size) 0

instance [BEq α] : BEq (Params α) := ⟨fun a b => a.tensors == b.tensors⟩

/-! ## Layouts -/

/-- How a parameter of one side is met by the other. -/
def tensorMismatch? (theirs : Params α) (name : String) (t : Tensor α) : Option LayoutMismatch :=
  match theirs.find? name with
  | none => some (.missing name)
  | some u => if t.shape = u.shape then none else some (.shape name u.shape t.shape)

/-- The first difference of the layout of `theirs` from that of `own`: the least name of `own`
    that `theirs` lacks or has in another shape, and if there is none, the least name of
    `theirs` that `own` lacks. -/
def layoutMismatch? (own theirs : Params α) : Option LayoutMismatch :=
  match own.tensors.entries.findSome? fun e => theirs.tensorMismatch? e.1 e.2 with
  | some m => some m
  | none => (theirs.tensors.keys.find? fun name => !own.tensors.contains name).map .missing

/-- Each parameter of `own` beside that of `theirs`, if the layouts agree. -/
def paired (own theirs : Params α) : Except LayoutMismatch (Dict String (Tensor α × Tensor α)) :=
  match own.layoutMismatch? theirs with
  | some m => .error m
  | none => .ok (own.tensors.mapValues fun name t => (t, (theirs.find? name).getD t))

/-- The elements of `theirs` in place of one's own, if the layouts agree. -/
def assign (own theirs : Params α) : Except LayoutMismatch (Params α) :=
  (own.paired theirs).map fun pairs => ⟨pairs.mapValues fun _ p => p.2⟩

end Params

end Federated
