/-
  Federated.Tensor.Basic

  Tensors of any rank: a shape and its elements in row-major order. The element count is
  tied to the shape by the type. Not every shape can be given storage: one that multiplies
  out too far, or that has too many elements, is refused where a tensor is made from it.
-/
import Federated.Defect
import Federated.Scalar

namespace Federated

/-- The number of elements of a shape; a scalar has the empty shape and one element. -/
def elementCount (shape : List Nat) : Nat := shape.foldr (· * ·) 1

/-- The largest product that the extents of a shape may have, those of no elements left out. -/
def extentLimit : Nat := Nat.pow 2 63 - 1

/-- The most elements of four bytes that fit in a storage of `2^63 - 1` bytes. -/
def elementLimit : Nat := Nat.pow 2 61 - 1

/-- Whether a shape can be given storage for its elements. -/
def isStorable (shape : List Nat) : Bool :=
  elementCount (shape.filter (0 < ·)) ≤ extentLimit && elementCount shape ≤ elementLimit

/-- Refuses a shape that cannot be given storage. -/
def requireStorage (shape : List Nat) : Except Defect Unit :=
  if isStorable shape then .ok () else .error .overflow

/-- A tensor, its elements in row-major order. -/
structure Tensor (α : Type) where
  shape : List Nat
  data : Array α
  size_eq : data.size = elementCount shape

namespace Tensor

variable {α β γ : Type}

/-- The tensor of a shape with given elements, if the shape can be stored and they are as many
    as it holds. -/
def ofData? (shape : List Nat) (data : Array α) : Option (Tensor α) :=
  if h : isStorable shape ∧ data.size = elementCount shape then some ⟨shape, data, h.2⟩ else none

/-- The tensor of one element repeated. -/
def replicate (shape : List Nat) (x : α) : Tensor α :=
  ⟨shape, Array.replicate (elementCount shape) x, by simp⟩

/-- The tensor of zeros. -/
def zeros [Scalar α] (shape : List Nat) : Tensor α := replicate shape Scalar.zero

/-- The number of elements. -/
def size (t : Tensor α) : Nat := t.data.size

/-- The same shape with other elements. -/
def map (f : α → β) (t : Tensor α) : Tensor β :=
  ⟨t.shape, t.data.map f, by simpa using t.size_eq⟩

/-- Two tensors of one shape combined element by element. -/
def zipWith (f : α → β → γ) (a : Tensor α) (b : Tensor β) : Except Defect (Tensor γ) :=
  if h : a.shape = b.shape then
    .ok ⟨a.shape, Array.zipWith f a.data b.data, by
      have ha := a.size_eq
      have hb := b.size_eq
      rw [← h] at hb
      simp [ha, hb]⟩
  else .error .shapes

/-- Tensors agree if their shapes are equal and their elements agree. -/
instance [BEq α] : BEq (Tensor α) := ⟨fun a b => a.shape == b.shape && a.data == b.data⟩

end Tensor

end Federated
