/-
  Federated.Proofs.Tensor.Basic

  Tensors by their elements, in row-major order.

    * `Tensor.ofFn`, `Tensor.ofFn_cell` — a tensor is given by its elements.
    * `Tensor.zipWith_ofFn` — an operation on two tensors of one shape.
    * `Tensor.getD_zeros` — what has been accumulated of a tensor, or the zeros in its place.
-/
import Federated.Tensor.Basic
import Mathlib

namespace Federated

variable {α : Type}

namespace Tensor

/-- The tensor of a shape with given elements, by their place in row-major order. -/
def ofFn (shape : List Nat) (f : Nat → α) : Tensor α :=
  ⟨shape, .ofFn fun i : Fin (Federated.elementCount shape) => f i, Array.size_ofFn⟩

theorem getElem?_ofFn (shape : List Nat) (f : Nat → α) (i : Nat) :
    (ofFn shape f).data[i]? = if i < Federated.elementCount shape then some (f i) else none := by
  simp only [ofFn, Array.getElem?_ofFn]
  split_ifs <;> rfl

theorem zipWith_ofFn {β γ : Type} (op : α → β → γ) (shape : List Nat) (f : Nat → α) (g : Nat → β) :
    zipWith op (ofFn shape f) (ofFn shape g) = .ok (ofFn shape fun i => op (f i) (g i)) := by
  have hshape : (ofFn shape f).shape = (ofFn shape g).shape := rfl
  have hdata : Array.zipWith op (ofFn shape f).data (ofFn shape g).data =
      (ofFn shape fun i => op (f i) (g i)).data := by
    apply Array.ext_getElem?
    intro i
    simp only [Array.getElem?_zipWith, getElem?_ofFn]
    split_ifs <;> rfl
  unfold zipWith
  rw [dif_pos hshape]
  simp only [hdata]
  rfl

variable [Scalar α]

/-- The element of a tensor at a place, zero beyond its end. -/
def cell (t : Tensor α) (i : Nat) : α := t.data[i]?.getD Scalar.zero

theorem getElem?_eq_cell (t : Tensor α) (i : Nat) :
    t.data[i]? = if i < Federated.elementCount t.shape then some (t.cell i) else none := by
  rw [cell, ← t.size_eq]
  split_ifs with h
  · rw [Array.getElem?_eq_getElem h, Option.getD_some]
  · exact Array.getElem?_eq_none (not_lt.1 h)

/-- A tensor is made up of its elements. -/
theorem ofFn_cell (t : Tensor α) : ofFn t.shape t.cell = t := by
  have hdata : (ofFn t.shape t.cell).data = t.data := by
    apply Array.ext_getElem?
    intro i
    rw [getElem?_ofFn, getElem?_eq_cell]
  obtain ⟨shape, data, size⟩ := t
  unfold ofFn at hdata ⊢
  congr 1

/-- What is kept of a place: nothing at first, which counts as zero. -/
def keptCell (kept : Option (Tensor α)) (i : Nat) : α :=
  (kept.bind fun t => t.data[i]?).getD Scalar.zero

/-- What an accumulated tensor, or the zeros in its place, consists of. -/
theorem getD_zeros {kept : Option (Tensor α)} {shape : List Nat}
    (h : ∀ t, kept = some t → t.shape = shape) :
    kept.getD (zeros shape) = ofFn shape (keptCell kept) := by
  cases kept with
  | some t =>
    obtain rfl := h t rfl
    exact (ofFn_cell t).symm
  | none =>
    have hdata : Array.replicate (Federated.elementCount shape) (Scalar.zero : α) =
        .ofFn fun _ : Fin (Federated.elementCount shape) => Scalar.zero := by
      apply Array.ext_getElem?
      intro i
      rw [Array.getElem?_replicate, Array.getElem?_ofFn]
      split_ifs <;> rfl
    unfold zeros replicate
    simp only [Option.getD_none, hdata]
    rfl

end Tensor

end Federated
