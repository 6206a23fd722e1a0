/-
  Federated.Tensor.Matrix

  Tensors of rank two: their element at a row and a column, products, column sums, and
  element-wise operations that stretch a single row or column over the other operand.
-/
import Federated.Tensor.Basic

namespace Federated

/-- A matrix, its elements row after row. -/
structure Matrix (α : Type) where
  rows : Nat
  cols : Nat
  data : Array α
  size_eq : data.size = rows * cols

/-- The place of row `i`, column `j` in row-major order. -/
theorem rowMajor_lt {rows cols i j : Nat} (hi : i < rows) (hj : j < cols) :
    i * cols + j < rows * cols := by
  have h : (i + 1) * cols ≤ rows * cols := Nat.mul_le_mul_right cols hi
  rw [Nat.succ_mul] at h
  omega

namespace Matrix

variable {α β γ : Type}

/-- The element at a row and a column. -/
def get (m : Matrix α) (i : Fin m.rows) (j : Fin m.cols) : α :=
  have h : i.val * m.cols + j.val < m.data.size := m.size_eq ▸ rowMajor_lt i.isLt j.isLt
  m.data[i.val * m.cols + j.val]

/-- The matrix whose elements are given by row and column. -/
def ofFn (rows cols : Nat) (f : Fin rows → Fin cols → α) : Matrix α where
  rows := rows
  cols := cols
  data := Array.ofFn fun k : Fin (rows * cols) =>
    have hc : 0 < cols := Nat.pos_of_ne_zero fun h => by
      have := k.isLt
      simp [h] at this
    f ⟨k.val / cols, Nat.div_lt_of_lt_mul (Nat.mul_comm rows cols ▸ k.isLt)⟩
      ⟨k.val % cols, Nat.mod_lt _ hc⟩
  size_eq := by simp

/-- The element of a matrix given by row and column. -/
theorem get_ofFn (rows cols : Nat) (f : Fin rows → Fin cols → α) (i : Fin rows) (j : Fin cols) :
    (ofFn rows cols f).get i j = f i j := by
  have hj := j.isLt
  have hdiv : (i.val * cols + j.val) / cols = i.val := by
    rw [Nat.mul_comm, Nat.mul_add_div (by omega), Nat.div_eq_of_lt hj, Nat.add_zero]
  have hmod : (i.val * cols + j.val) % cols = j.val := by
    rw [Nat.mul_comm, Nat.mul_add_mod, Nat.mod_eq_of_lt hj]
  simp only [get, ofFn, Array.getElem_ofFn]
  congr 1
  · exact Fin.ext hdiv
  · exact Fin.ext hmod

/-- A matrix as a tensor. -/
def toTensor (m : Matrix α) : Tensor α :=
  ⟨[m.rows, m.cols], m.data, by simp [elementCount, m.size_eq]⟩

/-- One row. -/
def ofRow (xs : Array α) : Matrix α := ⟨1, xs.size, xs, by simp⟩

/-- The matrix of zeros. -/
def zeros [Scalar α] (rows cols : Nat) : Matrix α :=
  ⟨rows, cols, Array.replicate (rows * cols) Scalar.zero, by simp⟩

/-- The number of elements. -/
def size (m : Matrix α) : Nat := m.data.size

/-- The same rows and columns with other elements. -/
def map (f : α → β) (m : Matrix α) : Matrix β :=
  ⟨m.rows, m.cols, m.data.map f, by simpa using m.size_eq⟩

@[simp] theorem get_map (f : α → β) (m : Matrix α) (i : Fin m.rows) (j : Fin m.cols) :
    (m.map f).get i j = f (m.get i j) := by
  simp [get, map]

/-- Rows turned into columns. -/
def transpose (m : Matrix α) : Matrix α := ofFn m.cols m.rows fun i j => m.get j i

@[simp] theorem get_transpose (m : Matrix α) (i : Fin m.cols) (j : Fin m.rows) :
    m.transpose.get i j = m.get j i := get_ofFn _ _ _ i j

/-- The chosen rows in order, unless one does not exist. -/
def gather (m : Matrix α) (chosen : Array Nat) : Except Defect (Matrix α) :=
  if h : ∀ k : Fin chosen.size, chosen[k] < m.rows then
    .ok (ofFn chosen.size m.cols fun i j => m.get ⟨chosen[i], h i⟩ j)
  else .error .outOfBounds

/-! ## Stretching -/

/-- Two extents that fit: equal, or one of them a single one that can be stretched. -/
def Fits (a b : Nat) : Prop := a = b ∨ a = 1 ∨ b = 1

instance (a b : Nat) : Decidable (Fits a b) := inferInstanceAs (Decidable (_ ∨ _ ∨ _))

/-- The common extent of two extents that fit. -/
def stretched (a b : Nat) : Nat := if a = 1 then b else a

/-- The left extent is the common one, or is stretched to it. -/
theorem stretched_left (a b : Nat) : a = stretched a b ∨ a = 1 := by
  unfold stretched
  split <;> simp_all

/-- The right extent is the common one, or is stretched to it. -/
theorem Fits.stretched_right {a b : Nat} (h : Fits a b) : b = stretched a b ∨ b = 1 := by
  unfold stretched
  rcases h with h | h | h
  · subst h; split <;> simp_all
  · simp [h]
  · exact .inr h

/-- The place of an operand that place `i` of the result is read from. -/
def source {a n : Nat} (h : a = n ∨ a = 1) (i : Fin n) : Fin a :=
  if h1 : a = 1 then ⟨0, by omega⟩ else ⟨i, by have := i.isLt; omega⟩

/-- Two matrices combined element by element; a single row or column is stretched over the
    other operand. -/
def zipWith (f : α → β → γ) (a : Matrix α) (b : Matrix β) : Except Defect (Matrix γ) :=
  if h : Fits a.rows b.rows ∧ Fits a.cols b.cols then
    .ok <| ofFn (stretched a.rows b.rows) (stretched a.cols b.cols) fun i j =>
      f (a.get (source (stretched_left _ _) i) (source (stretched_left _ _) j))
        (b.get (source h.1.stretched_right i) (source h.2.stretched_right j))
  else .error .shapes

/-! ## Sums -/

variable [Scalar α]

/-- The product of two matrices, if it can be stored; each element is a blocked sum over the
    inner extent. -/
def mul (a b : Matrix α) : Except Defect (Matrix α) :=
  if h : a.cols = b.rows then do
    requireStorage [a.rows, b.cols]
    return ofFn a.rows b.cols fun i j =>
      Scalar.blockedSum a.cols fun k => a.get i k * b.get (Fin.cast h k) j
  else .error .shapes

/-- The sum of each column, its rows in order, if there is storage for them: without rows there
    may be more columns than that. -/
def columnSums (m : Matrix α) : Except Defect (Array α) := do
  requireStorage [m.cols]
  return Array.ofFn fun j : Fin m.cols => Scalar.sum m.rows fun i => m.get i j

end Matrix

namespace Tensor

variable {α : Type}

/-- A tensor of rank two as a matrix. -/
def toMatrix? (t : Tensor α) : Option (Matrix α) :=
  match t with
  | ⟨[r, c], data, h⟩ => some ⟨r, c, data, by simpa [elementCount] using h⟩
  | _ => none

/-- The elements of a tensor of rank one. -/
def toVector? (t : Tensor α) : Option (Array α) :=
  match t with
  | ⟨[_], data, _⟩ => some data
  | _ => none

/-- The tensor of rank one with given elements. -/
def ofVector (xs : Array α) : Tensor α := ⟨[xs.size], xs, by simp [elementCount]⟩

end Tensor

end Federated
