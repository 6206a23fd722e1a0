/-
  Federated.Proofs.Tensor.Matrix

  Matrices by their elements. Every matrix is given by a function of row and column, and each
  operation on matrices that are given so comes to a function again.

    * `Matrix.exists_eq_ofFn` — a matrix is given by its elements.
    * `Matrix.zipWith_ofFn`, `Matrix.zipWith_ofRow` — operands of one shape, and a row that is
      stretched over a matrix.
    * `Matrix.mul_ofFn`, `Matrix.columnSums_ofFn` — products and sums that can be stored.
-/
import Federated.Tensor.Matrix
import Mathlib

namespace Federated

namespace Matrix

variable {α β γ : Type}

/-- The elements of a matrix make the matrix. -/
theorem ofFn_get (m : Matrix α) : ofFn m.rows m.cols m.get = m := by
  obtain ⟨rows, cols, data, size⟩ := m
  have hdata : (ofFn rows cols (get ⟨rows, cols, data, size⟩)).data = data := by
    refine Array.ext (by simp [ofFn, size]) fun k hk _ => ?_
    simp only [ofFn, get, Array.getElem_ofFn, Nat.div_add_mod']
  unfold ofFn at hdata ⊢
  congr 1

/-- A matrix is given by its elements. -/
theorem exists_eq_ofFn {m : Matrix α} {rows cols : Nat} (hrows : m.rows = rows)
    (hcols : m.cols = cols) : ∃ f : Fin rows → Fin cols → α, m = ofFn rows cols f := by
  subst hrows hcols
  exact ⟨m.get, m.ofFn_get.symm⟩

theorem ofFn_congr {rows rows' cols cols' : Nat} {f : Fin rows → Fin cols → α}
    {g : Fin rows' → Fin cols' → α} (hrows : rows = rows') (hcols : cols = cols')
    (h : ∀ i j, f i j = g (Fin.cast hrows i) (Fin.cast hcols j)) :
    ofFn rows cols f = ofFn rows' cols' g := by
  subst hrows hcols
  exact congrArg (ofFn rows cols) (funext₂ h)

variable {rows cols : Nat}

@[simp] theorem size_ofFn (f : Fin rows → Fin cols → α) :
    (ofFn rows cols f).size = rows * cols := by
  simp [size, ofFn]

theorem map_ofFn (f : α → β) (g : Fin rows → Fin cols → α) :
    (ofFn rows cols g).map f = ofFn rows cols fun i j => f (g i j) := by
  simp [map, ofFn, Function.comp_def]

theorem transpose_ofFn (f : Fin rows → Fin cols → α) :
    (ofFn rows cols f).transpose = ofFn cols rows fun i j => f j i :=
  congrArg (ofFn cols rows) (funext₂ fun i j => get_ofFn rows cols f j i)

/-! ## Element by element -/

theorem stretched_self (a : Nat) : stretched a a = a := by simp [stretched]

theorem stretched_one (a : Nat) : stretched a 1 = a := by
  unfold stretched
  split <;> simp_all

/-- An operand that is not stretched is read at the place of the result. -/
theorem val_source {a n : Nat} (h : a = n ∨ a = 1) (ha : a = n) (i : Fin n) :
    (source h i).val = i.val := by
  have hi := i.isLt
  unfold source
  split
  · show 0 = i.val
    omega
  · rfl

/-- An element at a place given by its numbers. -/
theorem get_ofFn_of_val {f : Fin rows → Fin cols → α} {i : Fin (ofFn rows cols f).rows}
    {j : Fin (ofFn rows cols f).cols} {i' : Fin rows} {j' : Fin cols} (hi : i.val = i'.val)
    (hj : j.val = j'.val) : (ofFn rows cols f).get i j = f i' j' := by
  obtain rfl : i = i' := Fin.ext hi
  obtain rfl : j = j' := Fin.ext hj
  exact get_ofFn rows cols f i j

/-- Matrices of one shape are combined element by element. -/
theorem zipWith_ofFn (op : α → β → γ) (f : Fin rows → Fin cols → α) (g : Fin rows → Fin cols → β) :
    zipWith op (ofFn rows cols f) (ofFn rows cols g) =
      .ok (ofFn rows cols fun i j => op (f i j) (g i j)) := by
  have hrows := stretched_self rows
  have hcols := stretched_self cols
  have fits : Fits (ofFn rows cols f).rows (ofFn rows cols g).rows ∧
      Fits (ofFn rows cols f).cols (ofFn rows cols g).cols := ⟨.inl rfl, .inl rfl⟩
  unfold zipWith
  rw [dif_pos fits]
  refine congrArg Except.ok (ofFn_congr hrows hcols fun i j => congrArg₂ op ?_ ?_)
  · exact get_ofFn_of_val (val_source _ hrows.symm i) (val_source _ hcols.symm j)
  · exact get_ofFn_of_val (val_source _ hrows.symm i) (val_source _ hcols.symm j)

/-- A row is stretched over all rows of a matrix. -/
theorem zipWith_ofRow (op : α → β → γ) (f : Fin rows → Fin cols → α) (g : Fin cols → β) :
    zipWith op (ofFn rows cols f) (ofRow (.ofFn g)) =
      .ok (ofFn rows cols fun i j => op (f i j) (g j)) := by
  have hrow : ofRow (.ofFn g) = ofFn 1 cols fun _ j => g j := by
    rw [← ofFn_get (ofRow (.ofFn g))]
    refine ofFn_congr rfl Array.size_ofFn fun i j => ?_
    -- there is one row, so the place of an element is its column
    have hi : i.val = 0 := Nat.lt_one_iff.1 i.isLt
    simp [get, ofRow, hi, Fin.cast]
  have hrows := stretched_one rows
  have hcols := stretched_self cols
  have fits : Fits (ofFn rows cols f).rows (ofFn 1 cols fun _ j => g j).rows ∧
      Fits (ofFn rows cols f).cols (ofFn 1 cols fun _ j => g j).cols := ⟨.inr (.inr rfl), .inl rfl⟩
  rw [hrow]
  unfold zipWith
  rw [dif_pos fits]
  refine congrArg Except.ok (ofFn_congr hrows hcols fun i j => congrArg₂ op ?_ ?_)
  · exact get_ofFn_of_val (val_source _ hrows.symm i) (val_source _ hcols.symm j)
  · exact (get_ofFn 1 cols _ _ _).trans
      (congrArg g (Fin.ext (val_source _ hcols.symm j)))

/-! ## Products and sums -/

variable [Scalar α]

/-- A product that can be stored. -/
theorem mul_ofFn {inner : Nat} (storable : isStorable [rows, cols] = true)
    (f : Fin rows → Fin inner → α) (g : Fin inner → Fin cols → α) :
    (ofFn rows inner f).mul (ofFn inner cols g) =
      .ok (ofFn rows cols fun i j => Scalar.blockedSum inner fun k => f i k * g k j) := by
  have hinner : (ofFn rows inner f).cols = (ofFn inner cols g).rows := rfl
  have hstore : requireStorage [(ofFn rows inner f).rows, (ofFn inner cols g).cols] = .ok () :=
    if_pos storable
  unfold mul
  rw [dif_pos hinner, hstore]
  refine congrArg (fun e => Except.ok (ofFn rows cols e)) (funext₂ fun i j => ?_)
  refine congrArg (Scalar.blockedSum inner) (funext fun k => ?_)
  exact congrArg₂ (· * ·) (get_ofFn rows inner f i k) (get_ofFn inner cols g k j)

/-- Sums of columns that can be stored. -/
theorem columnSums_ofFn (storable : isStorable [cols] = true) (f : Fin rows → Fin cols → α) :
    (ofFn rows cols f).columnSums = .ok (.ofFn fun j => Scalar.sum rows fun i => f i j) := by
  have hstore : requireStorage [(ofFn rows cols f).cols] = .ok () := if_pos storable
  unfold columnSums
  rw [hstore]
  refine congrArg (fun e => Except.ok (Array.ofFn (n := cols) e)) (funext fun j => ?_)
  exact congrArg (Scalar.sum rows) (funext fun i => get_ofFn rows cols f i j)

end Matrix

end Federated
