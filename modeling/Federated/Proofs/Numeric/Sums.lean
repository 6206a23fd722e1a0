/-
  Federated.Proofs.Numeric.Sums

  Sums in exact arithmetic. How the terms of a sum are cut into blocks, or dealt out to lanes,
  matters to rounding alone: where nothing is rounded, every way of summing comes to one sum.

    * `sum_range_blocks` — a sum over all terms, block by block.
    * `Scalar.sum_exact`, `Scalar.blockedSum_exact`, `Scalar.lanedSum_exact` — each way of summing.
-/
import Federated.Proofs.Numeric.Exact
import Mathlib

namespace Federated

/-- A sum over all terms is the sum over the blocks they are cut into. -/
theorem sum_range_blocks {M : Type} [AddCommMonoid M] (f : ℕ → M) (size blocks : ℕ) :
    ∑ b ∈ Finset.range blocks, ∑ k ∈ Finset.range size, f (size * b + k) =
      ∑ i ∈ Finset.range (size * blocks), f i := by
  induction blocks with
  | zero => simp
  | succ blocks ih => rw [Finset.sum_range_succ, ih, Nat.mul_succ, Finset.sum_range_add]

namespace Scalar

-- the operations of exact arithmetic are written as those of the field
attribute [-instance] Scalar.toAdd Scalar.toSub Scalar.toMul Scalar.toDiv Scalar.toNeg

variable {K : Type} [Field K] [LinearOrder K] [Root K]

omit [LinearOrder K] [Root K] in
/-- Terms added one after another to a start. -/
theorem foldl_add_exact (n : ℕ) (term : Fin n → K) (x : K) :
    Fin.foldl n (fun acc k => acc + term k) x = x + ∑ k, term k := by
  induction n with
  | zero => simp
  | succ n ih =>
    rw [Fin.foldl_succ_last, ih fun k => term k.castSucc, Fin.sum_univ_castSucc, add_assoc]

/-- A sum in order. -/
theorem sum_exact (n : ℕ) (term : Fin n → K) : Scalar.sum n term = ∑ k, term k :=
  (foldl_add_exact n term 0).trans (zero_add _)

/-- A sum in blocks. The last block ends with the last term. -/
theorem blockedSum_exact (n : ℕ) (term : Fin n → K) : Scalar.blockedSum n term = ∑ k, term k := by
  let f (i : ℕ) : K := if h : i < n then term ⟨i, h⟩ else 0
  have hterm : ∀ {i : ℕ} (h : i < n), term ⟨i, h⟩ = f i := fun h => by
    simp only [f, dif_pos h]
  have hpast : ∀ i, n ≤ i → f i = 0 := fun i hi => dif_neg (Nat.not_lt.2 hi)
  -- behind the last term a block is filled up with zeros
  have hblock : ∀ b, ∑ k ∈ Finset.range (min blockSize (n - blockSize * b)),
      f (blockSize * b + k) = ∑ k ∈ Finset.range blockSize, f (blockSize * b + k) := by
    intro b
    refine Finset.sum_subset (Finset.range_mono (Nat.min_le_left _ _)) fun k hk hout => ?_
    rw [Finset.mem_range] at hk hout
    exact hpast _ (by omega)
  have hall : n ≤ blockSize * ((n + (blockSize - 1)) / blockSize) := by
    unfold blockSize
    omega
  calc Scalar.blockedSum n term
      = ∑ b ∈ Finset.range ((n + (blockSize - 1)) / blockSize),
          ∑ k ∈ Finset.range (min blockSize (n - blockSize * b)), f (blockSize * b + k) := by
        rw [blockedSum, sum_exact, Finset.sum_range]
        refine Finset.sum_congr rfl fun b _ => ?_
        rw [sum_exact, Finset.sum_range]
        exact Finset.sum_congr rfl fun k _ => hterm _
    _ = ∑ i ∈ Finset.range (blockSize * ((n + (blockSize - 1)) / blockSize)), f i := by
        rw [Finset.sum_congr rfl fun b _ => hblock b, sum_range_blocks]
    _ = ∑ i ∈ Finset.range n, f i :=
        (Finset.sum_subset (Finset.range_mono hall) fun i _ hi =>
          hpast i (Nat.not_lt.1 fun h => hi (Finset.mem_range.2 h))).symm
    _ = ∑ k, term k := by
        rw [Finset.sum_range]
        exact Finset.sum_congr rfl fun k _ => (hterm k.isLt).symm

/-- A sum in eight lanes. The lanes take up the groups of eight, and the rest comes behind them. -/
theorem lanedSum_exact (xs : Array K) : Scalar.lanedSum xs = xs.toList.sum := by
  let f (i : ℕ) : K := xs.getD i 0
  have hget : ∀ {i : ℕ} (h : i < xs.size), xs[i] = f i := fun {i} h => by
    simp only [f, Array.getD_eq_getD_getElem?, Array.getElem?_eq_getElem h, Option.getD_some]
  let lane (l : ℕ) : K := ∑ g ∈ Finset.range (xs.size / 8), f (8 * g + l)
  have hlanes : ∑ l ∈ Finset.range 4, (lane l + lane (4 + l)) =
      ∑ i ∈ Finset.range (8 * (xs.size / 8)), f i := by
    rw [Finset.sum_add_distrib, ← Finset.sum_range_add, Finset.sum_comm, sum_range_blocks]
  have hpairs : Scalar.sum 4 (fun l : Fin 4 =>
      Scalar.sum (xs.size / 8) (fun g => xs[8 * g.val + l.val]) +
        Scalar.sum (xs.size / 8) fun g => xs[8 * g.val + (l.val + 4)]) =
      ∑ l ∈ Finset.range 4, (lane l + lane (4 + l)) := by
    rw [sum_exact, Finset.sum_range]
    refine Finset.sum_congr rfl fun l _ => ?_
    rw [sum_exact, sum_exact, add_comm 4]
    simp only [lane, Finset.sum_range, hget]
  calc Scalar.lanedSum xs
      = ∑ i ∈ Finset.range (8 * (xs.size / 8)), f i +
          ∑ k ∈ Finset.range (xs.size % 8), f (8 * (xs.size / 8) + k) := by
        rw [← hlanes, ← hpairs, Finset.sum_range]
        refine (foldl_add_exact _ _ _).trans (congrArg _ ?_)
        exact Finset.sum_congr rfl fun k _ => hget _
    _ = ∑ i ∈ Finset.range xs.size, f i := by
        rw [← Finset.sum_range_add, Nat.div_add_mod]
    _ = ∑ i : Fin xs.size, xs[i] := by
        rw [Finset.sum_range]
        exact Finset.sum_congr rfl fun i _ => (hget i.isLt).symm
    _ = xs.toList.sum := Fin.sum_univ_getElem xs.toList

end Scalar

end Federated
