/-
  Federated.Proofs.Sampling.Shard

  Balanced shards cover the rows of a dataset: one behind the other they are all rows in order.

    * `Rows.Split`, `Rows.split_along` — ranges from mark to mark split the rows of a dataset.
    * `Rows.boundary` — where one shard ends and the next one begins.
    * `Rows.flatMap_between` — the shards, one behind the other, are all rows.
    * `Rows.size_between_eq_zero` — only workers beyond the number of rows have none.
    * `Rows.shardInWords` — a shard worked out in words of 64 bits.
    * `Rows.shards_balanced` — shards split any total that fits a word, the larger ones first.
-/
import Federated.Sampling.Shard
import Mathlib.Data.List.Chain
import Mathlib.Data.List.Range

namespace Federated

namespace Rows

/-! ## Ranges between marks -/

/-- Ranges that follow each other from the first of `total` rows to the last. -/
structure Split (total : Nat) (rs : List Rows) : Prop where
  first : rs.head?.map start = some 0
  last : rs.getLast?.map stop = some total
  meets : rs.IsChain fun r next => r.stop = next.start
  forward : ∀ r ∈ rs, r.start ≤ r.stop ∧ r.stop ≤ total

/-- Ranges that follow each other have the rows from where the first of them starts. -/
theorem flatMap_toList_of_isChain {r : Rows} {rs : List Rows} {last : Nat}
    (meets : (r :: rs).IsChain fun r next => r.stop = next.start)
    (forward : ∀ range ∈ r :: rs, range.start ≤ range.stop)
    (hlast : (r :: rs).getLast?.map stop = some last) :
    r.start ≤ last ∧ (r :: rs).flatMap toList = List.range' r.start (last - r.start) := by
  obtain ⟨hr, hrs⟩ := List.forall_mem_cons.1 forward
  induction rs generalizing r with
  | nil =>
    obtain rfl : r.stop = last := by simpa using hlast
    exact ⟨hr, by simp [toList, size]⟩
  | cons next rs ih =>
    obtain ⟨hmeets, hchain⟩ := List.isChain_cons_cons.1 meets
    obtain ⟨hnext, hrest⟩ := List.forall_mem_cons.1 hrs
    obtain ⟨hle, hrows⟩ := ih hchain hrs (by rwa [List.getLast?_cons_cons] at hlast) hnext hrest
    have hstop : r.start + r.size = next.start := by rw [size]; omega
    refine ⟨by omega, ?_⟩
    rw [List.flatMap_cons, hrows, toList, ← hstop, List.range'_append_1]
    congr 1
    omega

/-- A split has every row once, in order. -/
theorem Split.flatMap_toList {total : Nat} {rs : List Rows} (h : Split total rs) :
    rs.flatMap toList = List.range total := by
  obtain ⟨hfirst, hlast, hmeets, hforward⟩ := h
  cases rs with
  | nil => cases hfirst
  | cons r rs =>
    obtain ⟨-, hrows⟩ := flatMap_toList_of_isChain hmeets (fun r hr => (hforward r hr).1) hlast
    have hzero : r.start = 0 := by simpa using hfirst
    rw [hrows, hzero, Nat.sub_zero, List.range_eq_range']

/-- Ranges from each of `n` marks to the next one, from mark `i` on. -/
def along (marks : Nat → Nat) (i n : Nat) : List Rows :=
  (List.range' i n).map fun i => ⟨marks i, marks (i + 1)⟩

@[simp] theorem length_along (marks : Nat → Nat) (i n : Nat) : (along marks i n).length = n := by
  simp [along]

theorem along_succ (marks : Nat → Nat) (i n : Nat) :
    along marks i (n + 1) = ⟨marks i, marks (i + 1)⟩ :: along marks (i + 1) n := rfl

theorem getElem?_along (marks : Nat → Nat) {i n k : Nat} (h : k < n) :
    (along marks i n)[k]? = some ⟨marks (i + k), marks (i + k + 1)⟩ := by
  simp [along, h]

/-- Ranges between ascending marks, from none to all rows, split them. -/
theorem split_along {marks : Nat → Nat} {n total : Nat} (hn : 0 < n) (first : marks 0 = 0)
    (last : marks n = total) (ascend : ∀ i < n, marks i ≤ marks (i + 1)) :
    Split total (along marks 0 n) := by
  have hbelow : ∀ i ≤ n, marks i ≤ total := by
    intro i hi
    induction hi using Nat.decreasingInduction with
    | self => exact last.le
    | of_succ i hi ih => exact (ascend i hi).trans ih
  refine ⟨?start, ?stop, ?meets, ?forward⟩
  case start => rw [List.head?_eq_getElem?, getElem?_along marks hn, Option.map_some, first]
  case stop =>
    rw [List.getLast?_eq_getElem?, length_along, getElem?_along marks (by omega), Option.map_some,
      Nat.zero_add, Nat.sub_add_cancel hn, last]
  case meets =>
    rw [List.isChain_iff_getElem]
    intro i hi
    simp [along]
  case forward =>
    intro r hr
    obtain ⟨i, hi, rfl⟩ := List.mem_map.1 hr
    have hlt : i < n := by simpa using (List.mem_range'_1.1 hi).2
    exact ⟨ascend i hlt, hbelow (i + 1) hlt⟩

/-! ## Balanced shards -/

variable {total shards : Nat}

/-- Where shard `i` begins, which is where the one before it ends. -/
def boundary (total shards i : Nat) : Nat := i * (total / shards) + min i (total % shards)

@[simp] theorem boundary_zero (total shards : Nat) : boundary total shards 0 = 0 := by
  simp [boundary]

/-- A shard has its share of the rows, and the first ones have one more. -/
theorem boundary_succ (total shards i : Nat) : boundary total shards (i + 1) =
    boundary total shards i + total / shards + if i < total % shards then 1 else 0 := by
  rw [boundary, boundary, Nat.succ_mul]
  split <;> omega

/-- The last shard ends with the last row. -/
theorem boundary_self (h : 0 < shards) : boundary total shards shards = total := by
  have hmod : total % shards < shards := Nat.mod_lt total h
  rw [boundary, Nat.min_eq_right hmod.le]
  exact Nat.div_add_mod total shards

/-- No boundary is behind the last row. -/
theorem boundary_le (total : Nat) {i : Nat} (hi : i ≤ shards) :
    boundary total shards i ≤ total := by
  have hbase : i * (total / shards) ≤ shards * (total / shards) := Nat.mul_le_mul_right _ hi
  have htotal : shards * (total / shards) + total % shards = total := Nat.div_add_mod total shards
  rw [boundary]
  omega

/-- Boundaries ascend. -/
theorem boundary_le_succ (total shards i : Nat) :
    boundary total shards i ≤ boundary total shards (i + 1) := by
  rw [boundary_succ, Nat.add_assoc]
  exact Nat.le_add_right _ _

/-- The rows between two boundaries. -/
def between (total shards i : Nat) : Rows :=
  ⟨boundary total shards i, boundary total shards (i + 1)⟩

/-- The shard of a worker goes from one boundary to the next. -/
theorem shard_eq (total : Nat) {index : Nat} (h : index < shards) : shard total index shards =
    .ok (between total shards index) := by
  rw [between, shard, if_neg (by omega), if_neg (by omega), boundary_succ]
  rfl

theorem size_between (total shards i : Nat) : (between total shards i).size =
    total / shards + if i < total % shards then 1 else 0 := by
  show boundary total shards (i + 1) - boundary total shards i = _
  rw [boundary_succ, Nat.add_assoc, Nat.add_sub_cancel_left]

/-- The first shards, one behind the other, are all rows up to a boundary. -/
theorem flatMap_between (total shards n : Nat) :
    (List.range n).flatMap (fun i => (between total shards i).toList) =
      List.range (boundary total shards n) := by
  induction n with
  | zero => simp
  | succ n ih =>
    have hsize : boundary total shards (n + 1) =
        boundary total shards n + (between total shards n).size := by
      rw [size_between, boundary_succ, Nat.add_assoc]
    rw [List.range_succ, List.flatMap_append, ih, hsize, List.range_add]
    simp [toList, between, List.range'_eq_map_range]

/-- A shard is without rows exactly if there are workers beyond the number of rows, and it belongs
    to one of them. -/
theorem size_between_eq_zero (h : 0 < shards) {i : Nat} (hi : i < shards) :
    (between total shards i).size = 0 ↔ total ≤ i := by
  rw [size_between]
  rcases Nat.lt_or_ge total shards with hlt | hge
  · rw [Nat.div_eq_of_lt hlt, Nat.mod_eq_of_lt hlt]
    split <;> omega
  · have hpos : 0 < total / shards := Nat.div_pos hge h
    omega

theorem size_between_antitone (total shards : Nat) {i j : Nat} (h : i < j) :
    (between total shards j).size ≤ (between total shards i).size ∧
      (between total shards i).size ≤ (between total shards j).size + 1 := by
  rw [size_between, size_between]
  split <;> split <;> omega

/-- The same shard, worked out in words of 64 bits. -/
def shardInWords (total index shards : Nat) : Except Defect Rows := do
  if shards = 0 then throw .noShards
  if shards ≤ index then throw .shardIndex
  let base := total / shards
  let larger := total % shards
  let start ← counted ((← counted (index * base)) + min index larger)
  let stop ← counted ((← counted (start + base)) + if index < larger then 1 else 0)
  return ⟨start, stop⟩

/-- Every product and every sum on the way to a shard fits a word if the total does. -/
theorem shardInWords_eq (h : total ≤ countLimit) (index : Nat) :
    shardInWords total index shards = shard total index shards := by
  rcases Nat.eq_zero_or_pos shards with rfl | hshards
  · rfl
  rcases Nat.lt_or_ge index shards with hindex | hindex
  · have hstop : boundary total shards (index + 1) ≤ countLimit :=
      (boundary_le total hindex).trans h
    -- where the shard ends is the largest number of all
    rw [boundary_succ] at hstop
    have hwords : ∀ n, n ≤ boundary total shards index + total / shards +
        (if index < total % shards then 1 else 0) → counted n = .ok n :=
      fun n hn => counted_of_le (hn.trans hstop)
    have hstart := hwords (boundary total shards index)
      ((Nat.le_add_right _ _).trans (Nat.le_add_right _ _))
    have hbase : counted (index * (total / shards)) = .ok (index * (total / shards)) :=
      hwords _ ((Nat.le_add_right _ _).trans ((Nat.le_add_right _ _).trans (Nat.le_add_right _ _)))
    have hend := hwords (boundary total shards index + total / shards) (Nat.le_add_right _ _)
    have hall := hwords _ le_rfl
    rw [boundary] at hstart hend hall
    rw [shardInWords, shard, if_neg (by omega), if_neg (by omega), if_neg (by omega),
      if_neg (by omega)]
    simp only [bind, Except.bind, pure, Except.pure, hbase, hstart, hend, hall]
  · rw [shardInWords, shard, if_neg (by omega), if_pos hindex, if_neg (by omega), if_pos hindex]
    rfl

/-- Any total that fits a word is split among any number of workers: the shard of each starts where
    the one before it ends, sizes differ by at most one row with the larger ones first, and no
    number on the way to a shard is too large for a word. -/
theorem shards_balanced (htotal : total ≤ countLimit) (hshards : 0 < shards) :
    ∃ rs, rs.length = shards ∧
      (∀ i r, rs[i]? = some r → shard total i shards = .ok r ∧
        shardInWords total i shards = .ok r) ∧
      Split total rs ∧ rs.flatMap toList = List.range total ∧
      rs.Pairwise fun r later => later.size ≤ r.size ∧ r.size ≤ later.size + 1 := by
  have hsplit : Split total (along (boundary total shards) 0 shards) :=
    split_along hshards (boundary_zero total shards) (boundary_self hshards)
      fun i _ => boundary_le_succ total shards i
  refine ⟨along (boundary total shards) 0 shards, length_along _ _ _, ?shards, hsplit,
    hsplit.flatMap_toList, ?sizes⟩
  case shards =>
    intro i r hr
    have hi : i < shards := by
      rw [← length_along (boundary total shards) 0 shards]
      exact (List.getElem?_eq_some_iff.1 hr).1
    rw [getElem?_along _ hi, Nat.zero_add] at hr
    have hshard : shard total i shards = .ok r := by
      rw [shard_eq total hi, ← Option.some.inj hr, between]
    exact ⟨hshard, (shardInWords_eq htotal i).trans hshard⟩
  case sizes =>
    have hindex : (List.range' 0 shards).Pairwise (· < ·) := List.pairwise_lt_range'
    exact List.pairwise_map.2 (hindex.imp fun h => size_between_antitone total shards h)

/-- Three workers share the largest total of all. -/
theorem shards_balanced_three : countLimit ≤ countLimit ∧ 0 < 3 ∧
    ∃ rs, rs.length = 3 ∧
      (∀ i r, rs[i]? = some r → shard countLimit i 3 = .ok r ∧
        shardInWords countLimit i 3 = .ok r) ∧
      Split countLimit rs ∧ rs.flatMap toList = List.range countLimit ∧
      rs.Pairwise fun r later => later.size ≤ r.size ∧ r.size ≤ later.size + 1 :=
  ⟨le_rfl, by decide, shards_balanced le_rfl (by decide)⟩

end Rows

end Federated
