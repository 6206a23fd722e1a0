/-
  Federated.Proofs.Sampling.Parts

  Shards in proportion to parts. Every part gets its share of the rows, rounded down; the last one
  gets what rounding has left as well, which is less than one row for each part.

    * `Rows.share`, `Rows.mark` — the share of a part, and where its rows begin.
    * `Rows.shares_le_total`, `Rows.total_lt_shares_add` — what rounding leaves.
    * `Rows.followParts_of_fits`, `Rows.followParts_of_overflow` — the walk over the parts.
    * `Rows.InProportion`, `Rows.inProportion_along` — ranges in proportion to parts.
    * `Rows.shardsByParts_iff` — which parts have shards, and what these are.
-/
import Federated.Proofs.Sampling.Shard
import Mathlib.Algebra.BigOperators.Group.List.Basic
import Mathlib.Tactic.Ring

namespace Federated

namespace Rows

variable {total sum : Nat} {parts : List Nat}

/-! ## Shares -/

/-- The rows that a part has a claim to, rounded down. -/
def share (total sum part : Nat) : Nat := total * part / sum

/-- The rows that all parts have a claim to. -/
def shares (total sum : Nat) (parts : List Nat) : Nat := (parts.map (share total sum)).sum

@[simp] theorem shares_nil (total sum : Nat) : shares total sum [] = 0 := rfl

@[simp] theorem shares_cons (total sum part : Nat) (parts : List Nat) :
    shares total sum (part :: parts) = share total sum part + shares total sum parts := by
  simp [shares]

theorem shares_append (total sum : Nat) (parts later : List Nat) :
    shares total sum (parts ++ later) = shares total sum parts + shares total sum later := by
  simp [shares]

/-- The shares in front of a part, its own share and the shares behind it. -/
theorem shares_at (total sum : Nat) {i part : Nat} (h : parts[i]? = some part) :
    shares total sum parts = shares total sum (parts.take i) + share total sum part +
      shares total sum (parts.drop (i + 1)) := by
  obtain ⟨hi, rfl⟩ := List.getElem?_eq_some_iff.1 h
  have hdrop : parts.drop i = parts[i] :: parts.drop (i + 1) := List.drop_eq_getElem_cons hi
  rw [Nat.add_assoc, ← shares_cons, ← hdrop, ← shares_append, List.take_append_drop]

/-- Rounding takes less than one row from each part. -/
theorem shares_mul_bounds (total : Nat) (hsum : 0 < sum) (parts : List Nat) :
    shares total sum parts * sum ≤ total * parts.sum ∧
      total * parts.sum ≤ shares total sum parts * sum + parts.length * (sum - 1) := by
  induction parts with
  | nil => simp
  | cons part parts ih =>
    have hdiv : sum * share total sum part + total * part % sum = total * part :=
      Nat.div_add_mod (total * part) sum
    have hmod : total * part % sum < sum := Nat.mod_lt _ hsum
    rw [shares_cons, List.sum_cons, Nat.mul_add, Nat.add_mul, List.length_cons, Nat.succ_mul,
      Nat.mul_comm (share total sum part)]
    omega

/-- The shares of all parts are no more than all rows. -/
theorem shares_le_total (total : Nat) (h : 0 < parts.sum) : shares total parts.sum parts ≤ total :=
  Nat.le_of_mul_le_mul_right (shares_mul_bounds total h parts).1 h

/-- Rounding leaves fewer rows than there are parts. -/
theorem total_lt_shares_add (total : Nat) (h : 0 < parts.sum) :
    total < shares total parts.sum parts + parts.length := by
  have hparts : 0 < parts.length := parts.length_pos_of_sum_pos h
  refine Nat.lt_of_mul_lt_mul_right (a := parts.sum) ?_
  calc total * parts.sum
      ≤ shares total parts.sum parts * parts.sum + parts.length * (parts.sum - 1) :=
        (shares_mul_bounds total h parts).2
    _ < shares total parts.sum parts * parts.sum + parts.length * parts.sum :=
        Nat.add_lt_add_left (Nat.mul_lt_mul_of_pos_left (Nat.sub_lt h Nat.one_pos) hparts) _
    _ = (shares total parts.sum parts + parts.length) * parts.sum := (Nat.add_mul _ _ _).symm

/-! ## Marks -/

/-- Where the rows of a part begin; behind the last part there are no rows left. -/
def mark (total : Nat) (parts : List Nat) (i : Nat) : Nat :=
  if i < parts.length then shares total parts.sum (parts.take i) else total

theorem mark_of_lt (total : Nat) {i : Nat} (h : i < parts.length) :
    mark total parts i = shares total parts.sum (parts.take i) := if_pos h

@[simp] theorem mark_length (total : Nat) (parts : List Nat) :
    mark total parts parts.length = total := if_neg (Nat.lt_irrefl _)

theorem mark_zero (total : Nat) (h : 0 < parts.length) : mark total parts 0 = 0 := by
  rw [mark_of_lt total h, List.take_zero, shares_nil]

/-- A part that is not the last one gets its share. -/
theorem mark_succ (total : Nat) {i part : Nat} (hpart : parts[i]? = some part)
    (h : i + 1 < parts.length) :
    mark total parts (i + 1) = mark total parts i + share total parts.sum part := by
  rw [mark_of_lt total h, mark_of_lt total (by omega), List.take_add_one, hpart, shares_append,
    Option.toList_some, shares_cons, shares_nil, Nat.add_zero]

/-- The rows of a part begin where the share that it has still fits. -/
theorem mark_add_share_le (total : Nat) (hsum : 0 < parts.sum) {i part : Nat}
    (hpart : parts[i]? = some part) : mark total parts i + share total parts.sum part ≤ total := by
  obtain ⟨hi, -⟩ := List.getElem?_eq_some_iff.1 hpart
  have hall := shares_at total parts.sum hpart
  have hle := shares_le_total total hsum
  rw [mark_of_lt total hi]
  omega

theorem mark_le_succ (total : Nat) (hsum : 0 < parts.sum) {i : Nat} (h : i < parts.length) :
    mark total parts i ≤ mark total parts (i + 1) := by
  have hpart : parts[i]? = some parts[i] := List.getElem?_eq_getElem h
  rcases Nat.lt_or_ge (i + 1) parts.length with hlt | hge
  · rw [mark_succ total hpart hlt]
    exact Nat.le_add_right _ _
  · rw [show i + 1 = parts.length by omega, mark_length]
    exact (Nat.le_add_right _ _).trans (mark_add_share_le total hsum hpart)

/-- The rows of the next part begin within a word if those of a part do and its product fits. -/
theorem mark_succ_le_countLimit (hsum : 0 < parts.sum) {i part : Nat}
    (hpart : parts[i]? = some part) (h : i + 1 < parts.length)
    (hmark : mark total parts i ≤ countLimit) (hproduct : total * part ≤ countLimit) :
    mark total parts (i + 1) ≤ countLimit := by
  have hroom := mark_add_share_le total hsum hpart
  rw [mark_succ total hpart h]
  -- a part of zero has no share; any other one has a product above all marks
  rcases Nat.eq_zero_or_pos part with rfl | hpos
  · rw [share, Nat.mul_zero, Nat.zero_div]
    exact hmark
  · exact (hroom.trans (Nat.le_mul_of_pos_right total hpos)).trans hproduct

/-! ## The walk over the parts -/

theorem sumParts_eq (parts : List Nat) : sumParts parts = counted parts.sum := by
  have hfold : ∀ sum ≤ countLimit, parts.foldlM (fun sum part => counted (sum + part)) sum =
      counted (sum + parts.sum) := by
    induction parts with
    | nil => exact fun sum hsum => (counted_of_le hsum).symm
    | cons part parts ih =>
      intro sum hsum
      rw [List.foldlM_cons, List.sum_cons, ← Nat.add_assoc]
      rcases Nat.lt_or_ge countLimit (sum + part) with hlt | hge
      · rw [counted_of_lt hlt, counted_of_lt (hlt.trans_le (Nat.le_add_right _ _))]
        rfl
      · rw [counted_of_le hge]
        exact ih _ hge
  rw [sumParts, hfold 0 (Nat.zero_le _), Nat.zero_add]

theorem followParts_cons (total sum start part next : Nat) (parts : List Nat) :
    followParts total sum start (part :: next :: parts) = (do
      let stop ← counted (start + (← counted (total * part)) / sum)
      return ⟨start, min stop total⟩ ::
        (← followParts total sum (min stop total) (next :: parts))) := rfl

/-- Where the product for every part but the last fits a word, so does every sum, and the parts that
    are left get the rows between their marks. -/
theorem followParts_of_fits (hsum : 0 < parts.sum) (before : List Nat) {rest : List Nat}
    (hne : rest ≠ []) (hparts : parts = before ++ rest)
    (hstart : mark total parts before.length ≤ countLimit)
    (hfits : ∀ part ∈ rest.dropLast, total * part ≤ countLimit) :
    followParts total parts.sum (mark total parts before.length) rest =
      .ok (along (mark total parts) before.length rest.length) := by
  induction rest generalizing before with
  | nil => exact absurd rfl hne
  | cons part rest ih =>
    cases rest with
    | nil =>
      have hlength : parts.length = before.length + 1 := by simp [hparts]
      show Except.ok [Rows.mk _ total] = _
      rw [List.length_singleton, along_succ, ← hlength, mark_length]
      rfl
    | cons next rest =>
      have hpart : parts[before.length]? = some part := by simp [hparts]
      have hlt : before.length + 1 < parts.length := by simp [hparts]
      obtain ⟨hproduct, hfits⟩ : total * part ≤ countLimit ∧
          ∀ part ∈ (next :: rest).dropLast, total * part ≤ countLimit := by
        rw [List.dropLast_cons_cons] at hfits
        exact List.forall_mem_cons.1 hfits
      have hmark := mark_succ total hpart hlt
      have hsucc := mark_succ_le_countLimit hsum hpart hlt hstart hproduct
      have hrest := ih (before ++ [part]) (List.cons_ne_nil _ _) (by simp [hparts])
        (by simpa using hsucc) hfits
      rw [List.length_append, List.length_singleton, hmark] at hrest
      rw [hmark] at hsucc
      have hstop : mark total parts before.length + total * part / parts.sum ≤ countLimit := hsucc
      have hmin : min (mark total parts before.length + total * part / parts.sum) total =
          mark total parts before.length + share total parts.sum part :=
        Nat.min_eq_left (mark_add_share_le total hsum hpart)
      rw [followParts_cons, counted_of_le hproduct]
      simp only [bind, Except.bind, counted_of_le hstop, hmin, hrest, pure, Except.pure]
      rw [List.length_cons (a := part), along_succ, hmark]

/-- Where the product for a part but the last is too large for a word, there are no shards. -/
theorem followParts_of_overflow (start : Nat) {part : Nat} (hpart : part ∈ parts.dropLast)
    (h : countLimit < total * part) : followParts total sum start parts = .error .overflow := by
  induction parts generalizing start with
  | nil => cases hpart
  | cons first parts ih =>
    cases parts with
    | nil => cases hpart
    | cons next parts =>
      rw [followParts_cons]
      rw [List.dropLast_cons_cons, List.mem_cons] at hpart
      rcases Nat.lt_or_ge countLimit (total * first) with hlt | hge
      · rw [counted_of_lt hlt]
        rfl
      have hrest : part ∈ (next :: parts).dropLast := by
        rcases hpart with rfl | hrest
        · exact absurd h (Nat.not_lt.2 hge)
        · exact hrest
      rw [counted_of_le hge]
      rcases Nat.lt_or_ge countLimit (start + total * first / sum) with hlt | hge
      · simp only [bind, Except.bind, counted_of_lt hlt]
      · simp only [bind, Except.bind, counted_of_le hge, ih _ hrest]

/-! ## Shards by parts -/

/-- Parts that shards cannot be cut by in words of 64 bits: their running sum is too large, they sum
    to zero, or the product of a part other than the last with the total is too large. -/
def Unshareable (total : Nat) (parts : List Nat) : Prop :=
  (∃ n, countLimit < (parts.take n).sum) ∨ parts.sum = 0 ∨
    ∃ i part, parts[i]? = some part ∧ i + 1 < parts.length ∧ countLimit < total * part

/-- A split of the rows by parts: one range for each part, which has its share of the rows, rounded
    down. The last one has up to as many rows more as there are other parts. -/
structure InProportion (total : Nat) (parts : List Nat) (rs : List Rows) : Prop where
  length : rs.length = parts.length
  split : Split total rs
  size : ∀ i part r, parts[i]? = some part → rs[i]? = some r → i + 1 < parts.length →
    r.size = total * part / parts.sum
  last : ∀ part r, parts.getLast? = some part → rs.getLast? = some r →
    total * part / parts.sum ≤ r.size ∧
      r.size ≤ total * part / parts.sum + (parts.length - 1)

/-- The rows between marks are in proportion to the parts. -/
theorem inProportion_along (total : Nat) (hsum : 0 < parts.sum) :
    InProportion total parts (along (mark total parts) 0 parts.length) := by
  have hlength : 0 < parts.length := parts.length_pos_of_sum_pos hsum
  refine ⟨length_along _ _ _, ?split, ?size, ?last⟩
  case split =>
    exact split_along hlength (mark_zero total hlength) (mark_length total parts)
      fun i hi => mark_le_succ total hsum hi
  case size =>
    intro i part r hpart hr hi
    rw [getElem?_along _ (by omega), Nat.zero_add] at hr
    rw [← Option.some.inj hr, size, mark_succ total hpart hi, Nat.add_sub_cancel_left, share]
  case last =>
    intro part r hpart hr
    rw [List.getLast?_eq_getElem?] at hpart
    rw [List.getLast?_eq_getElem?, length_along, getElem?_along _ (by omega), Nat.zero_add,
      Nat.sub_add_cancel hlength, mark_length] at hr
    have hroom := mark_add_share_le total hsum hpart
    have hleft := total_lt_shares_add total hsum
    -- no share is behind the last part
    have hall := shares_at total parts.sum hpart
    rw [Nat.sub_add_cancel hlength, List.drop_length, shares_nil, ← mark_of_lt total (by omega)]
      at hall
    have hsize : r.size = total - mark total parts (parts.length - 1) := by
      rw [← Option.some.inj hr, Rows.size]
    rw [hsize, ← share]
    omega

theorem shardsByParts_of_unshareable (h : Unshareable total parts) :
    ∃ cause, shardsByParts total parts = .error cause := by
  rw [shardsByParts, sumParts_eq]
  rcases Nat.lt_or_ge countLimit parts.sum with hlt | hge
  · exact ⟨.overflow, by rw [counted_of_lt hlt]; rfl⟩
  rw [counted_of_le hge]
  by_cases hsum : parts.sum = 0
  · exact ⟨.emptyParts, by simp only [bind, Except.bind, if_pos hsum]; rfl⟩
  rcases h with ⟨n, hn⟩ | hzero | ⟨i, part, hpart, hi, hproduct⟩
  · -- no running sum is above the sum of all parts
    have hsplit := congrArg List.sum (List.take_append_drop n parts)
    rw [List.sum_append] at hsplit
    omega
  · exact absurd hzero hsum
  · have hmem : part ∈ parts.dropLast := by
      refine List.mem_of_getElem? (i := i) ?_
      rw [List.getElem?_dropLast, if_pos (by omega), hpart]
    refine ⟨.overflow, ?_⟩
    simp only [bind, Except.bind, if_neg hsum]
    exact followParts_of_overflow 0 hmem hproduct

theorem shardsByParts_of_not_unshareable (h : ¬ Unshareable total parts) :
    shardsByParts total parts = .ok (along (mark total parts) 0 parts.length) := by
  obtain ⟨hrunning, hsum, hproducts⟩ : (∀ n, (parts.take n).sum ≤ countLimit) ∧ parts.sum ≠ 0 ∧
      ∀ i part, parts[i]? = some part → i + 1 < parts.length → total * part ≤ countLimit := by
    simpa only [Unshareable, not_or, not_exists, not_and, Nat.not_lt] using h
  have hne : parts ≠ [] := fun hnil => hsum (hnil ▸ rfl)
  have hall : parts.sum ≤ countLimit := by
    have hrunning := hrunning parts.length
    rwa [List.take_length] at hrunning
  have hfits : ∀ part ∈ parts.dropLast, total * part ≤ countLimit := by
    intro part hmem
    obtain ⟨i, hi⟩ := List.mem_iff_getElem?.1 hmem
    rw [List.getElem?_dropLast] at hi
    split at hi
    · exact hproducts i part hi (by omega)
    · cases hi
  have hzero : mark total parts 0 = 0 := mark_zero total (List.length_pos_iff.2 hne)
  have hwalk := followParts_of_fits (Nat.pos_of_ne_zero hsum) [] hne rfl
    (by rw [List.length_nil, hzero]; exact Nat.zero_le _) hfits
  rw [List.length_nil, hzero] at hwalk
  rw [shardsByParts, sumParts_eq, counted_of_le hall]
  simp only [bind, Except.bind, if_neg hsum]
  exact hwalk

/-- Parts have shards unless something on the way is too large for a word or they sum to zero. The
    shards then split the rows in proportion. -/
theorem shardsByParts_iff (total : Nat) (parts : List Nat) :
    ((∃ cause, shardsByParts total parts = .error cause) ↔ Unshareable total parts) ∧
      (¬ Unshareable total parts → ∃ rs, shardsByParts total parts = .ok rs ∧
        InProportion total parts rs ∧ rs.flatMap toList = List.range total) := by
  constructor
  · refine ⟨fun ⟨cause, hcause⟩ => ?_, shardsByParts_of_unshareable⟩
    by_contra hshareable
    rw [shardsByParts_of_not_unshareable hshareable] at hcause
    cases hcause
  · intro hshareable
    have hsum : 0 < parts.sum := Nat.pos_of_ne_zero fun hzero => hshareable (.inr (.inl hzero))
    have hproportion := inProportion_along total hsum
    exact ⟨_, shardsByParts_of_not_unshareable hshareable, hproportion,
      hproportion.split.flatMap_toList⟩

/-- Ten rows go to parts of which one is zero. -/
theorem shardsByParts_zero_part : ¬ Unshareable 10 [2, 0, 1, 4] ∧
    ∃ rs, shardsByParts 10 [2, 0, 1, 4] = .ok rs ∧
      InProportion 10 [2, 0, 1, 4] rs ∧ rs.flatMap toList = List.range 10 := by
  have hshareable : ¬ Unshareable 10 [2, 0, 1, 4] := by
    intro h
    obtain ⟨cause, hcause⟩ := (shardsByParts_iff 10 [2, 0, 1, 4]).1.2 h
    have hok : shardsByParts 10 [2, 0, 1, 4] = .ok [⟨0, 2⟩, ⟨2, 2⟩, ⟨2, 3⟩, ⟨3, 10⟩] := by decide
    rw [hok] at hcause
    cases hcause
  exact ⟨hshareable, (shardsByParts_iff 10 [2, 0, 1, 4]).2 hshareable⟩

end Rows

end Federated
