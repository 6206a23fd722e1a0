/-
  Federated.Proofs.Sampling.Batches

  Batches are handed out one at a time, and their number is told in three ways: by the loader, by
  what says how many are left, and by how often a batch is handed out. All three agree, and no step
  on the way leaves the dataset or the 64-bit range.

    * `Batches.length_cut`, `Batches.length_of_getElem?_cut` — how rows are cut.
    * `Batches.Fits`, `Batches.next?_of_cons` — what a call for the next batch does.
    * `Batches.after`, `Batches.after_eq` — what any number of calls leave.
    * `Loader.batches_agree` — the batches of a loader over any range of rows.
-/
import Federated.Proofs.Model.Layout
import Federated.Proofs.Sampling.Walks

namespace Federated

/-- A computation over a list gives one result for each member. -/
theorem length_of_mapM {α β ε : Type} {f : α → Except ε β} {l : List α} {ys : List β}
    (h : l.mapM f = .ok ys) : ys.length = l.length := by
  induction l generalizing ys with
  | nil =>
    cases h
    rfl
  | cons x l ih =>
    rw [List.mapM_cons] at h
    obtain ⟨y, -, h⟩ := ok_of_bind h
    obtain ⟨ys, hys, h⟩ := ok_of_bind h
    cases h
    rw [List.length_cons, List.length_cons, ih hys]

namespace Batches

/-! ## Cutting -/

section Cut

variable (n : Positive) {rows : List Nat}

theorem cut_nil : cut n [] = [] := by rw [cut]

theorem cut_of_ne_nil (h : rows ≠ []) :
    cut n rows = rows.take n.val :: cut n (rows.drop n.val) := by
  cases rows with
  | nil => exact absurd rfl h
  | cons row rows => rw [cut]

/-- Rows are cut into as many runs as it takes to hold them. -/
theorem length_cut (rows : List Nat) :
    (cut n rows).length = (rows.length + (n.val - 1)) / n.val := by
  have hn := n.property
  fun_induction cut n rows with
  | case1 => exact (Nat.div_eq_of_lt (by simp; omega)).symm
  | case2 row rows ih =>
    rw [List.length_cons, ih, List.length_drop]
    rcases Nat.le_total n.val (row :: rows).length with hle | hle
    · rw [show (row :: rows).length + (n.val - 1) =
        (row :: rows).length - n.val + (n.val - 1) + n.val by omega, Nat.add_div_right _ hn]
    · have hlength : 0 < (row :: rows).length := Nat.succ_pos _
      rw [Nat.sub_eq_zero_of_le hle, Nat.zero_add, Nat.div_eq_of_lt (by omega),
        show (row :: rows).length + (n.val - 1) = (row :: rows).length - 1 + n.val by omega,
        Nat.add_div_right _ hn, Nat.div_eq_of_lt (by omega)]

/-- Only the last run may be shorter than asked for. -/
theorem length_of_getElem?_cut {i : Nat} {run : List Nat} (h : (cut n rows)[i]? = some run)
    (hi : i + 1 < (cut n rows).length) : run.length = n.val := by
  fun_induction cut n rows generalizing i with
  | case1 => cases h
  | case2 row rows ih =>
    rw [List.length_cons] at hi
    cases i with
    | zero =>
      have hrest : (row :: rows).drop n.val ≠ [] := by
        intro hnil
        rw [hnil, cut_nil] at hi
        exact absurd hi (by simp)
      obtain rfl := Option.some.inj h
      rw [List.length_take, Nat.min_eq_left]
      exact (Nat.lt_of_not_le (mt List.drop_eq_nil_of_le hrest)).le
    | succ i => exact ih h (Nat.lt_of_succ_lt_succ hi)

end Cut

/-! ## Handing out -/

variable {α : Type} {b : Batches α} {bs : List (Batch α)} {batch : Batch α}

/-- No step from where the cursor is leaves the 64-bit range. -/
structure Fits (b : Batches α) : Prop where
  length : b.order.length ≤ Loader.orderLimit
  reach : b.cursor < b.order.length → b.cursor + b.batchSize.val ≤ countLimit

/-- The batches to come are as many as are said to be left. -/
theorem left_eq (h : b.toList = .ok bs) : b.left = bs.length := by
  rw [length_of_mapM h, length_cut, rest, List.length_drop, left]

/-- What is behind the next batch. -/
def advance (b : Batches α) : Batches α :=
  { b with
    cursor := min (b.cursor + b.batchSize.val) b.order.length
    cursor_le := Nat.min_le_right _ _ }

theorem rest_eq_nil_iff (b : Batches α) : b.rest = [] ↔ b.order.length ≤ b.cursor :=
  List.drop_eq_nil_iff

theorem rest_advance (b : Batches α) : b.advance.rest = b.rest.drop b.batchSize.val := by
  rw [rest, rest, List.drop_drop]
  show b.order.drop (min _ _) = _
  rcases Nat.le_total (b.cursor + b.batchSize.val) b.order.length with hle | hle
  · rw [Nat.min_eq_left hle]
  · rw [Nat.min_eq_right hle, List.drop_length, List.drop_eq_nil_of_le hle]

/-- The next batch has the first rows that are still to be visited. -/
theorem drop_take_advance (b : Batches α) : (b.order.take b.advance.cursor).drop b.cursor =
    b.rest.take b.batchSize.val := by
  show (b.order.take (min _ _)).drop b.cursor = _
  rw [rest, List.take_drop, ← List.take_take, List.take_length]

theorem Fits.advance (h : b.Fits) : b.advance.Fits := by
  refine ⟨h.length, fun hlt => ?_⟩
  have hlimit : Loader.orderLimit + Loader.orderLimit ≤ countLimit := by decide
  have hlength := h.length
  -- short of the end a whole batch has been handed out, so one more still fits
  change min (b.cursor + b.batchSize.val) b.order.length < b.order.length at hlt
  show min (b.cursor + b.batchSize.val) b.order.length + b.batchSize.val ≤ countLimit
  omega

/-- A call for the next batch gives none if there are none to come. -/
theorem next?_of_nil (hbs : b.toList = .ok []) : b.next? = .ok none := by
  refine if_pos (b.rest_eq_nil_iff.1 (by_contra fun hrest => ?_))
  have hlength := length_of_mapM hbs
  rw [cut_of_ne_nil b.batchSize hrest] at hlength
  cases hlength

/-- Else it gives the first one and leaves the others, and no cursor leaves the 64-bit range. -/
theorem next?_of_cons (h : b.Fits) (hbs : b.toList = .ok (batch :: bs)) :
    b.next? = .ok (some (batch, b.advance)) ∧ b.advance.toList = .ok bs := by
  have hrest : b.rest ≠ [] := by
    intro hnil
    rw [toList, hnil, cut_nil] at hbs
    cases hbs
  have hmore : ¬ b.order.length ≤ b.cursor := mt b.rest_eq_nil_iff.2 hrest
  have hreach := h.reach (Nat.lt_of_not_le hmore)
  rw [toList, cut_of_ne_nil b.batchSize hrest, List.mapM_cons] at hbs
  obtain ⟨first, hfirst, hbs⟩ := ok_of_bind hbs
  obtain ⟨later, hlater, hbs⟩ := ok_of_bind hbs
  cases hbs
  rw [← drop_take_advance] at hfirst
  refine ⟨?_, by rwa [toList, rest_advance]⟩
  rw [next?, if_neg hmore, counted_of_le hreach]
  change (do
    let batch ← b.dataset.gather ((b.order.take b.advance.cursor).drop b.cursor).toArray
    return some (batch, b.advance)) = _
  rw [hfirst]
  rfl

/-- What is left behind `n` calls for the next batch. A call that gives none changes nothing. -/
def after (b : Batches α) : Nat → Except Defect (Batches α)
  | 0 => .ok b
  | n + 1 => do
    match ← b.next? with
    | none => b.after n
    | some (_, rest) => rest.after n

theorem after_eq (h : b.Fits) (hbs : b.toList = .ok bs) (n : Nat) :
    ∃ left, b.after n = .ok left ∧ left.Fits ∧ left.toList = .ok (bs.drop n) := by
  induction n generalizing b bs with
  | zero => exact ⟨b, rfl, h, hbs⟩
  | succ n ih =>
    cases bs with
    | nil =>
      obtain ⟨left, hleft, hfits, hrest⟩ := ih h hbs
      refine ⟨left, ?_, hfits, by rwa [List.drop_nil] at hrest ⊢⟩
      rw [after, next?_of_nil hbs]
      exact hleft
    | cons batch bs =>
      obtain ⟨hnext, hrest⟩ := next?_of_cons h hbs
      obtain ⟨left, hleft, hfits, hrest⟩ := ih h.advance hrest
      refine ⟨left, ?_, hfits, hrest⟩
      rw [after, hnext]
      exact hleft

/-- Batches that come one after the other: behind any number of calls those that are left have
    their number told, and the next call gives the first of them, or none if there are none. -/
structure Yields (b : Batches α) (bs : List (Batch α)) : Prop where
  all : b.toList = .ok bs
  calls : ∀ n, ∃ behind, b.after n = .ok behind ∧ behind.left = bs.length - n ∧
    behind.next?.map (Option.map Prod.fst) = .ok bs[n]?

theorem Fits.yields (h : b.Fits) (hbs : b.toList = .ok bs) : b.Yields bs := by
  refine ⟨hbs, fun n => ?_⟩
  obtain ⟨behind, hbehind, hfits, hrest⟩ := after_eq h hbs n
  refine ⟨behind, hbehind, ?_, ?_⟩
  · rw [left_eq hrest, List.length_drop]
  · rw [← List.head?_drop]
    cases hdrop : bs.drop n with
    | nil =>
      rw [next?_of_nil (hdrop ▸ hrest)]
      rfl
    | cons batch later =>
      rw [(next?_of_cons hfits (hdrop ▸ hrest)).1]
      rfl

/-- Batches with the inputs and the labels of visited rows, all but the last one full. -/
structure Cover (dataset : Dataset α) (batchSize : Positive) (visits : List Nat)
    (bs : List (Batch α)) : Prop where
  full : ∀ i batch, bs[i]? = some batch → i + 1 < bs.length → batch.size = batchSize.val
  last : ∀ batch, bs.getLast? = some batch → 1 ≤ batch.size ∧ batch.size ≤ batchSize.val
  inputs : (bs.flatMap fun batch => batch.inputs.toRows).map some =
    visits.map fun row => dataset.inputs.toRows[row]?
  labels : (bs.flatMap fun batch => batch.labels.toRows).map some =
    visits.map fun row => dataset.labels.toRows[row]?

/-- What is gathered run by run has the rows of all runs. -/
theorem cover_of_gathered {dataset : Dataset α} {batchSize : Positive} {visits : List Nat}
    (h : List.Forall₂ dataset.Gathered (cut batchSize visits) bs) :
    Cover dataset batchSize visits bs := by
  have hlength : (cut batchSize visits).length = bs.length := h.length_eq
  have hrun : ∀ (i : Nat) (batch : Batch α), bs[i]? = some batch →
      ∃ run, (cut batchSize visits)[i]? = some run ∧ batch.size = run.length := by
    intro i batch hbatch
    have hsizes := congrArg (·[i]?) (Dataset.sizes_of_gathered h)
    simp only [List.getElem?_map, hbatch, Option.map_some] at hsizes
    obtain ⟨run, hrun, hsize⟩ := Option.map_eq_some_iff.1 hsizes.symm
    exact ⟨run, hrun, hsize.symm⟩
  refine ⟨fun i batch hbatch hi => ?full, fun batch hbatch => ?last, ?inputs, ?labels⟩
  case full =>
    obtain ⟨run, hrun, hsize⟩ := hrun i batch hbatch
    rw [hsize]
    exact length_of_getElem?_cut batchSize hrun (hlength ▸ hi)
  case last =>
    rw [List.getLast?_eq_getElem?] at hbatch
    obtain ⟨run, hrun, hsize⟩ := hrun _ batch hbatch
    obtain ⟨hle, hne⟩ := length_of_mem_cut batchSize visits run (List.mem_of_getElem? hrun)
    rw [hsize]
    exact ⟨List.length_pos_iff.2 hne, hle⟩
  case inputs =>
    rw [Dataset.flatMap_of_gathered (fun _ _ hb => hb.inputs) h, flatten_cut]
  case labels =>
    rw [Dataset.flatMap_of_gathered (fun _ _ hb => hb.labels) h, flatten_cut]

end Batches

/-! ## Loaders -/

namespace Loader

variable {α : Type}

/-- A loader of given rows that walks them several times over, shuffled if there is a seed. -/
def walking (dataset : Dataset α) (rows : Rows) (batchSize repetitions : Positive)
    (seed : Option Nat) : Loader α :=
  { ofRows dataset rows batchSize with repetitions, seed }

/-- A loader has no rows but those of its dataset, wherever the range it is given ends. -/
theorem within_walking (dataset : Dataset α) (rows : Rows) (batchSize repetitions : Positive)
    (seed : Option Nat) : (walking dataset rows batchSize repetitions seed).Within := by
  intro row hrow
  rw [Rows.toList, Rows.size, List.mem_range'_1] at hrow
  change min rows.start (min rows.stop dataset.size) ≤ row ∧
    row < min rows.start (min rows.stop dataset.size) +
      (min rows.stop dataset.size - min rows.start (min rows.stop dataset.size)) at hrow
  show row < dataset.size
  omega

/-- What a loader whose rows exist hands out in an epoch. -/
theorem exists_yields {l : Loader α} (within : l.Within)
    (fits : l.rows.size * l.repetitions.val ≤ orderLimit) (hsize : l.batchSize.val ≤ countLimit)
    (e : Nat) : ∃ visits b bs, l.order e = .ok visits ∧
      Walks l.rows.toList l.repetitions.val visits ∧ l.batches e = .ok b ∧ b.Yields bs ∧
      Batches.Cover l.dataset l.batchSize visits bs ∧
      bs.length = (visits.length + (l.batchSize.val - 1)) / l.batchSize.val := by
  obtain ⟨visits, horder, hwalks⟩ := walks_order fits e
  have hrows : ∀ row ∈ visits, row < l.dataset.size :=
    fun row hrow => within row (hwalks.subset hrow)
  obtain ⟨bs, hbs, hgathered⟩ := Dataset.mapM_gather_cut l.batchSize hrows
  have hlength : visits.length ≤ orderLimit := by
    rwa [hwalks.length_eq, Rows.length_toList, Nat.mul_comm]
  have hfits : Batches.Fits ⟨l.dataset, visits, l.batchSize, 0, Nat.zero_le _⟩ :=
    ⟨hlength, fun _ => by rwa [Nat.zero_add]⟩
  refine ⟨visits, _, bs, horder, hwalks, ?_, hfits.yields hbs,
    Batches.cover_of_gathered hgathered, ?_⟩
  · rw [batches, horder]
    rfl
  · rw [length_of_mapM hbs, Batches.length_cut]

/-- All ways to count the batches of a loader agree, and what it hands out are its rows in the order
    they are visited. -/
theorem batches_agree (dataset : Dataset α) (rows : Rows) {batchSize : Positive}
    (repetitions : Positive) (seed : Option Nat) (e : Nat) {n : Nat}
    (hsamples : (walking dataset rows batchSize repetitions seed).samples = .ok n)
    (hn : n ≤ orderLimit) (hsize : batchSize.val ≤ countLimit) :
    ∃ visits b bs, (walking dataset rows batchSize repetitions seed).order e = .ok visits ∧
      Walks (walking dataset rows batchSize repetitions seed).rows.toList repetitions.val visits ∧
      visits.length = n ∧ (∀ row ∈ visits, row < dataset.size) ∧
      (walking dataset rows batchSize repetitions seed).batches e = .ok b ∧ b.Yields bs ∧
      Batches.Cover dataset batchSize visits bs ∧ bs.length = n ⌈/⌉ batchSize.val ∧
      (walking dataset rows batchSize repetitions seed).batchCount = .ok bs.length := by
  have within := within_walking dataset rows batchSize repetitions seed
  have hproduct : (walking dataset rows batchSize repetitions seed).rows.size *
      repetitions.val = n := by
    rw [samples, counted] at hsamples
    split at hsamples
    · exact Except.ok.inj hsamples
    · cases hsamples
  obtain ⟨visits, b, bs, horder, hwalks, hb, hyields, hcover, hlength⟩ :=
    exists_yields within (hproduct.le.trans hn) hsize e
  have hvisits : visits.length = n := by
    rw [hwalks.length_eq, Rows.length_toList, Nat.mul_comm]
    exact hproduct
  rw [hvisits] at hlength
  refine ⟨visits, b, bs, horder, hwalks, hvisits, fun row hrow => within row (hwalks.subset hrow),
    hb, hyields, hcover, ?_, ?_⟩
  · rw [hlength, Nat.ceilDiv_eq_add_pred_div, Nat.add_sub_assoc batchSize.property]
    rfl
  · rw [batchCount, hsamples, hlength]
    rfl

/-- Two rows, of a range that goes on beyond the last one, are walked twice in batches of the
    largest size there is. -/
theorem batches_agree_clamped :
    let dataset : Dataset Nat :=
      ⟨.ofFn 3 1 fun i _ => i.val, .ofFn 3 1 fun i _ => i.val + 100, rfl⟩
    let batchSize : Positive := ⟨countLimit, by decide⟩
    let l := walking dataset ⟨1, 10⟩ batchSize ⟨2, by decide⟩ (some 7)
    l.samples = .ok 4 ∧ 4 ≤ orderLimit ∧ batchSize.val ≤ countLimit ∧
    ∃ visits b bs, l.order 3 = .ok visits ∧ Walks l.rows.toList 2 visits ∧
      visits.length = 4 ∧ (∀ row ∈ visits, row < dataset.size) ∧ l.batches 3 = .ok b ∧ b.Yields bs ∧
      Batches.Cover dataset batchSize visits bs ∧ bs.length = 4 ⌈/⌉ batchSize.val ∧
      l.batchCount = .ok bs.length := by
  intro dataset batchSize l
  have hsamples : l.samples = .ok 4 := by decide
  have hn : 4 ≤ orderLimit := by decide
  have hsize : batchSize.val ≤ countLimit := le_rfl
  exact ⟨hsamples, hn, hsize,
    batches_agree dataset ⟨1, 10⟩ ⟨2, by decide⟩ (some 7) 3 hsamples hn hsize⟩

end Loader

end Federated
