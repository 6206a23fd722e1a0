/-
  Federated.Proofs.Sampling.Walks

  What a loader has for an epoch: its rows walked as often as asked for, in whatever order each
  time, and cut into batches that have each row's inputs beside its labels.

    * `Loader.Walks` — walks over rows; `walks_order` — the order of an epoch is one.
    * `Dataset.Gathered`, `Dataset.mapM_gather` — batches have the inputs and labels of their rows.
    * `Loader.Visited`, `Loader.batches_visited` — the batches of an epoch.
-/
import Federated.Proofs.Basic
import Federated.Sampling.Loader

namespace Federated

/-! ## Walks -/

namespace Loader

/-- Rows walked `n` times over, each time in an order of its own. -/
inductive Walks (rows : List Nat) : Nat → List Nat → Prop
  | none : Walks rows 0 []
  | pass {n : Nat} {pass rest : List Nat} (perm : pass.Perm rows) (walks : Walks rows n rest) :
      Walks rows (n + 1) (pass ++ rest)

variable {rows visits : List Nat} {n : Nat}

theorem walks_nil (n : Nat) : Walks [] n [] := by
  induction n with
  | zero => exact .none
  | succ n ih => exact .pass .nil ih

theorem walks_replicate (rows : List Nat) (n : Nat) :
    Walks rows n (List.replicate n rows).flatten := by
  induction n with
  | zero => exact .none
  | succ n ih => exact .pass (.refl rows) ih

theorem walks_shuffledPasses (rows : List Nat) (g : Generator) (n : Nat) :
    Walks rows n (shuffledPasses rows g n) := by
  induction n generalizing g with
  | zero => exact .none
  | succ n ih => exact .pass (g.shuffle_perm rows.toArray).toList (ih _)

theorem Walks.length_eq (h : Walks rows n visits) : visits.length = n * rows.length := by
  induction h with
  | none => simp
  | @pass n pass rest perm walks ih =>
    rw [List.length_append, ih, perm.length_eq, Nat.succ_mul, Nat.add_comm]

/-- Each pass is a stretch of visits, as long as there are rows. -/
theorem Walks.block (h : Walks rows n visits) {j : Nat} (hj : j < n) :
    ((visits.drop (j * rows.length)).take rows.length).Perm rows := by
  induction h generalizing j with
  | none => omega
  | @pass n pass rest perm walks ih =>
    cases j with
    | zero =>
      rw [Nat.zero_mul, List.drop_zero, ← perm.length_eq, List.take_left]
      exact perm
    | succ j =>
      rw [Nat.succ_mul, Nat.add_comm, ← List.drop_drop]
      have hdrop : (pass ++ rest).drop rows.length = rest := by
        rw [← perm.length_eq, List.drop_left]
      rw [hdrop]
      exact ih (Nat.lt_of_succ_lt_succ hj)

/-- All passes together visit every row as often as there are passes. -/
theorem Walks.perm (h : Walks rows n visits) : visits.Perm (List.replicate n rows).flatten := by
  induction h with
  | none => exact .nil
  | pass perm walks ih => exact perm.append ih

/-- A walk visits no row but those it walks over. -/
theorem Walks.subset (h : Walks rows n visits) : visits ⊆ rows := by
  intro row hrow
  obtain ⟨pass, hpass, hrow⟩ := List.mem_flatten.1 (h.perm.subset hrow)
  exact List.eq_of_mem_replicate hpass ▸ hrow

variable {α : Type} {l : Loader α}

/-- The order of an epoch walks the rows of a loader as often as it is asked to. -/
theorem walks_order (fits : l.rows.size * l.repetitions.val ≤ orderLimit) (e : Nat) :
    ∃ visits, l.order e = .ok visits ∧ Walks l.rows.toList l.repetitions.val visits := by
  have hcounted : l.samples = .ok (l.rows.size * l.repetitions.val) := by
    have hlimit : orderLimit ≤ countLimit := by decide
    exact counted_of_le (Nat.le_trans fits hlimit)
  have hlimit : ¬ orderLimit < l.rows.size * l.repetitions.val := Nat.not_lt.2 fits
  unfold order
  rw [hcounted]
  by_cases hzero : l.rows.size * l.repetitions.val = 0
  · -- without rows there is nothing to walk
    have hsize : l.rows.size = 0 := by
      rcases Nat.mul_eq_zero.1 hzero with h | h
      · exact h
      · exact absurd l.repetitions.property (by simp [h])
    have hnil : l.rows.toList = [] := by
      rw [← List.length_eq_zero_iff, Rows.length_toList, hsize]
    refine ⟨[], ?_, hnil ▸ walks_nil _⟩
    simp [bind, Except.bind, pure, Except.pure, hzero]
  · cases hseed : l.seed with
    | none =>
      refine ⟨_, ?_, walks_replicate l.rows.toList l.repetitions.val⟩
      simp [bind, Except.bind, pure, Except.pure, hlimit, hzero]
    | some seed =>
      refine ⟨_, ?_, walks_shuffledPasses l.rows.toList (Generator.ofSeed (seed + e))
        l.repetitions.val⟩
      simp [bind, Except.bind, pure, Except.pure, hlimit, hzero]

end Loader

/-! ## Samples -/

namespace Matrix

variable {α : Type}

/-- The rows of a matrix. -/
def toRows (m : Matrix α) : List (List α) :=
  List.ofFn fun i : Fin m.rows => List.ofFn fun j : Fin m.cols => m.get i j

@[simp] theorem length_toRows (m : Matrix α) : m.toRows.length = m.rows := by simp [toRows]

theorem toRows_ofFn (rows cols : Nat) (f : Fin rows → Fin cols → α) :
    (ofFn rows cols f).toRows = List.ofFn fun i => List.ofFn fun j => f i j := by
  show (List.ofFn fun i : Fin rows => List.ofFn fun j : Fin cols => (ofFn rows cols f).get i j) = _
  simp only [get_ofFn]

/-- Rows that exist can be gathered, and are then there in order. -/
theorem gather_rows {m : Matrix α} {chosen : List Nat} (h : ∀ row ∈ chosen, row < m.rows) :
    ∃ g, m.gather chosen.toArray = .ok g ∧ g.rows = chosen.length ∧
      g.toRows.map some = chosen.map fun row => m.toRows[row]? := by
  have hlt : ∀ k : Fin chosen.toArray.size, chosen.toArray[k] < m.rows :=
    fun k => h _ (by simp)
  refine ⟨_, dif_pos hlt, rfl, ?_⟩
  rw [toRows_ofFn]
  refine List.ext_getElem (by simp) fun i hi hi' => ?_
  have hrow : ∀ hc : i < chosen.length, chosen[i] < m.rows := fun hc => h _ (List.getElem_mem hc)
  rw [List.length_map] at hi'
  simp [toRows, hrow hi']

end Matrix

/-- The samples of a batch: each row of inputs with the row of labels beside it. -/
def Batch.samples {α : Type} (b : Batch α) : List (List α × List α) :=
  b.inputs.toRows.zip b.labels.toRows

namespace Dataset

variable {α : Type}

/-- The samples of a dataset, in order. -/
def samples (d : Dataset α) : List (List α × List α) := d.inputs.toRows.zip d.labels.toRows

@[simp] theorem length_samples (d : Dataset α) : d.samples.length = d.size := by
  simp [samples, size, d.rows_eq]

/-- What is read entry by entry off two lists is read off the pairs of their entries. -/
theorem map_some_zip {β γ : Type} {xs as : List β} {ys bs : List γ} {chosen : List Nat}
    (hx : xs.map some = chosen.map fun i => as[i]?)
    (hy : ys.map some = chosen.map fun i => bs[i]?) :
    (xs.zip ys).map some = chosen.map fun i => (as.zip bs)[i]? := by
  induction chosen generalizing xs ys with
  | nil =>
    rw [List.map_nil, List.map_eq_nil_iff] at hx
    rw [hx]
    rfl
  | cons i chosen ih =>
    obtain ⟨x, xs, rfl⟩ := List.exists_cons_of_ne_nil (l := xs) (by rintro rfl; cases hx)
    obtain ⟨y, ys, rfl⟩ := List.exists_cons_of_ne_nil (l := ys) (by rintro rfl; cases hy)
    obtain ⟨hx, hxs⟩ := List.cons_eq_cons.1 hx
    obtain ⟨hy, hys⟩ := List.cons_eq_cons.1 hy
    have hpair : (as.zip bs)[i]? = some (x, y) :=
      List.getElem?_zip_eq_some.2 ⟨hx.symm, hy.symm⟩
    rw [List.zip_cons_cons, List.map_cons, List.map_cons, ih hxs hys, hpair]

/-- A batch that has the inputs and the labels of chosen rows, in order. -/
structure Gathered (d : Dataset α) (chosen : List Nat) (b : Batch α) : Prop where
  inputs : b.inputs.toRows.map some = chosen.map fun row => d.inputs.toRows[row]?
  labels : b.labels.toRows.map some = chosen.map fun row => d.labels.toRows[row]?

variable {d : Dataset α} {chosen : List Nat} {runs : List (List Nat)} {b : Batch α}
  {bs : List (Batch α)}

theorem Gathered.size_eq (h : d.Gathered chosen b) : b.size = chosen.length := by
  simpa [Batch.size] using congrArg List.length h.inputs

theorem Gathered.samples_eq (h : d.Gathered chosen b) :
    b.samples.map some = chosen.map fun row => d.samples[row]? := map_some_zip h.inputs h.labels

/-- Rows that exist can be gathered into a batch. -/
theorem gather_rows (h : ∀ row ∈ chosen, row < d.size) :
    ∃ b, d.gather chosen.toArray = .ok b ∧ d.Gathered chosen b := by
  obtain ⟨inputs, hinputs, -, hx⟩ := Matrix.gather_rows (m := d.inputs) h
  obtain ⟨labels, hlabels, -, hy⟩ := Matrix.gather_rows (m := d.labels)
    fun row hrow => Nat.lt_of_lt_of_eq (h row hrow) d.rows_eq
  refine ⟨⟨inputs, labels⟩, ?_, hx, hy⟩
  rw [gather, hinputs, hlabels]
  rfl

/-- Runs of rows that exist can be gathered one behind the other. -/
theorem mapM_gather (h : ∀ run ∈ runs, ∀ row ∈ run, row < d.size) :
    ∃ bs, runs.mapM (fun rows => d.gather rows.toArray) = .ok bs ∧
      List.Forall₂ d.Gathered runs bs := by
  induction runs with
  | nil => exact ⟨[], rfl, .nil⟩
  | cons run runs ih =>
    obtain ⟨hrun, hruns⟩ := List.forall_mem_cons.1 h
    obtain ⟨b, hb, hgathered⟩ := gather_rows hrun
    obtain ⟨bs, hbs, hrest⟩ := ih hruns
    refine ⟨b :: bs, ?_, .cons hgathered hrest⟩
    rw [List.mapM_cons, hb, hbs]
    rfl

/-- Rows that exist can be gathered run by run. -/
theorem mapM_gather_cut (n : Positive) (h : ∀ row ∈ chosen, row < d.size) :
    ∃ bs, (Batches.cut n chosen).mapM (fun rows => d.gather rows.toArray) = .ok bs ∧
      List.Forall₂ d.Gathered (Batches.cut n chosen) bs := by
  refine mapM_gather fun run hrun row hrow => h row ?_
  rw [← Batches.flatten_cut n chosen]
  exact List.mem_flatten_of_mem hrun hrow

theorem sizes_of_gathered (h : List.Forall₂ d.Gathered runs bs) :
    bs.map Batch.size = runs.map List.length := by
  induction h with
  | nil => rfl
  | cons hgathered _ ih => rw [List.map_cons, List.map_cons, hgathered.size_eq, ih]

/-- What each batch has of its rows, all batches have of all rows. -/
theorem flatMap_of_gathered {β : Type} {f : Batch α → List β} {entries : List β}
    (hf : ∀ chosen b, d.Gathered chosen b → (f b).map some = chosen.map fun row => entries[row]?)
    (h : List.Forall₂ d.Gathered runs bs) :
    (bs.flatMap f).map some = runs.flatten.map fun row => entries[row]? := by
  induction h with
  | nil => rfl
  | cons hgathered _ ih =>
    rw [List.flatMap_cons, List.map_append, hf _ _ hgathered, ih, List.flatten_cons,
      List.map_append]

end Dataset

/-! ## The batches of an epoch -/

namespace Loader

variable {α : Type} {l : Loader α}

/-- A loader whose rows are those of its dataset. -/
def Within (l : Loader α) : Prop := ∀ row ∈ l.rows.toList, row < l.dataset.size

/-- Batches with the samples of the rows that are visited. These are cut into as many blocks as the
    loader has repetitions, each block with all rows of the loader. -/
structure Visited (l : Loader α) (visits : List Nat) (bs : List (Batch α)) : Prop where
  length : visits.length = l.repetitions.val * l.rows.size
  blocks : ∀ j, j < l.repetitions.val →
    ((visits.drop (j * l.rows.size)).take l.rows.size).Perm l.rows.toList
  samples : (bs.flatMap Batch.samples).map some = visits.map fun row => l.dataset.samples[row]?
  total : (bs.map Batch.size).sum = visits.length
  sizes : ∀ b ∈ bs, 0 < b.size ∧ b.size ≤ l.batchSize.val

/-- Only a loader without rows has no batches. -/
theorem Visited.nil_iff {visits : List Nat} {bs : List (Batch α)} (h : l.Visited visits bs) :
    bs = [] ↔ l.rows.size = 0 := by
  have hlength := h.total.trans h.length
  constructor
  · rintro rfl
    rcases Nat.mul_eq_zero.1 hlength.symm with hnone | hsize
    · exact absurd l.repetitions.property (by simp [hnone])
    · exact hsize
  · intro hsize
    rw [hsize, Nat.mul_zero, List.sum_eq_zero_iff_forall_eq_nat] at hlength
    refine List.eq_nil_iff_forall_not_mem.2 fun b hb => ?_
    have hzero := hlength b.size (List.mem_map_of_mem hb)
    exact absurd (h.sizes b hb).1 (by simp [hzero])

/-- Every epoch of a loader has batches with the samples of its rows. -/
theorem batches_visited (within : l.Within)
    (fits : l.rows.size * l.repetitions.val ≤ orderLimit) (e : Nat) :
    ∃ visits bs, (do (← l.batches e).toList) = .ok bs ∧
      Walks l.rows.toList l.repetitions.val visits ∧ l.Visited visits bs := by
  obtain ⟨visits, horder, hwalks⟩ := walks_order fits e
  have hrows : ∀ row ∈ visits, row < l.dataset.size :=
    fun row hrow => within row (hwalks.subset hrow)
  obtain ⟨bs, hbs, hgathered⟩ := Dataset.mapM_gather_cut l.batchSize hrows
  have hsizes := Dataset.sizes_of_gathered hgathered
  have hsamples := Dataset.flatMap_of_gathered (fun _ _ h => h.samples_eq) hgathered
  rw [Batches.flatten_cut] at hsamples
  refine ⟨visits, bs, ?_, hwalks, ?_, fun j hj => ?_, hsamples, ?_, fun b hb => ?_⟩
  · rw [batches, horder]
    exact hbs
  · rw [hwalks.length_eq, Rows.length_toList]
  · have hblock := hwalks.block hj
    rwa [Rows.length_toList] at hblock
  · rw [hsizes, ← List.length_flatten, Batches.flatten_cut]
  · obtain ⟨run, hrun, hlength⟩ := List.mem_map.1 (hsizes ▸ List.mem_map_of_mem hb)
    obtain ⟨hle, hne⟩ := Batches.length_of_mem_cut l.batchSize visits run hrun
    rw [← hlength]
    exact ⟨List.length_pos_iff.2 hne, hle⟩

end Loader

end Federated
