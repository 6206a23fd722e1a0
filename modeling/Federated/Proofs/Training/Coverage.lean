/-
  Federated.Proofs.Training.Coverage

  The loaders of a trainer lose no row and double none: in every epoch their batches have each
  sample of the dataset as often as there are repetitions, and always on the same worker.

    * `Loader.Visits`, `Loader.visits_samples` — what all loaders together visit in an epoch.
    * `Trainer.loadersOf`, `Trainer.rows_loadersOf` — the loaders, one per worker, and their rows.
    * `Trainer.covers_of_visits` — what they visit covers the dataset.
    * `Trainer.loaders_cover` — what the loaders have for every epoch, and when it is refused.
-/
import Federated.Proofs.Sampling.Shard
import Federated.Proofs.Sampling.Walks
import Federated.Proofs.Training.Opening

namespace Federated

/-! ## Several loaders -/

namespace Loader

variable {α : Type}

/-- The batches that loaders have for an epoch, each with the rows that it visits. -/
abbrev Visits (loaders : List (Loader α)) (batches : List (List (Batch α))) : Prop :=
  List.Forall₂ (fun l bs => ∃ visits, Walks l.rows.toList l.repetitions.val visits ∧
    l.Visited visits bs) loaders batches

/-- All batches of an epoch together have each sample as often as there are repetitions. -/
theorem visits_samples (dataset : Dataset α) (r : Nat) {loaders : List (Loader α)}
    {batches : List (List (Batch α))} (h : Visits loaders batches)
    (hloaders : ∀ l ∈ loaders, l.dataset = dataset ∧ l.repetitions.val = r) :
    ((batches.flatten.flatMap Batch.samples).map some).Perm
      ((List.replicate r (loaders.flatMap fun l => l.rows.toList)).flatten.map
        fun row => dataset.samples[row]?) := by
  induction h with
  | nil => simp
  | @cons l bs loaders batches hvisits _ ih =>
    obtain ⟨⟨rfl, rfl⟩, hrest⟩ := List.forall_mem_cons.1 hloaders
    obtain ⟨visits, hwalks, hvisited⟩ := hvisits
    rw [List.flatten_cons, List.flatMap_append, List.map_append, List.flatMap_cons]
    have hhead := hwalks.perm.map fun row => l.dataset.samples[row]?
    rw [← hvisited.samples] at hhead
    refine (hhead.append (ih hrest)).trans ?_
    rw [← List.map_append]
    exact (replicate_append_perm _ _ _).symm.map _

end Loader

namespace Dataset

variable {α : Type}

/-- All rows, as often as asked for, are all samples as often. -/
theorem map_samples_range (d : Dataset α) (r : Nat) :
    (List.replicate r (List.range d.size)).flatten.map (fun row => d.samples[row]?) =
      (List.replicate r d.samples).flatten.map some := by
  have hall : (List.range d.size).map (fun row => d.samples[row]?) = d.samples.map some := by
    refine List.ext_getElem (by simp) fun i hi hi' => ?_
    simp
  rw [List.map_flatten, List.map_flatten, List.map_replicate, List.map_replicate, hall]

end Dataset

namespace Trainer

/-! ## The loaders of a trainer -/

/-- The loader of a worker. -/
def loaderAt (t : Trainer) (dataset : Dataset Float32) (workers index : Nat) : Loader Float32 :=
  ⟨dataset, Rows.between dataset.size workers index, t.config.batchSize, t.repetitions,
    t.config.seed.map fun seed => (seed + index) % Nat.pow 2 64⟩

/-- A shard within the dataset needs no clamping. -/
theorem shardLoader_eq (t : Trainer) (dataset : Dataset Float32) {workers index : Nat}
    (h : index < workers) :
    t.shardLoader dataset workers index = .ok (t.loaderAt dataset workers index) := by
  have hstop := Rows.boundary_le dataset.size (Nat.succ_le_of_lt h)
  have hstart := Rows.boundary_le_succ dataset.size workers index
  have hrows : Loader.ofRows dataset (Rows.between dataset.size workers index) t.config.batchSize =
      ⟨dataset, Rows.between dataset.size workers index, t.config.batchSize, ⟨1, Nat.one_pos⟩,
        none⟩ := by
    simp only [Loader.ofRows, Rows.between, Nat.min_eq_left hstop, Nat.min_eq_left hstart]
  rw [shardLoader, Rows.shard_eq dataset.size h, loaderAt]
  show Except.ok _ = Except.ok _
  rw [hrows]
  cases t.config.seed <;> rfl

/-- The loaders of all workers. -/
def loadersOf (t : Trainer) (dataset : Dataset Float32) (workers : Nat) : List (Loader Float32) :=
  (List.range workers).map (t.loaderAt dataset workers)

/-- The loaders, one per worker, unless there are too many to hold. -/
theorem shardLoaders_eq (t : Trainer) (dataset : Dataset Float32) {workers : Nat}
    (fits : workers ≤ loaderLimit) :
    t.shardLoaders dataset workers = .ok (t.loadersOf dataset workers) := by
  rw [shardLoaders, if_neg (Nat.not_lt.2 fits)]
  exact mapM_eq_ok fun index h => t.shardLoader_eq dataset (List.mem_range.1 h)

theorem length_loadersOf (t : Trainer) (dataset : Dataset Float32) (workers : Nat) :
    (t.loadersOf dataset workers).length = workers := by
  simp [loadersOf]

/-- The rows of all loaders, one behind the other, are those of the dataset. -/
theorem rows_loadersOf (t : Trainer) (dataset : Dataset Float32) {workers : Nat}
    (hworkers : 0 < workers) :
    (t.loadersOf dataset workers).flatMap (fun l => l.rows.toList) = List.range dataset.size := by
  rw [loadersOf, List.flatMap_map]
  refine (Rows.flatMap_between dataset.size workers workers).trans ?_
  rw [Rows.boundary_self hworkers]

/-- All loaders have the dataset and the settings of the trainer. -/
theorem of_mem_loadersOf {t : Trainer} {dataset : Dataset Float32} {workers : Nat}
    {l : Loader Float32} (h : l ∈ t.loadersOf dataset workers) :
    l.dataset = dataset ∧ l.batchSize = t.config.batchSize ∧ l.repetitions = t.repetitions := by
  obtain ⟨index, -, rfl⟩ := List.mem_map.1 h
  exact ⟨rfl, rfl, rfl⟩

/-- The loader of a worker stays within the dataset. -/
theorem within_loaderAt (t : Trainer) (dataset : Dataset Float32) {workers index : Nat}
    (h : index < workers) : (t.loaderAt dataset workers index).Within := by
  intro row hrow
  have hstop := Rows.boundary_le dataset.size (Nat.succ_le_of_lt h)
  have hstart := Rows.boundary_le_succ dataset.size workers index
  have hlt : row < Rows.boundary dataset.size workers (index + 1) := by
    simp only [loaderAt, Rows.toList, Rows.size, Rows.between, List.mem_range'_1] at hrow
    omega
  exact Nat.lt_of_lt_of_le hlt hstop

/-- All loaders have batches for every epoch, if the samples of each can be held. -/
theorem exists_visits {loaders : List (Loader Float32)}
    (hloaders : ∀ l ∈ loaders, l.Within ∧ l.rows.size * l.repetitions.val ≤ Loader.orderLimit)
    (e : Nat) : ∃ batches, shards loaders e = .ok batches ∧ Loader.Visits loaders batches := by
  induction loaders with
  | nil => exact ⟨[], rfl, .nil⟩
  | cons l loaders ih =>
    obtain ⟨⟨within, fits⟩, hrest⟩ := List.forall_mem_cons.1 hloaders
    obtain ⟨visits, bs, hbs, hwalks, hvisited⟩ := Loader.batches_visited within fits e
    obtain ⟨batches, hbatches, hvisits⟩ := ih hrest
    refine ⟨bs :: batches, ?_, .cons ⟨visits, hwalks, hvisited⟩ hvisits⟩
    rw [shards] at hbatches
    rw [shards, List.mapM_cons, hbs, hbatches]
    rfl

/-- A worker has no batches exactly if it is beyond the number of rows. -/
theorem nil_iff_of_visits {t : Trainer} {dataset : Dataset Float32} {workers : Nat}
    {batches : List (List (Batch Float32))}
    (h : Loader.Visits (t.loadersOf dataset workers) batches) {i : Nat}
    {bs : List (Batch Float32)} (hbs : batches[i]? = some bs) :
    i < workers ∧ (bs = [] ↔ dataset.size ≤ i) := by
  obtain ⟨hlt, rfl⟩ := List.getElem?_eq_some_iff.1 hbs
  have hi : i < workers := by
    rw [← h.length_eq, length_loadersOf] at hlt
    exact hlt
  obtain ⟨visits, -, hvisited⟩ := h.get (by simpa [loadersOf] using hi) hlt
  refine ⟨hi, ?_⟩
  have hnil := hvisited.nil_iff
  simp only [loadersOf, List.get_eq_getElem, List.getElem_map, List.getElem_range, loaderAt] at hnil
  rw [hnil, Rows.size_between_eq_zero (by omega) hi]

/-- An epoch of such batches is refused exactly if there are more workers than rows, for the first
    worker without. -/
theorem refused_of_visits {t : Trainer} {dataset : Dataset Float32} {workers : Nat}
    (hworkers : 0 < workers) {batches : List (List (Batch Float32))}
    (h : Loader.Visits (t.loadersOf dataset workers) batches)
    {config : FederatedConfig} {clock : Clock} {model : Affine Float32} {bank : Bank Float32}
    {cause : ConfigError Float32} :
    Epoch.start config clock model batches bank = .error cause ↔
      dataset.size < workers ∧ cause = .emptyShard ⟨dataset.size⟩ := by
  have hlength : batches.length = workers := by
    rw [← h.length_eq, length_loadersOf]
  have hne : batches ≠ [] := by
    rw [← List.length_pos_iff, hlength]
    exact hworkers
  rw [Epoch.start_eq_error_iff hne]
  constructor
  · rintro ⟨w, rfl, hempty, hfirst⟩
    obtain ⟨hw, hnil⟩ := nil_iff_of_visits h hempty
    have hle := hnil.1 rfl
    have hlt : dataset.size < workers := by omega
    -- the worker behind the last row has no batches either, so no earlier one is named
    have hsize : w.index ≤ dataset.size := by
      by_contra hlate
      have hbs : batches[dataset.size]? = some batches[dataset.size] :=
        List.getElem?_eq_getElem (by omega)
      exact hfirst _ _ (by omega) hbs ((nil_iff_of_visits h hbs).2.2 (Nat.le_refl _))
    exact ⟨hlt, congrArg (fun i => ConfigError.emptyShard ⟨i⟩) (by omega)⟩
  · rintro ⟨hlt, rfl⟩
    have hbs : batches[dataset.size]? = some batches[dataset.size] :=
      List.getElem?_eq_getElem (by omega)
    refine ⟨⟨dataset.size⟩, rfl, ?_, fun j shard hj hshard hnil => ?_⟩
    · exact hbs.trans (congrArg _ ((nil_iff_of_visits h hbs).2.2 (Nat.le_refl _)))
    · exact absurd hj (Nat.not_lt.2 ((nil_iff_of_visits h hshard).2.1 hnil))

/-! ## Epochs -/

/-- What loaders have for an epoch. Each worker visits its own rows, in as many passes as there are
    repetitions; all batches together have each sample as often; and an epoch over these batches is
    refused exactly if there are more workers than rows, for the first worker without. -/
structure Covers (dataset : Dataset Float32) (r : Nat) (loaders : List (Loader Float32)) (e : Nat)
    (batches : List (List (Batch Float32))) : Prop where
  loaded : shards loaders e = .ok batches
  visits : List.Forall₂ (fun l bs => ∃ visits, l.Visited visits bs) loaders batches
  samples : (batches.flatten.flatMap Batch.samples).Perm (List.replicate r dataset.samples).flatten
  refused : ∀ config model bank board left cause,
    Epoch.Leaves config clock model batches bank board left →
      (left.result = .error (.error (.config cause)) ↔
        dataset.size < loaders.length ∧ cause = .emptyShard ⟨dataset.size⟩)

/-- What all loaders of a trainer visit covers the dataset. -/
theorem covers_of_visits {t : Trainer} {dataset : Dataset Float32} {workers : Nat}
    (hworkers : 0 < workers) {e : Nat} {batches : List (List (Batch Float32))}
    (loaded : shards (t.loadersOf dataset workers) e = .ok batches)
    (h : Loader.Visits (t.loadersOf dataset workers) batches) :
    Covers dataset t.repetitions.val (t.loadersOf dataset workers) e batches := by
  refine ⟨loaded, h.imp fun l bs ⟨visits, _, hvisited⟩ => ⟨visits, hvisited⟩, ?samples,
    fun config model bank board left cause hleft => ?refused⟩
  case samples =>
    have hsame : ∀ l ∈ t.loadersOf dataset workers,
        l.dataset = dataset ∧ l.repetitions.val = t.repetitions.val := by
      intro l hl
      obtain ⟨hdataset, -, hrepetitions⟩ := of_mem_loadersOf hl
      exact ⟨hdataset, congrArg Subtype.val hrepetitions⟩
    have hperm := Loader.visits_samples dataset t.repetitions.val h hsame
    rw [t.rows_loadersOf dataset hworkers, dataset.map_samples_range] at hperm
    exact (List.map_perm_map_iff (Option.some_injective _)).1 hperm
  case refused =>
    rw [hleft.refused_iff, refused_of_visits hworkers h, length_loadersOf]

/-- The loaders of a trainer lose no row and double none. Their rows, one loader behind the other,
    are all rows of the dataset, so each row is with one worker, in every epoch the same; and if the
    samples of each loader can be held, each of them walks its rows in every epoch as often as there
    are repetitions, in batches that have each row's inputs beside its labels. Only so many loaders
    that no list can hold them are none. -/
theorem loaders_cover (t : Trainer) (dataset : Dataset Float32) {workers : Nat}
    (hworkers : 0 < workers) :
    (loaderLimit < workers → t.shardLoaders dataset workers = .error .overflow) ∧
    (workers ≤ loaderLimit →
      ∃ loaders, t.shardLoaders dataset workers = .ok loaders ∧ loaders.length = workers ∧
        (∀ l ∈ loaders, l.dataset = dataset ∧ l.batchSize = t.config.batchSize ∧
          l.repetitions = t.repetitions) ∧
        loaders.flatMap (fun l => l.rows.toList) = List.range dataset.size ∧
        ((∀ l ∈ loaders, l.rows.size * l.repetitions.val ≤ Loader.orderLimit) →
          ∀ e, ∃ batches, Covers dataset t.repetitions.val loaders e batches)) := by
  refine ⟨fun hover => if_pos hover, fun fits => ⟨_, t.shardLoaders_eq dataset fits,
    t.length_loadersOf dataset workers, fun l hl => of_mem_loadersOf hl,
    t.rows_loadersOf dataset hworkers, fun hfits e => ?_⟩⟩
  have hwithin : ∀ l ∈ t.loadersOf dataset workers,
      l.Within ∧ l.rows.size * l.repetitions.val ≤ Loader.orderLimit := by
    intro l hl
    refine ⟨?_, hfits l hl⟩
    obtain ⟨index, hindex, rfl⟩ := List.mem_map.1 hl
    exact t.within_loaderAt dataset (List.mem_range.1 hindex)
  obtain ⟨batches, hbatches, hvisits⟩ := exists_visits hwithin e
  exact ⟨batches, covers_of_visits hworkers hbatches hvisits⟩

/-- Three rows, walked twice over in an order of their own and in batches of two: for two workers,
    and for four, of which the last has none. -/
theorem loaders_cover_three :
    let config : TrainingConfig :=
      { epochs := ⟨2, by decide⟩, batchSize := ⟨2, by decide⟩, seed := some 7,
        optimizer := .descent Scalar.one, schedule := none, federated := { repetitions := 2 } }
    let t : Trainer :=
      ⟨config, ⟨1, by decide⟩, none, Bank.ofSpec config.optimizer, Board.empty⟩
    let column : Matrix Float32 := Matrix.ofFn 3 1 fun i _ => Scalar.ofCount i
    let dataset : Dataset Float32 := ⟨column, column, rfl⟩
    ∀ workers ∈ [2, 4], ∃ loaders, t.shardLoaders dataset workers = .ok loaders ∧
      ∀ e, ∃ batches, Covers dataset 2 loaders e batches := by
  intro config t column dataset workers hmem
  have hbound : 0 < workers ∧ workers ≤ 4 := by
    simp only [List.mem_cons, List.not_mem_nil, or_false] at hmem
    omega
  have hfits : workers ≤ loaderLimit := hbound.2.trans (by decide)
  obtain ⟨loaders, hloaders, -, hsame, hrows, hall⟩ :=
    (t.loaders_cover dataset hbound.1).2 hfits
  refine ⟨loaders, hloaders, hall fun l hl => ?_⟩
  -- no loader has more rows than there are
  have hsize : l.rows.size ≤ 3 := by
    have hmem : l.rows.toList ∈ loaders.map fun l => l.rows.toList := List.mem_map_of_mem hl
    have hlength := (List.sublist_flatten_of_mem hmem).length_le
    rw [← List.flatMap_def, hrows, Rows.length_toList] at hlength
    exact hlength.trans_eq List.length_range
  have hrepetitions : l.repetitions.val = 2 := congrArg Subtype.val (hsame l hl).2.2
  have hlimit : 6 ≤ Loader.orderLimit := by decide
  rw [hrepetitions]
  omega

end Trainer

end Federated
