/-
  Federated.Proofs.Barrier.Truthful

  What is reported of a worker is true of it, if what the worker has told is: how many batches it
  has, how many of them it has at least trained on, and whether it has finished.

    * `Report.Truthful`, `Message.Truthful` — what a report and a message may say.
    * `Record.truthful_absorb` — one record and one message.
    * `Coordinator.Truthful`, `Coordinator.Grows` — all records and the board beside them, and how
      they go on.
    * `Coordinator.Tick.advance`, `Coordinator.advance_of_way` — changes keep them truthful, and
      never take progress back.
-/
import Federated.Proofs.Barrier.Board
import Federated.Proofs.Barrier.Views

namespace Federated

variable {α τ : Type}

/-! ## One worker -/

/-- What may be reported of a worker that has trained on `trained` of its `total` batches. -/
structure Report.Truthful (total trained : Nat) (r : Report α) : Prop where
  total_eq : r.total = total
  le_total : r.done ≤ total
  le_trained : r.done ≤ trained
  done_eq : r.finished = true → r.done = total
  final_iff : r.finalLoss?.isSome = true ↔ r.finished = true

theorem Report.Truthful.mono {total trained trained' : Nat} {r : Report α}
    (h : r.Truthful total trained) (hle : trained ≤ trained') : r.Truthful total trained' :=
  ⟨h.total_eq, h.le_total, h.le_trained.trans hle, h.done_eq, h.final_iff⟩

/-- What such a worker may have told. -/
def Message.Truthful (total trained : Nat) : Message α τ → Prop
  | .progress _ batch count => count = total ∧ batch ≤ total ∧ batch ≤ trained
  | .submit _ batch _ _ _ => batch ≤ total ∧ batch ≤ trained
  | .finish _ _ _ count => count = total ∧ total ≤ trained

theorem Message.Truthful.mono {total trained trained' : Nat} {m : Message α τ}
    (h : m.Truthful total trained) (hle : trained ≤ trained') : m.Truthful total trained' := by
  cases m with
  | progress w batch count => exact ⟨h.1, h.2.1, h.2.2.trans hle⟩
  | submit w batch model loss ticket => exact ⟨h.1, h.2.trans hle⟩
  | finish w model loss count => exact ⟨h.1, h.2.trans hle⟩

namespace Record

variable {total trained : Nat} {w : WorkerId} {r : Record α τ} {m : Message α τ}

/-- A record that shows a truthful report. -/
abbrev Truthful (total trained : Nat) (w : WorkerId) (r : Record α τ) : Prop :=
  (Barrier.reportOf w r).Truthful total trained

/-- A record that takes in what is true shows what is true, and no less progress than before. -/
theorem truthful_absorb (h : r.Truthful total trained w) (hm : m.Truthful total trained) :
    (r.absorb m).Truthful total trained w ∧ r.done ≤ (r.absorb m).done := by
  obtain ⟨htotal, hle, htrained, hdone, hfinal⟩ := h
  change r.done ≤ total at hle
  change r.done ≤ trained at htrained
  cases m with
  | progress _ batch count =>
    obtain ⟨hcount, hbatch, hlate⟩ := hm
    refine ⟨⟨hcount, Nat.max_le.2 ⟨hbatch, hle⟩, Nat.max_le.2 ⟨hlate, htrained⟩, fun hf => ?_,
      hfinal⟩, Nat.le_max_right _ _⟩
    -- behind the end no announcement tells of more batches than there are
    have hall : r.done = total := hdone hf
    show max batch r.done = total
    omega
  | submit _ batch model loss ticket =>
    obtain ⟨hbatch, hlate⟩ := hm
    by_cases hf : r.status.isFinished = true
    · rw [absorb, if_pos hf]
      exact ⟨⟨htotal, hle, htrained, hdone, hfinal⟩, le_rfl⟩
    · rw [absorb, if_neg hf]
      refine ⟨⟨htotal, Nat.max_le.2 ⟨hbatch, hle⟩, Nat.max_le.2 ⟨hlate, htrained⟩,
        (absurd · Bool.false_ne_true), ?_⟩, Nat.le_max_right _ _⟩
      -- what is recorded at a meeting is no final loss
      have hnone : ¬ (r.losses.find? .final).isSome = true := mt hfinal.1 hf
      show ((r.losses.insert (.batch batch) loss).find? .final).isSome = true ↔ false = true
      rw [Dict.find?_insert, if_neg (by simp)]
      simp [hnone]
  | finish _ model loss count =>
    obtain ⟨rfl, hlate⟩ := hm
    refine ⟨⟨rfl, le_rfl, hlate, fun _ => rfl, ?_⟩, hle⟩
    show ((r.losses.insert .final loss).find? .final).isSome = true ↔ true = true
    rw [Dict.find?_insert, if_pos rfl]
    simp

@[simp] theorem done_release (r : Record α τ) : r.release.done = r.done := by
  unfold release
  split <;> rfl

theorem truthful_release (h : r.Truthful total trained w) : r.release.Truthful total trained w := by
  unfold release
  split
  · next hwaits =>
    -- a worker that waits has not finished
    have hf : r.status.isFinished = false := by
      cases hs : r.status <;> simp_all [Status.isWaiting, Status.isFinished]
    obtain ⟨htotal, hle, htrained, hdone, hfinal⟩ := h
    refine ⟨htotal, hle, htrained, (absurd · Bool.false_ne_true), ?_⟩
    rw [Barrier.reportOf, hf] at hfinal
    exact hfinal
  · exact h

/-- So does a call of the barrier that is a message of this worker, or no message. -/
theorem truthful_of_calledOn {call : Barrier.Call α τ} {r' : Record α τ}
    (h : r.Truthful total trained w) (hcall : Barrier.CalledOn w r call r')
    (hm : ∀ m, call = .message m → m.worker = w → m.Truthful total trained) :
    r'.Truthful total trained w ∧ r.done ≤ r'.done := by
  cases hcall with
  | apart => exact ⟨h, le_rfl⟩
  | own m hw => exact truthful_absorb h (hm m rfl hw)
  | released weights scope => exact ⟨truthful_release h, (done_release r).ge⟩

end Record

/-! ## All workers -/

/-- Reports of the same workers, none of which shows less progress than before. -/
def NoLess (rs later : List (Report α)) : Prop :=
  List.Forall₂ (fun r now => r.done ≤ now.done) rs later

theorem NoLess.refl (rs : List (Report α)) : NoLess rs rs := List.forall₂_same.2 fun _ _ => le_rfl

theorem NoLess.trans {rs now later : List (Report α)} (h : NoLess rs now) (h' : NoLess now later) :
    NoLess rs later := by
  induction h generalizing later with
  | nil => exact h'
  | cons hle _ ih =>
    cases h' with
    | cons hle' hrest => exact .cons (hle.trans hle') (ih hrest)

theorem noLess_of_getElem? {rs later : List (Report α)} (hlength : rs.length = later.length)
    (h : ∀ (i : Nat) (r now : Report α), rs[i]? = some r → later[i]? = some now →
      r.done ≤ now.done) : NoLess rs later := by
  refine List.forall₂_iff_get.2 ⟨hlength, fun i hi hi' => h i _ _ ?_ ?_⟩
  · exact List.getElem?_eq_getElem hi
  · exact List.getElem?_eq_getElem hi'

namespace Coordinator

variable {total trained trained' : WorkerId → Nat} {c c' : Coordinator α τ}
  {ms : List (Message α τ)}

/-- What is reported of every worker is true, at the barrier and on the board, and the barrier is
    never behind the board. -/
structure Truthful (total trained : WorkerId → Nat) (c : Coordinator α τ) : Prop where
  size : c.board.size = c.barrier.size
  reported : ∀ w r, c.barrier.report? w = some r → r.Truthful (total w) (trained w)
  shown : ∀ w r, c.board.find? w = some r → r.worker = w ∧ r.Truthful (total w) (trained w)
  behind : ∀ w r now, c.board.find? w = some r → c.barrier.report? w = some now → r.done ≤ now.done

theorem Truthful.mono (h : c.Truthful total trained) (hle : ∀ w, trained w ≤ trained' w) :
    c.Truthful total trained' :=
  ⟨h.size, fun w r hr => (h.reported w r hr).mono (hle w),
    fun w r hr => ⟨(h.shown w r hr).1, (h.shown w r hr).2.mono (hle w)⟩, h.behind⟩

/-- A later state in which neither the barrier nor the board shows less progress. -/
structure Grows (c c' : Coordinator α τ) : Prop where
  reports : NoLess c.barrier.reports c'.barrier.reports
  board : NoLess c.board.toList c'.board.toList

theorem Grows.trans {c'' : Coordinator α τ} (h : c.Grows c') (h' : c'.Grows c'') : c.Grows c'' :=
  ⟨h.reports.trans h'.reports, h.board.trans h'.board⟩

/-- A state that is truthful and shows no less progress than the one before. -/
structure Advance (total trained : WorkerId → Nat) (c c' : Coordinator α τ) : Prop where
  truthful : c'.Truthful total trained
  grows : c.Grows c'

theorem Advance.mono (h : Advance total trained c c') (hle : ∀ w, trained w ≤ trained' w) :
    Advance total trained' c c' := ⟨h.truthful.mono hle, h.grows⟩

theorem advance_write (h : c.Truthful total trained) {call : Barrier.Call α τ} {b : Barrier α τ}
    {released : List WorkerId} (called : c.barrier.Called call b released)
    (hms : ∀ m, call = .message m → m.Truthful (total m.worker) (trained m.worker)) :
    Advance total trained c { c with barrier := b } := by
  -- what a worker's report becomes
  have hreport : ∀ w now, b.report? w = some now → ∃ r, c.barrier.report? w = some r ∧
      now.Truthful (total w) (trained w) ∧ r.done ≤ now.done := by
    intro w now hnow
    obtain ⟨rec', hrec', rfl⟩ := Option.map_eq_some_iff.1 hnow
    obtain ⟨f, hf, hcalled⟩ := called.record? w
    rw [hf] at hrec'
    obtain ⟨rec, hrec, rfl⟩ := Option.map_eq_some_iff.1 hrec'
    have hr : c.barrier.report? w = some (Barrier.reportOf w rec) := by
      rw [Barrier.report?, hrec]
      rfl
    have hm : ∀ m, call = .message m → m.worker = w → m.Truthful (total w) (trained w) := by
      rintro m hcall rfl
      exact hms m hcall
    exact ⟨_, hr, Record.truthful_of_calledOn (h.reported w _ hr) (hcalled rec) hm⟩
  have hsize : b.size = c.barrier.size := called.since.size
  refine ⟨⟨h.size.trans hsize.symm, fun w now hnow => ?_, h.shown, fun w r now hr hnow => ?_⟩,
    ⟨?reports, .refl _⟩⟩
  · obtain ⟨r, -, htruthful, -⟩ := hreport w now hnow
    exact htruthful
  · obtain ⟨between, hbetween, -, hle⟩ := hreport w now hnow
    exact (h.behind w r between hr hbetween).trans hle
  case reports =>
    refine noLess_of_getElem? ?_ fun i r now hr hnow => ?_
    · rw [Barrier.length_reports, Barrier.length_reports, hsize]
    · rw [Barrier.getElem?_reports] at hr hnow
      obtain ⟨before, hbefore, -, hle⟩ := hreport ⟨i⟩ now hnow
      cases hr.symm.trans hbefore
      exact hle

theorem advance_post (h : c.Truthful total trained) (w : WorkerId) :
    Advance total trained c (c.post w) := by
  cases hr : c.barrier.report? w with
  | none =>
    rw [post_of_none hr]
    exact ⟨h, ⟨.refl _, .refl _⟩⟩
  | some r =>
    obtain ⟨hsize, hfind⟩ := board_post h.size hr
    have hbarrier := (c.post_barrier w).1
    -- the place of the worker has its report of now, every other one what it had
    have hplace : ∀ v now, (c.post w).board.find? v = some now →
        (v = w ∧ now = r) ∨ c.board.find? v = some now := by
      intro v now hnow
      rw [hfind] at hnow
      split at hnow
      · next hv => exact .inl ⟨hv.symm, (Option.some.inj hnow).symm⟩
      · exact .inr hnow
    refine ⟨⟨by rw [hsize, hbarrier, h.size], ?reported, fun v now hnow => ?shown,
      fun v now later hnow hlater => ?behind⟩, ⟨?reports, ?board⟩⟩
    case reported =>
      rw [hbarrier]
      exact h.reported
    case shown =>
      rcases hplace v now hnow with ⟨rfl, rfl⟩ | hold
      · exact ⟨Barrier.worker_of_report? hr, h.reported v now hr⟩
      · exact h.shown v now hold
    case behind =>
      rw [hbarrier] at hlater
      rcases hplace v now hnow with ⟨rfl, rfl⟩ | hold
      · cases hr.symm.trans hlater
        exact le_rfl
      · exact h.behind v now later hold hlater
    case reports =>
      rw [hbarrier]
      exact .refl _
    case board =>
      refine noLess_of_getElem? hsize.symm fun i old now hold hnow => ?_
      rw [Board.getElem?_toList] at hold hnow
      rcases hplace ⟨i⟩ now hnow with ⟨rfl, rfl⟩ | hsame
      · exact h.behind _ old now hold hr
      · cases hold.symm.trans hsame
        exact le_rfl

/-- One change keeps a coordinator truthful, and takes no progress back. -/
theorem Tick.advance (ht : Tick ms c c') (h : c.Truthful total trained)
    (hms : ∀ m ∈ ms, m.Truthful (total m.worker) (trained m.worker)) :
    Advance total trained c c' := by
  cases ht with
  | write called given => exact advance_write h called fun m hm => hms m (given m hm)
  | post w => exact advance_post h w

/-- So do all changes on a way. -/
theorem advance_of_way {way : List (Coordinator α τ)} (hway : Way (Tick ms) c way c')
    (h : c.Truthful total trained)
    (hms : ∀ m ∈ ms, m.Truthful (total m.worker) (trained m.worker)) :
    Way (Advance total trained) c way c' ∧ c'.Truthful total trained := by
  induction hway with
  | stay c => exact ⟨.stay c, h⟩
  | step first rest ih =>
    have hfirst := first.advance h hms
    obtain ⟨hrest, hlast⟩ := ih hfirst.truthful
    exact ⟨.step hfirst hrest, hlast⟩

/-- Before the first message nothing is reported but how many batches there are. -/
theorem truthful_ofTotals {totals : List Nat} (weights : Weights α) (scope : MergeScope)
    (htotals : ∀ w n, totals[w.index]? = some n → total w = n) :
    (ofTotals totals weights scope : Coordinator α τ).Truthful total trained := by
  have hshown := shown_ofTotals (τ := τ) totals weights scope
  have hreported : ∀ w r, (ofTotals totals weights scope : Coordinator α τ).barrier.report? w =
      some r → r.Truthful (total w) (trained w) := by
    intro w r hr
    obtain ⟨rec, hrec, rfl⟩ := Option.map_eq_some_iff.1 hr
    change (Barrier.ofTotals totals : Barrier α τ).record? w = some rec at hrec
    rw [Barrier.record?_ofTotals_eq] at hrec
    obtain ⟨n, hn, rfl⟩ := Option.map_eq_some_iff.1 hrec
    refine ⟨(htotals w n hn).symm, Nat.zero_le _, Nat.zero_le _, (absurd · Bool.false_ne_true), ?_⟩
    show ((Dict.empty : Dict LossLabel α).find? .final).isSome = true ↔ false = true
    simp
  refine ⟨hshown.size, hreported, fun w r hr => ?_, fun w r now hr hnow => ?_⟩
  · rw [hshown.shown w List.not_mem_nil] at hr
    exact ⟨Barrier.worker_of_report? hr, hreported w r hr⟩
  · rw [hshown.shown w List.not_mem_nil] at hr
    cases hr.symm.trans hnow
    exact le_rfl

end Coordinator

end Federated
