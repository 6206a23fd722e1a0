/-
  Federated.Proofs.Training.OneWorker

  Federated training with one worker, over several epochs and in single precision: it is plain
  local training.

    * `Epoch.Passes` — the ways through a plan, an execution of an epoch behind another.
    * `Epoch.alone` — one epoch.
    * `Epoch.exists_passes`, `Epoch.passes_eq` — there is a way through every plan, and each of
      them is the course of plain training.
    * `Epoch.one_worker_plain` — this for every plan, and where it fails.
-/
import Federated.Proofs.Training.Alone
import Federated.Proofs.Training.Halting

namespace Federated

variable {α : Type}

/-- The bank with a learning rate set, if there is one to be set. -/
def Bank.rated (b : Bank α) : Option α → Bank α
  | none => b
  | some rate => b.withRate rate

/-- A model and a bank that hold for one worker what plain training holds. -/
structure Plain.Held [Scalar α] (p : Plain α) (model : Affine α) (bank : Bank α) : Prop where
  model : p.learner.model = model
  spec : p.spec = bank.spec
  optimizer : p.learner.optimizer = (bank.take ⟨0⟩).1

variable [Scalar α]

theorem Plain.held_start (model : Affine α) (spec : OptimizerSpec α) :
    (Plain.start model spec).Held model (Bank.ofSpec spec) := ⟨rfl, rfl, rfl⟩

/-- Setting the learning rate is the same on both sides. -/
theorem Plain.Held.rated {p : Plain α} {model : Affine α} {bank : Bank α} (h : p.Held model bank)
    (rate : Option α) : (p.rated rate).Held model (bank.rated rate) := by
  cases rate with
  | none => exact h
  | some rate =>
    refine ⟨h.model, congrArg (OptimizerSpec.withRate rate) h.spec, ?_⟩
    have hfind := Dict.find?_mapValues bank.stored (fun _ o => o.withRate rate) ⟨0⟩
    show p.learner.optimizer.withRate rate = ((bank.withRate rate).stored.find? ⟨0⟩).getD _
    rw [h.optimizer, Bank.withRate, hfind, Bank.take]
    -- a stored optimizer changes its rate, and a fresh one is built with it
    cases bank.stored.find? ⟨0⟩ with
    | some o => rfl
    | none => exact (OptimizerSpec.build_withRate bank.spec rate).symm

namespace Epoch

/-! ## Ways through a plan -/

/-- What an epoch with one worker leaves once it is over: what it has come to, and the model and
    the bank to go on with. -/
def taken (model : Affine α) (last : System α) :
    Except (Halt (FederatedError α)) (Milestone α × Affine α × Bank α) := do
  let result ← (leave last).result
  let next ← (model.load result.model).mapError fun cause => Halt.error (.model cause)
  let loss := result.reports.head?.bind fun r => r.finalLoss?
  return (⟨result.model, last.bank.stored.find? ⟨0⟩, loss⟩, next, last.bank)

/-- The ways of one worker through a plan from epoch `e` on; the clock is given epoch by epoch. Each
    epoch is some complete execution, from the model and the bank that the epoch before has left.
    A refusal or a failure ends the way. -/
inductive Passes (config : FederatedConfig) (clocks : Nat → Clock) :
    Nat → Affine α → Bank α → List (Lesson α) → Course α (Halt (FederatedError α)) → Prop
  | done (e : Nat) (model : Affine α) (bank : Bank α) :
      Passes config clocks e model bank [] ⟨[], none⟩
  | refused {e : Nat} {model : Affine α} {bank : Bank α} {lesson : Lesson α}
      {plan : List (Lesson α)} {cause : ConfigError α}
      (hstart : start config (clocks e) model [lesson.batches] (bank.rated lesson.rate) =
        .error cause) :
      Passes config clocks e model bank (lesson :: plan) ⟨[], some (.error (.config cause))⟩
  | halted {e : Nat} {model : Affine α} {bank : Bank α} {lesson : Lesson α}
      {plan : List (Lesson α)} {s₀ last : System α} {choices : List Choice}
      {halt : Halt (FederatedError α)}
      (hstart : start config (clocks e) model [lesson.batches] (bank.rated lesson.rate) = .ok s₀)
      (hrun : s₀.run? choices = some last) (hover : last.Complete)
      (htaken : taken model last = .error halt) :
      Passes config clocks e model bank (lesson :: plan) ⟨[], some halt⟩
  | passed {e : Nat} {model next : Affine α} {bank left : Bank α} {lesson : Lesson α}
      {plan : List (Lesson α)} {s₀ last : System α} {choices : List Choice} {m : Milestone α}
      {course : Course α (Halt (FederatedError α))}
      (hstart : start config (clocks e) model [lesson.batches] (bank.rated lesson.rate) = .ok s₀)
      (hrun : s₀.run? choices = some last) (hover : last.Complete)
      (htaken : taken model last = .ok (m, next, left))
      (hrest : Passes config clocks (e + 1) next left plan course) :
      Passes config clocks e model bank (lesson :: plan) (course.after m)

/-- What an epoch with one worker comes to, by what plain training comes to. -/
inductive Taken (outcome : Except (Halt ModelError) α × Learner α) (policy : SyncPolicy)
    (total : Nat) (spec : OptimizerSpec α) (model : Affine α) (last : System α) : Prop
  | passed (loss : α) (left : Bank α) (ok : outcome.1 = .ok loss)
      (htaken : taken model last = .ok (⟨outcome.2.model.params, some outcome.2.optimizer,
        some loss⟩, outcome.2.model, left))
      (held : Plain.Held ⟨outcome.2, spec⟩ outcome.2.model left)
      (waits : policy.TimesAll [total])
  | refused (halt : Halt ModelError) (error : outcome.1 = .error halt)
      (htaken : taken model last = .error (.error (Worker.stepFailure ⟨0⟩ halt)))
  | died (halt : Halt (FederatedError α)) (untimely : ¬ policy.TimesAll [total])
      (htaken : taken model last = .error halt)

theorem taken_of_error {model : Affine α} {last : System α} {cause : FederatedError α}
    (h : result? last = some (.error cause)) : taken model last = .error (.error cause) := by
  unfold taken leave
  rw [h]
  rfl

theorem taken_of_ok {model next : Affine α} {last : System α} {e : EpochResult α}
    (h : result? last = some (.ok e)) (hload : model.load e.model = .ok next) :
    taken model last = .ok (⟨e.model, last.bank.stored.find? ⟨0⟩,
      e.reports.head?.bind fun r => r.finalLoss?⟩, next, last.bank) := by
  unfold taken leave
  rw [h]
  simp only [Except.mapError, bind, Except.bind, hload]
  rfl

/-! ## One epoch -/

variable {config : FederatedConfig} {clock : Clock} {model : Affine Float32}
  {batches : List (Batch Float32)} {bank : Bank Float32} {p : Plain Float32}

/-- One epoch of one worker comes to what plain training comes to, whatever turns are taken. -/
theorem alone (hscope : config.scope = .retained) (hfull : batches ≠ [])
    (hcount : batches.length ≤ countLimit) (held : p.Held model bank) {s₀ last : System Float32}
    {choices : List Choice} (hstart : start config clock model [batches] bank = .ok s₀)
    (hrun : s₀.run? choices = some last) (hover : last.Complete) :
    Taken (p.learner.trainRenewing (config.policy clock).renews p.spec.build batches)
      (config.policy clock) batches.length p.spec model last := by
  obtain ⟨⟨own, optimizer⟩, spec⟩ := p
  obtain ⟨rfl, rfl, rfl⟩ : own = model ∧ spec = bank.spec ∧ optimizer = (bank.take ⟨0⟩).1 :=
    ⟨held.model, held.spec, held.optimizer⟩
  have hnonempty : ∀ shard ∈ [batches], shard ≠ [] := by simpa using hfull
  have hcounts : ∀ shard ∈ [batches], shard.length ≤ countLimit := by simpa using hcount
  obtain rfl := Except.ok.inj ((start_eq (by simp) hnonempty).symm.trans hstart)
  have hrunning : (initial config clock own [batches] bank).Running (config.policy clock)
      [batches.length] own.params.layout (initial config clock own [batches] bank).bank :=
    running_initial hnonempty hcounts
  -- the worker begins with the optimizer out of the bank
  have halone := Lane.alone_start ⟨0⟩ ⟨own, (bank.take ⟨0⟩).1⟩ bank.spec (config.policy clock)
    batches (r := ⟨none, .training, 0, batches.length, Dict.empty⟩) rfl
  have hend := hrunning.alone hscope ⟨_, rfl, halone⟩ hrun hover
  have hload := Learner.load_trainRenewingFrom (config.policy clock).renews bank.spec.build
    ⟨own, (bank.take ⟨0⟩).1⟩ Scalar.zero 0 batches
  cases hend with
  | finished loss e ok result hmodel final kept stored waits =>
    have htaken := taken_of_ok result (hmodel ▸ hload)
    rw [hmodel, stored, final] at htaken
    refine .passed loss last.bank ok htaken ⟨rfl, kept.symm, ?_⟩ waits
    show _ = (last.bank.stored.find? ⟨0⟩).getD _
    rw [stored]
    rfl
  | refused halt error result => exact .refused halt error (taken_of_error result)
  | died cause untimely result => exact .died _ untimely (taken_of_error result)

/-! ## Whole plans -/

variable {clocks : Nat → Clock} {e : Nat} {plan : List (Lesson Float32)}

/-- The epochs of a plan all have batches, and no more of them than can be counted. -/
def Full (plan : List (Lesson α)) : Prop :=
  ∀ lesson ∈ plan, lesson.batches ≠ [] ∧ lesson.batches.length ≤ countLimit

/-- The clock can time all waits of a plan from epoch `e` on. -/
def Timed (config : FederatedConfig) (clocks : Nat → Clock) : Nat → List (Lesson α) → Prop
  | _, [] => True
  | e, lesson :: plan =>
    (config.policy (clocks e)).TimesAll [lesson.batches.length] ∧ Timed config clocks (e + 1) plan

/-- The course that plain training takes through a plan, with its end seen as that of a worker. -/
def plainCourse (config : FederatedConfig) (p : Plain α) (plan : List (Lesson α)) :
    Course α (Halt (FederatedError α)) :=
  (p.course config.keepOptimizer config.syncEvery plan).mapHalt fun halt =>
    .error (Worker.stepFailure ⟨0⟩ halt)

/-- An epoch with one worker has a complete execution. -/
theorem exists_execution (config : FederatedConfig) (clock : Clock) (model : Affine Float32)
    (bank : Bank Float32) (hfull : batches ≠ []) (hcount : batches.length ≤ countLimit) :
    ∃ s₀ choices last, start config clock model [batches] bank = .ok s₀ ∧
      s₀.run? choices = some last ∧ last.Complete := by
  have hnonempty : ∀ shard ∈ [batches], shard ≠ [] := by simpa using hfull
  have hcounts : ∀ shard ∈ [batches], shard.length ≤ countLimit := by simpa using hcount
  obtain ⟨choices, last, hrun, hover, -⟩ :=
    @run_complete config clock model [batches] bank (by simp) hnonempty hcounts Board.empty
  exact ⟨_, choices, last, start_eq (by simp) hnonempty, hrun, hover⟩

/-- There is a way through every plan. -/
theorem exists_passes (hfull : Full plan) :
    ∃ course, Passes config clocks e model bank plan course := by
  induction plan generalizing e model bank with
  | nil => exact ⟨_, .done e model bank⟩
  | cons lesson plan ih =>
    obtain ⟨⟨hbatches, hcount⟩, hplan⟩ := List.forall_mem_cons.1 hfull
    obtain ⟨s₀, choices, last, hstart, hrun, hover⟩ :=
      exists_execution config (clocks e) model (bank.rated lesson.rate) hbatches hcount
    cases htaken : taken model last with
    | error halt => exact ⟨_, .halted hstart hrun hover htaken⟩
    | ok out =>
      obtain ⟨m, next, left⟩ := out
      obtain ⟨course, hrest⟩ := @ih next left (e + 1) hplan
      exact ⟨_, .passed hstart hrun hover htaken hrest⟩

variable {lesson : Lesson Float32} {loss : Float32}

theorem plainCourse_of_error {halt : Halt ModelError}
    (h : ((p.rated lesson.rate).train config.keepOptimizer config.syncEvery
      lesson.batches).1 = .error halt) :
    plainCourse config p (lesson :: plan) =
      ⟨[], some (.error (Worker.stepFailure ⟨0⟩ halt))⟩ := by
  unfold plainCourse Plain.course
  split
  · next heq =>
    rw [heq] at h
    cases h
    rfl
  · next heq =>
    rw [heq] at h
    cases h

theorem plainCourse_of_ok {l : Learner Float32}
    (h : (p.rated lesson.rate).train config.keepOptimizer config.syncEvery lesson.batches =
      (.ok loss, l)) :
    plainCourse config p (lesson :: plan) =
      (plainCourse config ⟨l, (p.rated lesson.rate).spec⟩ plan).after
        ⟨l.model.params, some l.optimizer, some loss⟩ := by
  unfold plainCourse
  rw [Plain.course, h]
  rfl

/-- Where all waits can be timed, every way through a plan is the course of plain training. -/
theorem passes_eq (hscope : config.scope = .retained) (hevery : 0 < config.syncEvery)
    (hfull : Full plan) (htimed : Timed config clocks e plan) (held : p.Held model bank)
    {course : Course Float32 (Halt (FederatedError Float32))}
    (h : Passes config clocks e model bank plan course) : course = plainCourse config p plan := by
  induction h generalizing p with
  | done => rfl
  | @refused e model bank lesson plan cause hstart =>
    -- an epoch of a worker with batches is not refused
    obtain ⟨⟨hbatches, -⟩, -⟩ := List.forall_mem_cons.1 hfull
    rw [start_eq (by simp) (by simpa using hbatches)] at hstart
    cases hstart
  | @halted e model bank lesson plan s₀ last choices halt hstart hrun hover htaken =>
    obtain ⟨⟨hbatches, hcount⟩, -⟩ := List.forall_mem_cons.1 hfull
    have hend := alone hscope hbatches hcount (held.rated lesson.rate) hstart hrun hover
    rw [← Plain.train_eq hevery] at hend
    cases hend with
    | passed loss left ok htaken' => cases htaken.symm.trans htaken'
    | refused halt' error htaken' =>
      cases htaken.symm.trans htaken'
      exact (plainCourse_of_error error).symm
    | died halt' untimely => exact absurd htimed.1 untimely
  | @passed e model next bank left lesson plan s₀ last choices m course hstart hrun hover htaken
      hrest ih =>
    obtain ⟨⟨hbatches, hcount⟩, hplan⟩ := List.forall_mem_cons.1 hfull
    have hend := alone hscope hbatches hcount (held.rated lesson.rate) hstart hrun hover
    rw [← Plain.train_eq hevery] at hend
    cases hend with
    | passed loss left' ok htaken' held' =>
      cases htaken.symm.trans htaken'
      rw [plainCourse_of_ok (Prod.ext ok rfl)]
      exact congrArg (Course.after · _) (ih hplan htimed.2 held')
    | refused halt' error htaken' => cases htaken.symm.trans htaken'
    | died halt' untimely htaken' => cases htaken.symm.trans htaken'

/-- And only there: else the worker dies of a wait, where plain training goes on. -/
theorem timed_of_passes (hscope : config.scope = .retained) (hevery : 0 < config.syncEvery)
    (hfull : Full plan) (held : p.Held model bank)
    (hplain : (plainCourse config p plan).halt = none)
    (h : ∀ course, Passes config clocks e model bank plan course →
      course = plainCourse config p plan) : Timed config clocks e plan := by
  induction plan generalizing e p model bank with
  | nil => trivial
  | cons lesson plan ih =>
    obtain ⟨⟨hbatches, hcount⟩, hplan⟩ := List.forall_mem_cons.1 hfull
    obtain ⟨s₀, choices, last, hstart, hrun, hover⟩ :=
      exists_execution config (clocks e) model (bank.rated lesson.rate) hbatches hcount
    have hend := alone hscope hbatches hcount (held.rated lesson.rate) hstart hrun hover
    rw [← Plain.train_eq hevery] at hend
    cases hend with
    | passed loss left ok htaken held' waits =>
      have hcourse : plainCourse config p (lesson :: plan) = _ :=
        plainCourse_of_ok (Prod.ext ok rfl)
      rw [hcourse] at hplain h
      refine ⟨waits, ih hplan held' hplain fun course hrest => ?_⟩
      exact Course.after_inj (h _ (.passed hstart hrun hover htaken hrest))
    | refused halt error htaken =>
      rw [plainCourse_of_error error] at hplain
      cases hplain
    | died halt untimely htaken =>
      rw [← h _ (.halted hstart hrun hover htaken)] at hplain
      cases hplain

/-- One worker with synchronization is plain local training. In single precision, for every model,
    every kind of optimizer, every plan of epochs with batches and every interval: there is a way
    through the plan, and every way comes after every epoch to the parameters, the optimizer and
    the loss that plain training comes to, and stops where it stops.

    This holds where the clock, which goes on from wait to wait, can time all of them. If no step of
    plain training fails, it holds nowhere else: the worker dies of a wait. -/
theorem one_worker_plain (config : FederatedConfig) (clocks : Nat → Clock) (model : Affine Float32)
    (spec : OptimizerSpec Float32) {plan : List (Lesson Float32)}
    (hscope : config.scope = .retained) (hevery : 0 < config.syncEvery) (hfull : Full plan) :
    (∃ course, Passes config clocks 0 model (Bank.ofSpec spec) plan course) ∧
      (Timed config clocks 0 plan →
        ∀ course, Passes config clocks 0 model (Bank.ofSpec spec) plan course →
          course = plainCourse config (Plain.start model spec) plan) ∧
      ((plainCourse config (Plain.start model spec) plan).halt = none →
        (∀ course, Passes config clocks 0 model (Bank.ofSpec spec) plan course →
          course = plainCourse config (Plain.start model spec) plan) →
        Timed config clocks 0 plan) :=
  ⟨exists_passes hfull,
    fun htimed _ h => passes_eq hscope hevery hfull htimed (Plain.held_start model spec) h,
    timed_of_passes hscope hevery hfull (Plain.held_start model spec)⟩

/-- Two epochs, of two batches and of one, the second with a rate of its own; a fresh optimizer is
    taken up before the second batch. The clock has run for thirty years. -/
theorem one_worker_plain_two :
    let config : FederatedConfig := { syncEvery := 1 }
    let clocks : Nat → Clock := fun e _ i => Nat.pow 10 18 + 2 * e + i
    let model : Affine Float32 := Affine.ofWeights (Matrix.zeros 1 1)
    let spec : OptimizerSpec Float32 := .momentum Scalar.one Scalar.one
    let batch : Batch Float32 :=
      ⟨Matrix.ofFn 2 1 fun i _ => Scalar.ofCount i,
        Matrix.ofFn 2 1 fun i _ => Scalar.ofCount (i + 1)⟩
    let plan : List (Lesson Float32) := [⟨none, [batch, batch]⟩, ⟨some Scalar.zero, [batch]⟩]
    config.scope = .retained ∧ 0 < config.syncEvery ∧ Full plan ∧ Timed config clocks 0 plan ∧
      ∃ course, Passes config clocks 0 model (Bank.ofSpec spec) plan course ∧
        course.reached.length = 2 ∧ course = plainCourse config (Plain.start model spec) plan := by
  intro config clocks model spec batch plan
  have hfull : Full plan := by simp [Full, plan, countLimit]
  have hlatest : config.notePeriod.endsOnClock (Nat.pow 10 18 + 3) = true := by decide +kernel
  have hwaits : ∀ e < 2, ∀ total ≤ 2, (config.policy (clocks e)).TimesAll [total] := by
    intro e he total htotal
    have hlongest : ∀ n ∈ [total], n ≤ 2 := by simpa using htotal
    refine FederatedConfig.timesAll_of_latest hlongest (fun w i hi => ?_) hlatest
    show Nat.pow 10 18 + 2 * e + i ≤ Nat.pow 10 18 + 3
    omega
  have htimed : Timed config clocks 0 plan :=
    ⟨hwaits 0 (by omega) 2 le_rfl, hwaits 1 (by omega) 1 (by omega), trivial⟩
  obtain ⟨⟨course, hcourse⟩, heq, -⟩ :=
    one_worker_plain config clocks model spec rfl Nat.one_pos hfull
  have hlength : (plainCourse config (Plain.start model spec) plan).reached.length = 2 := by
    decide +kernel
  have hplain := heq htimed course hcourse
  exact ⟨rfl, Nat.one_pos, hfull, htimed, course, hcourse, hplain ▸ hlength, hplain⟩

/-- One epoch with one wait, which no clock can time although the configuration passes its check:
    no local step fails, and yet there is nothing of what plain training comes to. -/
theorem untimed_wait_not_plain :
    let config : FederatedConfig :=
      { syncEvery := 1, keepOptimizer := true, waitInterval := Float.ofBits 0x43E158E460913D00 }
    let model : Affine Float32 := Affine.ofWeights (Matrix.zeros 1 1)
    let spec : OptimizerSpec Float32 := .descent Scalar.one
    let batch : Batch Float32 :=
      ⟨Matrix.ofFn 2 1 fun i _ => Scalar.ofCount i,
        Matrix.ofFn 2 1 fun i _ => Scalar.ofCount (i + 1)⟩
    let plan : List (Lesson Float32) := [⟨none, [batch, batch]⟩]
    let choices : List Choice :=
      [.act ⟨0⟩, .receive, .act ⟨0⟩, .act ⟨0⟩, .receive, .act ⟨0⟩, .receive, .join ⟨0⟩, .conclude]
    (config.validate : Except (ConfigError Float32) Unit) = .ok () ∧ config.scope = .retained ∧
      (plainCourse config (Plain.start model spec) plan).halt = none ∧
      ∃ s₀ last halt, start config .started model [[batch, batch]] (Bank.ofSpec spec) = .ok s₀ ∧
        s₀.run? choices = some last ∧ last.Complete ∧ s₀.StepsSucceed choices ∧
        Passes config (fun _ => .started) 0 model (Bank.ofSpec spec) plan ⟨[], some halt⟩ ∧
        ⟨[], some halt⟩ ≠ plainCourse config (Plain.start model spec) plan := by
  intro config model spec batch plan choices
  have valid : (config.validate : Except (ConfigError Float32) Unit) = .ok () := by
    unfold config
    rfl
  have hplain : (plainCourse config (Plain.start model spec) plan).halt = none := by
    rw [← Option.isNone_iff_eq_none]
    decide +kernel
  have hstart : start config .started model [[batch, batch]] (Bank.ofSpec spec) =
      .ok (initial config .started model [[batch, batch]] (Bank.ofSpec spec)) :=
    start_eq (by simp) (by simp)
  have hrun : ((initial config .started model [[batch, batch]]
      (Bank.ofSpec spec)).run? choices).map (fun s =>
        ((s.session.isServing, s.stopped, s.seats.all fun seat =>
          seat.joined && seat.worker.hasEnded), (taken model s).toOption.isNone)) =
      some ((false, true, true), true) := by
    decide +kernel
  have hsteps : (initial config .started model [[batch, batch]]
      (Bank.ofSpec spec)).StepsSucceed choices := by
    decide +kernel
  obtain ⟨last, hlast, hfacts⟩ := Option.map_eq_some_iff.1 hrun
  have hover := System.complete_of_facts (Prod.ext_iff.1 hfacts).1
  have hnone : (taken model last).toOption.isNone = true := (Prod.ext_iff.1 hfacts).2
  cases htaken : taken model last with
  | ok out =>
    rw [htaken] at hnone
    cases hnone
  | error halt =>
    refine ⟨valid, rfl, hplain, _, last, halt, hstart, hlast, hover, hsteps,
      .halted hstart hlast hover htaken, fun heq => ?_⟩
    rw [← heq] at hplain
    cases hplain

end Epoch

end Federated
