/-
  Federated.Proofs.Training.Custody

  No optimizer is lost, doubled or swapped by an epoch, whatever turns are taken: what the bank
  holds under the number of a worker is what this worker has handed back, and all else is where it
  was.

    * `Optimizer.Grows`, `SyncPolicy.Raises` — where an optimizer has come from.
    * `Worker.Trained` — a worker on its way through its batches; `Trained.step`, `Trained.resume`.
    * `System.Custody` — the bank beside the seats; `Custody.step` — every step keeps it.
    * `Epoch.optimizers_accounted` — what every epoch leaves in the bank.
-/
import Federated.Proofs.Training.Confluence
import Federated.Proofs.Training.Opening
import Federated.Proofs.Training.Plain

namespace Federated

variable {α : Type} [Scalar α]

/-! ## Where an optimizer has come from -/

/-- What local steps on batches, one behind another and each of whatever model, make of an
    optimizer. -/
inductive Optimizer.Grows (o : Optimizer α) : List (Batch α) → Optimizer α → Prop
  | untouched : Grows o [] o
  | step {batches : List (Batch α)} {before : Optimizer α} {model : Affine α} {batch : Batch α}
      {loss : α} {l : Learner α} (grown : Grows o batches before)
      (ok : (⟨model, before⟩ : Learner α).step batch = .ok (loss, l)) :
      Grows o (batches ++ [batch]) l.optimizer

namespace SyncPolicy

/-- The last of the first `n` batches before which a worker takes up a fresh optimizer. -/
def lastRenewal? (p : SyncPolicy) : Nat → Option Nat
  | 0 => none
  | n + 1 => if p.renews n then some n else p.lastRenewal? n

theorem lt_of_lastRenewal? {p : SyncPolicy} {n j : Nat} (h : p.lastRenewal? n = some j) :
    j < n ∧ p.renews j = true := by
  induction n with
  | zero => cases h
  | succ n ih =>
    rw [lastRenewal?] at h
    split at h
    · next hn =>
      cases h
      exact ⟨Nat.lt_succ_self j, hn⟩
    · obtain ⟨hlt, hj⟩ := ih h
      exact ⟨Nat.lt_succ_of_lt hlt, hj⟩

/-- What a worker's optimizer has come from, with `batches` behind it and the renewals of the first
    `n` batches: from the one it began with, or from a fresh one as of the last renewal. -/
def Raises (p : SyncPolicy) (first fresh : Optimizer α) (n : Nat) (batches : List (Batch α))
    (o : Optimizer α) : Prop :=
  match p.lastRenewal? n with
  | none => first.Grows batches o
  | some j => fresh.Grows (batches.drop j) o

variable {p : SyncPolicy} {first fresh o : Optimizer α} {n : Nat} {batches : List (Batch α)}

/-- Before a batch without a renewal all stays as it is. -/
theorem Raises.pass (h : p.Raises first fresh n batches o) (hn : p.renews n = false) :
    p.Raises first fresh (n + 1) batches o := by
  rw [Raises, lastRenewal?, hn]
  exact h

/-- A renewal begins anew. -/
theorem raises_renewed (first fresh : Optimizer α) (hn : p.renews n = true)
    (hlength : batches.length ≤ n) : p.Raises first fresh (n + 1) batches fresh := by
  rw [Raises, lastRenewal?, hn, if_pos rfl]
  show fresh.Grows (batches.drop n) fresh
  rw [List.drop_eq_nil_of_le hlength]
  exact .untouched

/-- A local step on one more batch, with all renewals up to it seen to. -/
theorem Raises.step (h : p.Raises first fresh (n + 1) batches o) (hlength : batches.length = n)
    {model : Affine α} {batch : Batch α} {loss : α} {l : Learner α}
    (ok : (⟨model, o⟩ : Learner α).step batch = .ok (loss, l)) :
    p.Raises first fresh (n + 1) (batches ++ [batch]) l.optimizer := by
  rw [Raises] at h ⊢
  cases hlast : p.lastRenewal? (n + 1) with
  | none =>
    rw [hlast] at h
    exact .step h ok
  | some j =>
    rw [hlast] at h
    have hj := (lt_of_lastRenewal? hlast).1
    show fresh.Grows ((batches ++ [batch]).drop j) l.optimizer
    rw [List.drop_append_of_le_length (by omega)]
    exact .step h ok

end SyncPolicy

/-! ## Workers -/

namespace Worker

/-- The number of batches whose renewals a worker has seen to: also that of the batch it is about
    to train on. -/
def renewedTo (w : Worker α) : Nat :=
  match w.point with
  | .stepping => w.index + 1
  | _ => w.index

/-- A worker that has trained on a part of its batches and is still to train on the others. Of one
    that has failed nothing is said. -/
structure Trained (policy : SyncPolicy) (spec : OptimizerSpec α) (first : Optimizer α)
    (batches : List (Batch α)) (w : Worker α) : Prop where
  policy_eq : w.policy = policy
  spec_eq : w.spec = spec
  remaining : w.remaining = batches.drop w.index
  index_le : w.index ≤ batches.length
  due : w.point = .joining ∨ w.point = .waiting → policy.isDue w.index = true
  done : ∀ loss, w.point = .finished loss → w.remaining = []
  raised : (∀ cause, w.point ≠ .failed cause) →
    policy.Raises first spec.build w.renewedTo (batches.take w.index) w.learner.optimizer

variable {policy : SyncPolicy} {spec : OptimizerSpec α} {first : Optimizer α}
  {batches : List (Batch α)} {w w' : Worker α}

/-- But for a worker about to train, the renewals seen to are those of the batches behind it. -/
theorem Trained.raises (h : w.Trained policy spec first batches)
    (alive : ∀ cause, w.point ≠ .failed cause) (rests : w.point ≠ .stepping) :
    policy.Raises first spec.build w.index (batches.take w.index) w.learner.optimizer := by
  have hindex : w.renewedTo = w.index := by
    rw [renewedTo]
    split
    · next hp => exact absurd hp rests
    · rfl
  exact hindex ▸ h.raised alive

/-- A worker that fails has nothing more to answer for. -/
theorem Trained.fail (h : w.Trained policy spec first batches) (cause : FederatedError α) :
    (w.goto (.failed cause)).Trained policy spec first batches :=
  ⟨h.policy_eq, h.spec_eq, h.remaining, h.index_le, by simp [goto], by simp [goto],
    fun alive => absurd rfl (alive cause)⟩

/-- A step keeps a worker on its way. -/
theorem Trained.step {m : Option (Message α WorkerId)} (h : w.Trained policy spec first batches)
    (step : w.Step w' m) : w'.Trained policy spec first batches := by
  cases step with
  | finish point rest =>
    have hraised := h.raises (by simp [point]) (by simp [point])
    exact ⟨h.policy_eq, h.spec_eq, h.remaining, h.index_le, by simp [goto], fun _ _ => rest,
      fun _ => hraised⟩
  | announceSync point rest due =>
    rw [h.policy_eq] at due
    have hraised := h.raises (by simp [point]) (by simp [point])
    exact ⟨h.policy_eq, h.spec_eq, h.remaining, h.index_le, fun _ => due, by simp [goto],
      fun _ => hraised⟩
  | announce point rest due =>
    rw [h.policy_eq] at due
    have hraised := h.raises (by simp [point]) (by simp [point])
    -- no synchronization is due, and no renewal with it
    have hpass := hraised.pass (by simp [SyncPolicy.renews, due])
    exact ⟨h.policy_eq, h.spec_eq, h.remaining, h.index_le, by simp [goto], by simp [goto],
      fun _ => hpass⟩
  | submit point =>
    have hdue := h.due (.inl point)
    have hraised := h.raises (by simp [point]) (by simp [point])
    rw [joined]
    split
    · exact ⟨h.policy_eq, h.spec_eq, h.remaining, h.index_le, fun _ => hdue, by simp [goto],
        fun _ => hraised⟩
    · exact h.fail _
  | train batch rest loss learner point remaining ok =>
    have hdrop : batches.drop w.index = batch :: rest := h.remaining.symm.trans remaining
    have hbatch : batches[w.index]? = some batch := by
      rw [← Nat.add_zero w.index, ← List.getElem?_drop, hdrop]
      rfl
    have hlt : w.index < batches.length := (List.getElem?_eq_some_iff.1 hbatch).1
    have hlength : (batches.take w.index).length = w.index := List.length_take_of_le hlt.le
    have hrest : rest = batches.drop (w.index + 1) := by
      rw [← List.drop_drop, hdrop]
      rfl
    have hraised := h.raised (by simp [point])
    simp only [renewedTo, point] at hraised
    have hgrown := hraised.step hlength ok
    refine ⟨h.policy_eq, h.spec_eq, hrest, hlt, by simp, by simp, fun _ => ?_⟩
    show policy.Raises first spec.build (w.index + 1) (batches.take (w.index + 1)) _
    rw [List.take_add_one, hbatch]
    exact hgrown
  | fail batch rest halt point remaining refused => exact h.fail _

/-- So does an answer, be the optimizer kept or built anew. -/
theorem Trained.resume (h : w.Trained policy spec first batches) (waits : w.isWaiting = true)
    (answer : Answer α) : (w.resume answer).Trained policy spec first batches := by
  have point := isWaiting_iff.1 waits
  cases answer with
  | closed => exact h.fail _
  | merged model =>
    have hdue := h.due (.inr point)
    have hraised := h.raises (by simp [point]) (by simp [point])
    rw [Worker.resume]
    split
    · exact h.fail _
    · refine ⟨h.policy_eq, h.spec_eq, h.remaining, h.index_le, by simp, by simp, fun _ => ?_⟩
      show policy.Raises first spec.build (w.index + 1) (batches.take w.index)
        (if w.policy.keep then w.learner.optimizer else w.spec.build)
      rw [h.policy_eq, h.spec_eq]
      cases hkeep : policy.keep with
      | true => exact hraised.pass (by simp [SyncPolicy.renews, hkeep])
      | false =>
        refine SyncPolicy.raises_renewed first spec.build ?_ (List.length_take_le _ _)
        simp [SyncPolicy.renews, hdue, hkeep]

/-- A worker that has finished has all its batches behind it. -/
theorem Trained.finished (h : w.Trained policy spec first batches) {loss : α}
    (point : w.point = .finished loss) :
    policy.Raises first spec.build batches.length batches w.learner.optimizer := by
  have hlength : w.index = batches.length := by
    have hdrop := congrArg List.length (h.remaining.symm.trans (h.done loss point))
    rw [List.length_drop, List.length_nil] at hdrop
    have := h.index_le
    omega
  have hraised := h.raises (by simp [point]) (by simp [point])
  rwa [hlength, List.take_length] at hraised

theorem trained_start (id : WorkerId) (model : Affine α) (first : Optimizer α)
    (spec : OptimizerSpec α) (policy : SyncPolicy) (batches : List (Batch α)) :
    (start id ⟨model, first⟩ spec policy batches).Trained policy spec first batches :=
  ⟨rfl, rfl, rfl, Nat.zero_le _, by simp [start], by simp [start], fun _ => .untouched⟩

end Worker

/-! ## The bank beside the seats -/

/-- The optimizer that a worker has handed back: that with which it had finished when it was
    joined. -/
def Seat.returned? (seat : Seat α) : Option (Optimizer α) :=
  match seat.joined, seat.worker.point with
  | true, .finished _ => some seat.worker.learner.optimizer
  | _, _ => none

omit [Scalar α] in
theorem Seat.returned?_eq_some {seat : Seat α} {o : Optimizer α} : seat.returned? = some o ↔
    seat.joined = true ∧ (∃ loss, seat.worker.point = .finished loss) ∧
      seat.worker.learner.optimizer = o := by
  rw [returned?]
  cases seat.joined with
  | false => simp
  | true => cases seat.worker.point <;> simp

namespace System

/-- The bank of a state beside its seats, and that of the start: under a worker's number is what the
    worker has handed back, and all else is untouched. -/
structure Custody (bank : Bank α) (s : System α) : Prop where
  spec : s.bank.spec = bank.spec
  own : ∀ w seat, s.seat? w = some seat → s.bank.stored.find? w = seat.returned?
  others : ∀ w, s.seat? w = none → s.bank.stored.find? w = bank.stored.find? w
  ended : ∀ w seat, s.seat? w = some seat → seat.joined = true → seat.worker.hasEnded = true
  lost : ∀ w seat cause, s.seat? w = some seat → seat.joined = true →
    seat.worker.point = .failed cause → s.failure.isSome = true
  blamed : ∀ cause, s.failure = some cause →
    ∃ w seat, s.seat? w = some seat ∧ seat.joined = true ∧ seat.worker.point = .failed cause
  halted : s.stopped = true → s.failure.isSome = true ∨ s.allJoined = true

variable {bank : Bank α} {s s' : System α} {choice : Choice} {w : WorkerId} {seat seat' : Seat α}

/-- Whoever is newly marked as joined, this step has joined. -/
theorem Touched.join_of_joined (h : Touched choice w seat seat') (before : seat.joined = false)
    (joined : seat'.joined = true) : choice = .join w := by
  rw [h.joined_eq, before, Bool.false_or] at joined
  exact of_decide_eq_true joined

/-- Whoever is marked as joined has ended. -/
theorem Touched.ended (h : Touched choice w seat seat')
    (ended : seat.joined = true → seat.worker.hasEnded = true) (joined : seat'.joined = true) :
    seat'.worker.hasEnded = true := by
  cases hseat : seat.joined with
  | true =>
    rw [h.worker_eq (ended hseat)]
    exact ended hseat
  | false =>
    cases h.join_of_joined hseat joined
    cases h with
    | keep mail hc => exact absurd rfl hc
    | read answer hc | move moved m hc | refuse moved m hc => cases hc
    | join hc ended => exact ended

/-- A step that does not join a worker leaves what it has handed back. -/
theorem Touched.returned?_eq (h : Touched choice w seat seat') (hc : choice ≠ .join w)
    (ended : seat.joined = true → seat.worker.hasEnded = true) :
    seat'.returned? = seat.returned? := by
  have hjoined : seat'.joined = seat.joined := by
    rw [h.joined_eq, decide_eq_false hc, Bool.or_false]
  cases hseat : seat.joined with
  | true => rw [Seat.returned?, Seat.returned?, hjoined, h.worker_eq (ended hseat)]
  | false => rw [Seat.returned?, Seat.returned?, hjoined, hseat]

/-- Whoever had been joined stays so, where it ended. -/
theorem allJoined_of_step? (h : s.step? choice = some s') (all : s.allJoined = true) :
    s'.allJoined = true := by
  refine allJoined_iff.2 fun w seat' hseat' => ?_
  obtain ⟨seat, hseat, htouched⟩ := touched_of_step? h hseat'
  rw [htouched.joined_eq, allJoined_iff.1 all w seat hseat, Bool.true_or]

/-- The bank gains what a worker hands back, and under its own number. -/
theorem Custody.own_step (h : s.Custody bank) (hs : s.step? choice = some s')
    (hseat' : s'.seat? w = some seat') : s'.bank.stored.find? w = seat'.returned? := by
  obtain ⟨seat, hseat, htouched⟩ := touched_of_step? hs hseat'
  have hown := h.own w seat hseat
  have hkept (hc : choice ≠ .join w) := htouched.returned?_eq hc (h.ended w seat hseat)
  cases booked_of_step? hs with
  | same hc hbank => rw [hbank, hown, hkept (hc w)]
  | @returned v found loss _ hfound active point hbank =>
    rw [hbank, Bank.find?_restore]
    by_cases hw : w = v
    · subst hw
      cases hseat.symm.trans hfound
      have hworker := htouched.worker_eq (Worker.hasEnded_iff.2 (.inl ⟨loss, point⟩))
      rw [if_pos rfl, Seat.returned?, htouched.joined_eq, hworker, point]
      simp
    · rw [if_neg hw, hown, hkept fun hc => hw (Choice.join.inj hc).symm]
  | @lost v found cause _ hfound active point hbank =>
    rw [hbank, hown]
    by_cases hw : w = v
    · -- a worker that has failed hands nothing back
      subst hw
      cases hseat.symm.trans hfound
      have hworker := htouched.worker_eq (Worker.hasEnded_iff.2 (.inr ⟨cause, point⟩))
      simp [Seat.returned?, hworker, point]
    · rw [hkept fun hc => hw (Choice.join.inj hc).symm]

/-- What is stored for nobody stays where it is. -/
theorem Custody.others_step (h : s.Custody bank) (hs : s.step? choice = some s')
    (hnone : s'.seat? w = none) : s'.bank.stored.find? w = bank.stored.find? w := by
  have hbefore : s.seat? w = none := by
    by_contra hsome
    obtain ⟨seat, hseat⟩ := Option.ne_none_iff_exists'.1 hsome
    obtain ⟨seat', hseat', -⟩ := touched_seated hs hseat
    rw [hnone] at hseat'
    cases hseat'
  have hothers := h.others w hbefore
  cases booked_of_step? hs with
  | same hc hbank | lost hseat active point hbank => rw [hbank, hothers]
  | @returned v found loss _ hfound active point hbank =>
    have hw : w ≠ v := by
      rintro rfl
      rw [hbefore] at hfound
      cases hfound
    rw [hbank, Bank.find?_restore, if_neg hw, hothers]

/-- Joining a worker that has failed fails the epoch. -/
theorem Custody.lost_step (h : s.Custody bank) (hs : s.step? choice = some s')
    (hseat' : s'.seat? w = some seat') (hj : seat'.joined = true) {cause : FederatedError α}
    (hp : seat'.worker.point = .failed cause) : s'.failure.isSome = true := by
  obtain ⟨seat, hseat, htouched⟩ := touched_of_step? hs hseat'
  -- it had been joined before, or is joined by this step
  have hfailed (before : seat.joined = true) : s.failure.isSome = true := by
    rw [htouched.worker_eq (h.ended w seat hseat before)] at hp
    exact h.lost w seat cause hseat before hp
  cases booked_of_step? hs with
  | same hne hbank hfailure =>
    rw [hfailure]
    refine hfailed ?_
    by_contra hold
    exact hne w (htouched.join_of_joined (Bool.eq_false_of_not_eq_true hold) hj)
  | @returned v found loss _ hfound active point =>
    cases hold : seat.joined with
    | true =>
      have hbefore := hfailed hold
      rw [active] at hbefore
      cases hbefore
    | false =>
      cases htouched.join_of_joined hold hj
      cases hseat.symm.trans hfound
      rw [htouched.worker_eq (Worker.hasEnded_iff.2 (.inl ⟨loss, point⟩)), point] at hp
      cases hp
  | lost hfound active point hbank hfailure => rw [hfailure, Option.isSome_some]

/-- The failure of an epoch is that of a worker that has been joined. -/
theorem Custody.blamed_step (h : s.Custody bank) (hs : s.step? choice = some s')
    {cause : FederatedError α} (hcause : s'.failure = some cause) :
    ∃ w seat, s'.seat? w = some seat ∧ seat.joined = true ∧
      seat.worker.point = .failed cause := by
  cases booked_of_step? hs with
  | same hc hbank hfailure =>
    obtain ⟨w, seat, hseat, hj, hp⟩ := h.blamed cause (hfailure.symm.trans hcause)
    obtain ⟨seat', hseat', htouched⟩ := touched_seated hs hseat
    refine ⟨w, seat', hseat', ?_, ?_⟩
    · rw [htouched.joined_eq, hj, Bool.true_or]
    · rw [htouched.worker_eq (h.ended w seat hseat hj), hp]
  | returned hseat active point hbank hfailure =>
    rw [hfailure] at hcause
    cases hcause
  | @lost v found cause' _ hfound active point hbank hfailure =>
    cases hfailure.symm.trans hcause
    obtain ⟨seat', hseat', htouched⟩ := touched_seated hs hfound
    refine ⟨v, seat', hseat', ?_, ?_⟩
    · rw [htouched.joined_eq, decide_eq_true rfl, Bool.or_true]
    · rw [htouched.worker_eq (Worker.hasEnded_iff.2 (.inr ⟨cause, point⟩)), point]

/-- The stop signal is given behind a failure, or behind all workers. -/
theorem Custody.halted_step (h : s.Custody bank) (hs : s.step? choice = some s')
    (hstopped : s'.stopped = true) : s'.failure.isSome = true ∨ s'.allJoined = true := by
  have hall : s.allJoined = true → s'.allJoined = true := allJoined_of_step? hs
  cases booked_of_step? hs with
  | same hc hbank hfailure hstop =>
    rw [hfailure]
    rcases hstop hstopped with hbefore | hjoined
    · exact (h.halted hbefore).imp_right hall
    · exact .inr (hall hjoined)
  | returned hseat active point hbank hfailure hstop =>
    rcases h.halted (hstop.symm.trans hstopped) with hfailed | hjoined
    · rw [active] at hfailed
      cases hfailed
    · exact .inr (hall hjoined)
  | lost hseat active point hbank hfailure =>
    left
    rw [hfailure, Option.isSome_some]

/-- Every step keeps the bank beside the seats. -/
theorem Custody.step (h : s.Custody bank) (hs : s.step? choice = some s') : s'.Custody bank := by
  have hspec : s'.bank.spec = s.bank.spec := by
    cases booked_of_step? hs with
    | same hc hbank | lost hseat active point hbank => rw [hbank]
    | returned hseat active point hbank =>
      rw [hbank]
      rfl
  refine ⟨hspec.trans h.spec, fun w seat' hseat' => h.own_step hs hseat',
    fun w hnone => h.others_step hs hnone, fun w seat' hseat' hj => ?_,
    fun w seat' cause hseat' hj hp => h.lost_step hs hseat' hj hp,
    fun cause hcause => h.blamed_step hs hcause, fun hstopped => h.halted_step hs hstopped⟩
  obtain ⟨seat, hseat, htouched⟩ := touched_of_step? hs hseat'
  exact htouched.ended (h.ended w seat hseat) hj

omit [Scalar α] in
/-- Once an epoch is over without a failure, everyone has finished and has been joined. -/
theorem Custody.settled (h : s.Custody bank) (active : s.failure = none)
    (stopped : s.stopped = true) : s.Settled := by
  have hall : s.allJoined = true := by
    rcases h.halted stopped with hfailed | hall
    · rw [active] at hfailed
      cases hfailed
    · exact hall
  have hjoined := allJoined_iff.1 hall
  refine ⟨hjoined, fun w seat hseat => ?_⟩
  rcases Worker.hasEnded_iff.1 (h.ended w seat hseat (hjoined w seat hseat)) with hp | ⟨cause, hp⟩
  · exact hp
  · have hfailed := h.lost w seat cause hseat (hjoined w seat hseat) hp
    rw [active] at hfailed
    cases hfailed

/-- All workers of a state are on their way through their batches. -/
def Trained (policy : SyncPolicy) (spec : OptimizerSpec α) (first : WorkerId → Optimizer α)
    (shards : List (List (Batch α))) (s : System α) : Prop :=
  ∀ w seat, s.seat? w = some seat → ∃ shard, shards[w.index]? = some shard ∧
    seat.worker.Trained policy spec (first w) shard

variable {policy : SyncPolicy} {spec : OptimizerSpec α} {first : WorkerId → Optimizer α}
  {shards : List (List (Batch α))}

theorem Trained.step (h : s.Trained policy spec first shards) (hs : s.step? choice = some s') :
    s'.Trained policy spec first shards := by
  intro w seat' hseat'
  obtain ⟨seat, hseat, htouched⟩ := touched_of_step? hs hseat'
  obtain ⟨shard, hshard, htrained⟩ := h w seat hseat
  refine ⟨shard, hshard, ?_⟩
  cases htouched with
  | keep mail hc | join hc ended => exact htrained
  | read answer hc waits mail => exact htrained.resume waits answer
  | move moved m hc step => exact htrained.step step
  | refuse moved m hc step => exact (htrained.step step).fail _

end System

/-! ## What an epoch leaves in the bank -/

namespace Epoch

variable {config : FederatedConfig} {clock : Clock} {model : Affine α}
  {shards : List (List (Batch α))} {bank : Bank α} {s : System α}

theorem Opened.custody (h : Opened config clock model shards bank s) : s.Custody s.bank := by
  have hseat {w : WorkerId} {seat : Seat α} (hseat : s.seat? w = some seat) :
      ∃ shard, shards[w.index]? = some shard ∧ seat =
        ⟨Worker.start w ⟨model, (bank.take w).1⟩ bank.spec (config.policy clock) shard, none,
          false⟩ := by
    rw [h.seats w] at hseat
    obtain ⟨shard, hshard, rfl⟩ := Option.map_eq_some_iff.1 hseat
    exact ⟨shard, hshard, rfl⟩
  refine ⟨rfl, fun w seat hs => ?own, fun _ _ => rfl, fun w seat hs hj => ?ended,
    fun w seat cause hs hj => ?lost, fun cause hcause => ?blamed, fun hstopped => ?halted⟩
  case own =>
    -- nobody has handed anything back yet, and what was stored is taken out
    obtain ⟨shard, hshard, rfl⟩ := hseat hs
    rw [h.stored w, if_pos (List.getElem?_eq_some_iff.1 hshard).1]
    rfl
  case ended | lost =>
    obtain ⟨shard, hshard, rfl⟩ := hseat hs
    cases hj
  case blamed =>
    rw [h.active] at hcause
    cases hcause
  case halted =>
    rw [h.running] at hstopped
    cases hstopped

theorem Opened.trained (h : Opened config clock model shards bank s) :
    s.Trained (config.policy clock) bank.spec (fun w => (bank.take w).1) shards := by
  intro w seat hseat
  rw [h.seats w] at hseat
  obtain ⟨shard, hshard, rfl⟩ := Option.map_eq_some_iff.1 hseat
  exact ⟨shard, hshard, Worker.trained_start w model _ bank.spec (config.policy clock) shard⟩

/-- An optimizer that a worker has handed back: the worker has been joined, it had finished with
    this optimizer, and the optimizer has come from the one that was stored for the worker, or from
    a fresh one, be it at the start or at the worker's last synchronization. -/
def Returned (config : FederatedConfig) (clock : Clock) (shards : List (List (Batch α)))
    (bank : Bank α) (s : System α) (w : WorkerId) (o : Optimizer α) : Prop :=
  ∃ seat shard loss, s.seat? w = some seat ∧ shards[w.index]? = some shard ∧
    seat.joined = true ∧ seat.worker.point = .finished loss ∧ seat.worker.learner.optimizer = o ∧
    (config.policy clock).Raises (bank.take w).1 bank.spec.build shard.length shard o

/-- How an epoch that is over has gone. All workers have finished and have been joined, and it has a
    model, no model or a final pass that failed; or a worker has failed, and the epoch with it, or
    with what ended the coordinator that the worker missed. -/
inductive Went (s : System α) : Except (FederatedError α) (EpochResult α) → Prop
  | settled {result : Except (FederatedError α) (EpochResult α)} (all : s.Settled)
      (kind : (∃ e, result = .ok e) ∨ result = .error .nothingMerged ∨
        ∃ cause, result = .error (.aggregation cause)) : Went s result
  | failed {error cause : FederatedError α} {w : WorkerId} {seat : Seat α}
      (hseat : s.seat? w = some seat) (joined : seat.joined = true)
      (point : seat.worker.point = .failed cause) (own : cause.OfWorker)
      (kind : error = cause ∨
        ∃ v refusal, cause = .coordinatorGone v ∧ error = .aggregation refusal) :
      Went s (.error error)

/-- The bank at any point of an epoch, beside that of its start. -/
structure Accounted (config : FederatedConfig) (clock : Clock) (shards : List (List (Batch α)))
    (bank : Bank α) (s : System α) : Prop where
  spec : s.bank.spec = bank.spec
  /-- What is stored for numbers without a worker is untouched. -/
  others : ∀ w, shards.length ≤ w.index → s.bank.stored.find? w = bank.stored.find? w
  /-- What is stored for a worker is what it has handed back. -/
  own : ∀ w o, w.index < shards.length →
    (s.bank.stored.find? w = some o ↔ Returned config clock shards bank s w o)
  /-- If all workers have finished, the bank has an optimizer for each of them, and whatever else it
      had before. -/
  complete : s.Settled → ∀ w, s.bank.stored.contains w = true ↔
    bank.stored.contains w = true ∨ w.index < shards.length
  /-- When the epoch is over, they have, unless one has failed. -/
  went : ∀ result, result? s = some result → Went s result

theorem went_of_result? (hcustody : s.Custody bank) (hblameless : s.Blameless)
    {result : Except (FederatedError α) (EpochResult α)} (h : result? s = some result) :
    Went s result := by
  rw [result?] at h
  split at h
  · next hstopped =>
    split at h
    · cases h
    · next _ _ outcome hactive _ =>
      cases h
      have all := hcustody.settled hactive hstopped
      rcases System.resultOf_cases outcome with hnone | hok
      · exact .settled all (.inr (.inl hnone))
      · exact .settled all (.inl hok)
    · next _ _ cause hactive _ =>
      cases h
      exact .settled (hcustody.settled hactive hstopped) (.inr (.inr ⟨cause, rfl⟩))
    · next _ _ v cause hfailure _ =>
      cases h
      obtain ⟨w, seat, hseat, hj, hp⟩ := hcustody.blamed _ hfailure
      exact .failed hseat hj hp (hblameless.failure _ hfailure) (.inr ⟨v, cause, rfl, rfl⟩)
    · next cause _ hfailure _ _ =>
      cases h
      obtain ⟨w, seat, hseat, hj, hp⟩ := hcustody.blamed _ hfailure
      exact .failed hseat hj hp (hblameless.failure _ hfailure) (.inl rfl)
  · cases h

/-- There is a seat for every shard at every point of an epoch. -/
theorem seated_of_run {s₀ : System α} {choices : List Choice}
    (hopened : Opened config clock model shards bank s₀) (hrun : s₀.run? choices = some s)
    {w : WorkerId} (hw : w.index < shards.length) : ∃ seat, s.seat? w = some seat := by
  refine System.run_induction (P := fun s => ∃ seat, s.seat? w = some seat) ?_ ?_ hrun
  · rintro s s' choice ⟨seat, hseat⟩ hs
    obtain ⟨seat', hseat', -⟩ := System.touched_seated hs hseat
    exact ⟨seat', hseat'⟩
  · rw [hopened.seats w, List.getElem?_eq_getElem hw]
    exact ⟨_, rfl⟩

/-- Every epoch that begins can account for its bank at every point of its way. -/
theorem accounted_of_run {s₀ : System α} {choices : List Choice}
    (hstart : start config clock model shards bank = .ok s₀) (hrun : s₀.run? choices = some s) :
    Accounted config clock shards bank s := by
  obtain ⟨-, -, hopened⟩ := opened_of_start hstart
  have hcustody : s.Custody s₀.bank := System.run_induction System.Custody.step hopened.custody hrun
  have hblameless : s.Blameless :=
    System.run_induction System.Blameless.step hopened.blameless hrun
  have htrained : s.Trained (config.policy clock) bank.spec (fun w => (bank.take w).1) shards :=
    System.run_induction System.Trained.step hopened.trained hrun
  have hseated {w : WorkerId} (hw : w.index < shards.length) := seated_of_run hopened hrun hw
  have hothers : ∀ w, shards.length ≤ w.index →
      s.bank.stored.find? w = bank.stored.find? w := by
    intro w hw
    have hnone : s.seat? w = none := by
      by_contra hsome
      obtain ⟨seat, hseat⟩ := Option.ne_none_iff_exists'.1 hsome
      obtain ⟨shard, hshard, -⟩ := htrained w seat hseat
      have := (List.getElem?_eq_some_iff.1 hshard).1
      omega
    rw [hcustody.others w hnone, hopened.stored w, if_neg (by omega)]
  refine ⟨hcustody.spec.trans hopened.spec, hothers, ?own, ?complete,
    fun result h => went_of_result? hcustody hblameless h⟩
  case own =>
    intro w o hw
    obtain ⟨seat, hseat⟩ := hseated hw
    rw [hcustody.own w seat hseat, Seat.returned?_eq_some]
    constructor
    · rintro ⟨hj, ⟨loss, hp⟩, ho⟩
      obtain ⟨shard, hshard, hworker⟩ := htrained w seat hseat
      exact ⟨seat, shard, loss, hseat, hshard, hj, hp, ho, ho ▸ hworker.finished hp⟩
    · rintro ⟨found, shard, loss, hfound, -, hj, hp, ho, -⟩
      cases hseat.symm.trans hfound
      exact ⟨hj, ⟨loss, hp⟩, ho⟩
  case complete =>
    intro all w
    rw [Dict.contains, Dict.contains]
    by_cases hw : w.index < shards.length
    · obtain ⟨seat, hseat⟩ := hseated hw
      have hreturned := Seat.returned?_eq_some.2
        ⟨all.joined w seat hseat, all.finished w seat hseat, rfl⟩
      rw [hcustody.own w seat hseat, hreturned]
      simp [hw]
    · rw [hothers w (by omega)]
      simp [hw]

/-- No optimizer is lost, doubled or swapped by an epoch. One that is refused leaves the bank as it
    was. At every point of one that begins, whatever turns its actors take, the bank holds for a
    worker exactly the optimizer that this worker has finished with, and for all other numbers what
    it held before; and when all workers have finished, it holds one for each of them. -/
theorem optimizers_accounted (config : FederatedConfig) (clock : Clock) (model : Affine α)
    (shards : List (List (Batch α))) (bank : Bank α) :
    (∀ board left cause, Leaves config clock model shards bank board left →
      left.result = .error (.error (.config cause)) → left.bank = bank) ∧
    ∀ s₀ choices s, start config clock model shards bank = .ok s₀ → s₀.run? choices = some s →
      Accounted config clock shards bank s := by
  refine ⟨fun board left cause hleft hresult => ?_,
    fun s₀ choices s hstart hrun => accounted_of_run hstart hrun⟩
  have hstart := (hleft.refused_iff cause).1 hresult
  cases hleft with
  | refused => rfl
  | passed hbegun =>
    rw [hbegun] at hstart
    cases hstart

/-- Two workers, of one batch and of two, that synchronize before every batch but the first, over a
    bank with an optimizer for the first of them and one for a sixth; and an epoch over the same
    bank that is refused. -/
theorem optimizers_accounted_pair :
    let config : FederatedConfig := { syncEvery := 1 }
    let clock : Clock := fun _ i => Nat.pow 10 18 + i
    let model : Affine Float32 := Affine.ofWeights (Matrix.zeros 1 1)
    let batch : Batch Float32 := ⟨Matrix.ofFn 2 1 fun i _ => Scalar.ofCount i,
      Matrix.ofFn 2 1 fun i _ => Scalar.ofCount (i + 1)⟩
    let shards := [[batch], [batch, batch]]
    let spec : OptimizerSpec Float32 := .momentum Scalar.one Scalar.zero
    let bank := ((Bank.ofSpec spec).restore ⟨0⟩ spec.build).restore ⟨5⟩ spec.build
    let choices : List Choice :=
      [.act ⟨0⟩, .receive, .act ⟨1⟩, .act ⟨1⟩, .act ⟨1⟩, .receive, .act ⟨1⟩, .act ⟨0⟩, .receive,
        .receive, .act ⟨0⟩, .receive, .act ⟨1⟩, .join ⟨0⟩, .act ⟨1⟩, .act ⟨1⟩, .join ⟨1⟩, .stop]
    (run config model [[batch], []] bank Board.empty clock).bank = bank ∧
      ∃ s₀ s, start config clock model shards bank = .ok s₀ ∧ s₀.run? choices = some s ∧
        s.bank.stored.keys = [⟨0⟩, ⟨1⟩, ⟨5⟩] ∧ Accounted config clock shards bank s := by
  intro config clock model batch shards spec bank choices
  obtain ⟨-, hbegun⟩ := optimizers_accounted config clock model shards bank
  have hempty := (optimizers_accounted config clock model [[batch], []] bank).1 Board.empty _
    (.emptyShard ⟨1⟩) (leaves_run ..) rfl
  have hstart : start config clock model shards bank =
      .ok (initial config clock model shards bank) := start_eq (by simp [shards]) (by simp [shards])
  have hrun : ((initial config clock model shards bank).run? choices).map
      (fun s => s.bank.stored.keys) = some [⟨0⟩, ⟨1⟩, ⟨5⟩] := by
    decide +kernel
  obtain ⟨s, hs, hkeys⟩ := Option.map_eq_some_iff.1 hrun
  exact ⟨hempty, _, s, hstart, hs, hkeys, hbegun _ choices s hstart hs⟩

end Epoch

end Federated
