/-
  Federated.Proofs.Optimizer.Bank

  A bank in use. Optimizers are taken out, used, and restored under whatever numbers, others come
  from elsewhere, and the bank's learning rate is set in between. What a worker is handed depends on
  the last thing that was done under its number, and on the rates that were set since.

    * `Workshop`, `Workshop.run?` — a bank with the optimizers outside of it, and what is done
      there.
    * `lastRate`, `Held` — the rate and the numbers that a history leaves.
    * `Optimizer.Alike`, `OptimizerSpec.Makes` — an optimizer as it was, and a fresh one, at any
      rate.
    * `Workshop.find?_call`, `Workshop.find?_run` — what becomes of an entry, in one call and in
      many.
    * `Workshop.isSome_find?_iff` — the entries are those of the numbers that are held.
    * `Workshop.hands_out` — what is handed out after every history.
-/
import Federated.Proofs.Optimizer.Histories

namespace Federated

variable {α : Type}

/-! ## Entries and rates -/

theorem Optimizer.withRate_rate (o : Optimizer α) : o.withRate o.rate = o := by
  cases o <;> rfl

theorem OptimizerSpec.withRate_rate (s : OptimizerSpec α) : s.withRate s.rate = s := by
  cases s <;> rfl

theorem OptimizerSpec.withRate_withRate (s : OptimizerSpec α) (r r' : α) :
    (s.withRate r).withRate r' = s.withRate r' := by
  cases s <;> rfl

/-- Optimizers that differ in nothing but their rates: what they have accumulated, and how they go
    on from there, is the same. -/
inductive Optimizer.Alike : Optimizer α → Optimizer α → Prop
  | descent (r r' : α) : Alike (.descent ⟨r⟩) (.descent ⟨r'⟩)
  | momentum (r r' mu : α) (velocity : Dict String (Tensor α)) :
    Alike (.momentum ⟨r, mu, velocity⟩) (.momentum ⟨r', mu, velocity⟩)
  | adam (r r' beta1 beta2 epsilon power1 power2 : α) (moments : Dict String (Moments α)) :
    Alike (.adam ⟨r, beta1, beta2, epsilon, power1, power2, moments⟩)
      (.adam ⟨r', beta1, beta2, epsilon, power1, power2, moments⟩)

theorem Optimizer.alike_withRate (o : Optimizer α) (rate : α) : (o.withRate rate).Alike o := by
  cases o with
  | descent o => exact .descent _ _
  | momentum o => exact .momentum _ _ _ _
  | adam o => exact .adam _ _ _ _ _ _ _ _

/-- Optimizers of a kind with its hyperparameters, at any rate, that have accumulated nothing. -/
inductive OptimizerSpec.Makes [Scalar α] : OptimizerSpec α → Optimizer α → Prop
  | descent (r r' : α) : Makes (.descent r) (.descent ⟨r'⟩)
  | momentum (r r' mu : α) : Makes (.momentum r mu) (.momentum ⟨r', mu, Dict.empty⟩)
  | adam (r r' beta1 beta2 epsilon : α) : Makes (.adam r beta1 beta2 epsilon)
      (.adam ⟨r', beta1, beta2, epsilon, Scalar.one, Scalar.one, Dict.empty⟩)

theorem OptimizerSpec.makes_build [Scalar α] (s : OptimizerSpec α) (rate : α) :
    s.Makes (s.withRate rate).build := by
  cases s with
  | descent r => exact .descent r rate
  | momentum r mu => exact .momentum r rate mu
  | adam r beta1 beta2 epsilon => exact .adam r rate beta1 beta2 epsilon

/-! ## Calls -/

/-- A bank, and the optimizers that are outside of it, by the places where they lie. -/
structure Workshop (α : Type) where
  bank : Bank α
  bench : Dict Nat (Optimizer α)

namespace Workshop

/-- What is done in a workshop. -/
inductive Call (α : Type) where
  /-- A worker's optimizer is taken out of the bank, to a place on the bench. -/
  | take (w : WorkerId) (place : Nat)
  /-- The optimizer at a place is restored as that of a worker. -/
  | restore (w : WorkerId) (place : Nat)
  /-- The bank's learning rate is set. -/
  | setRate (rate : α)
  /-- The optimizer at a place is used. -/
  | use (place : Nat) (use : Optimizer.Use α)
  /-- An optimizer from elsewhere is brought to a place. -/
  | bring (place : Nat) (o : Optimizer α)

/-- The worker under whose number something is done. -/
def Call.worker? : Call α → Option WorkerId
  | .take w _ => some w
  | .restore w _ => some w
  | .setRate _ => none
  | .use _ _ => none
  | .bring _ _ => none

/-- Nothing of what is done is done under a worker's number. -/
def Spares (w : WorkerId) (calls : List (Call α)) : Prop := ∀ c ∈ calls, c.worker? ≠ some w

/-- A worker's optimizer is in the bank: restoring it was the last thing done under its number. -/
def Held (history : List (Call α)) (w : WorkerId) : Prop :=
  ∃ before place later, history = before ++ .restore w place :: later ∧ Spares w later

/-- The rate that the bank was given last. -/
def lastRate (rate : α) : List (Call α) → α
  | [] => rate
  | .setRate rate :: later => lastRate rate later
  | .take _ _ :: later => lastRate rate later
  | .restore _ _ :: later => lastRate rate later
  | .use _ _ :: later => lastRate rate later
  | .bring _ _ :: later => lastRate rate later

theorem lastRate_cons (rate : α) (c : Call α) (later : List (Call α)) :
    lastRate rate (c :: later) = lastRate (lastRate rate [c]) later := by
  cases c <;> rfl

/-- The last thing done under a worker's number, if there is any. -/
theorem exists_last (history : List (Call α)) (w : WorkerId) : Spares w history ∨
    ∃ before c later, history = before ++ c :: later ∧ c.worker? = some w ∧ Spares w later := by
  induction history with
  | nil => exact .inl fun c hc => nomatch hc
  | cons c history ih =>
    obtain hspares | ⟨before, d, later, rfl, hd, hlater⟩ := ih
    · by_cases hc : c.worker? = some w
      · exact .inr ⟨[], c, history, rfl, hc, hspares⟩
      · exact .inl (List.forall_mem_cons.2 ⟨hc, hspares⟩)
    · exact .inr ⟨c :: before, d, later, rfl, hd, hlater⟩

variable [Scalar α]

/-- A workshop at first, with nothing in its bank. -/
def ofSpec (spec : OptimizerSpec α) : Workshop α := ⟨.ofSpec spec, Dict.empty⟩

/-- A workshop after a call. Only an optimizer that is outside can be restored or used. -/
def call? (s : Workshop α) : Call α → Option (Workshop α)
  | .take w place => some ⟨(s.bank.take w).2, s.bench.insert place (s.bank.take w).1⟩
  | .restore w place => do
    let o ← s.bench.find? place
    return ⟨s.bank.restore w o, s.bench.erase place⟩
  | .setRate rate => some { s with bank := s.bank.withRate rate }
  | .use place use => do
    let o ← s.bench.find? place
    return { s with bench := s.bench.insert place (o.after use) }
  | .bring place o => some { s with bench := s.bench.insert place o }

/-- A workshop after calls, one after another. -/
def run? (s : Workshop α) (calls : List (Call α)) : Option (Workshop α) := calls.foldlM call? s

theorem run?_cons (s : Workshop α) (c : Call α) (later : List (Call α)) :
    s.run? (c :: later) = (s.call? c).bind (·.run? later) := List.foldlM_cons

theorem run?_append (s : Workshop α) (calls later : List (Call α)) :
    s.run? (calls ++ later) = (s.run? calls).bind (·.run? later) := List.foldlM_append

variable {s s' : Workshop α} {c : Call α} {w : WorkerId}

/-! ## One call -/

/-- An entry is what has been restored under its number. -/
theorem find?_restore {place : Nat} (h : s.call? (.restore w place) = some s') :
    ∃ o, s.bench.find? place = some o ∧ s'.bank.stored.find? w = some o := by
  obtain ⟨o, ho, h⟩ := Option.bind_eq_some_iff.1 h
  cases h
  exact ⟨o, ho, (s.bank.find?_restore w w o).trans (if_pos rfl)⟩

/-- Nothing is left of what has been taken. -/
theorem find?_take {place : Nat} (h : s.call? (.take w place) = some s') :
    s'.bank.stored.find? w = none := by
  cases h
  exact (s.bank.find?_take w w).trans (if_pos rfl)

/-- An entry is changed by what is done under its number, and apart from that only in its rate, if
    that is set. -/
theorem find?_call (h : s.call? c = some s') (hc : c.worker? ≠ some w) :
    s'.bank.stored.find? w =
      (s.bank.stored.find? w).map fun o => o.withRate (lastRate o.rate [c]) := by
  have hsame : (s.bank.stored.find? w).map (fun o => o.withRate o.rate) =
      s.bank.stored.find? w := by
    simp only [Optimizer.withRate_rate, Option.map_id']
  cases c with
  | take v place =>
    cases h
    have hne : w ≠ v := fun heq => hc (congrArg some heq.symm)
    exact ((s.bank.find?_take v w).trans (if_neg hne)).trans hsame.symm
  | restore v place =>
    obtain ⟨o, -, h⟩ := Option.bind_eq_some_iff.1 h
    cases h
    have hne : w ≠ v := fun heq => hc (congrArg some heq.symm)
    exact ((s.bank.find?_restore v w o).trans (if_neg hne)).trans hsame.symm
  | setRate rate =>
    cases h
    exact Dict.find?_mapValues _ _ w
  | use place use =>
    obtain ⟨o, -, h⟩ := Option.bind_eq_some_iff.1 h
    cases h
    exact hsame.symm
  | bring place o =>
    cases h
    exact hsame.symm

/-- The hyperparameters of a bank change only in their rate, if that is set. -/
theorem spec_call (h : s.call? c = some s') :
    s'.bank.spec = s.bank.spec.withRate (lastRate s.bank.spec.rate [c]) := by
  cases c with
  | take v place =>
    cases h
    exact s.bank.spec.withRate_rate.symm
  | restore v place =>
    obtain ⟨o, -, h⟩ := Option.bind_eq_some_iff.1 h
    cases h
    exact s.bank.spec.withRate_rate.symm
  | setRate rate =>
    cases h
    rfl
  | use place use =>
    obtain ⟨o, -, h⟩ := Option.bind_eq_some_iff.1 h
    cases h
    exact s.bank.spec.withRate_rate.symm
  | bring place o =>
    cases h
    exact s.bank.spec.withRate_rate.symm

/-! ## Histories -/

/-- While nothing is done under its number, an entry gets the rates that are set, and is kept
    apart from that. -/
theorem find?_run {calls : List (Call α)} (h : s.run? calls = some s') (hspares : Spares w calls) :
    s'.bank.stored.find? w =
      (s.bank.stored.find? w).map fun o => o.withRate (lastRate o.rate calls) := by
  induction calls generalizing s with
  | nil =>
    cases h
    simp only [lastRate, Optimizer.withRate_rate, Option.map_id']
  | cons c calls ih =>
    obtain ⟨hc, hcalls⟩ := List.forall_mem_cons.1 hspares
    rw [run?_cons] at h
    obtain ⟨next, hnext, hrest⟩ := Option.bind_eq_some_iff.1 h
    rw [ih hrest hcalls, find?_call hnext hc, Option.map_map]
    congr 1
    funext o
    rw [Function.comp_apply, Optimizer.rate_withRate, Optimizer.withRate_withRate, ← lastRate_cons]

theorem spec_run {calls : List (Call α)} (h : s.run? calls = some s') :
    s'.bank.spec = s.bank.spec.withRate (lastRate s.bank.spec.rate calls) := by
  induction calls generalizing s with
  | nil =>
    cases h
    exact (OptimizerSpec.withRate_rate _).symm
  | cons c calls ih =>
    rw [run?_cons] at h
    obtain ⟨next, hnext, hrest⟩ := Option.bind_eq_some_iff.1 h
    rw [ih hrest, spec_call hnext, OptimizerSpec.rate_withRate, OptimizerSpec.withRate_withRate,
      ← lastRate_cons]

/-- A run by its calls up to one of them, this one, and those behind it. -/
theorem run?_split {before later : List (Call α)} (h : s.run? (before ++ c :: later) = some s') :
    ∃ s₀ s₁, s.run? before = some s₀ ∧ s₀.call? c = some s₁ ∧ s₁.run? later = some s' := by
  rw [run?_append] at h
  obtain ⟨s₀, hbefore, h⟩ := Option.bind_eq_some_iff.1 h
  rw [run?_cons] at h
  obtain ⟨s₁, hc, hlater⟩ := Option.bind_eq_some_iff.1 h
  exact ⟨s₀, s₁, hbefore, hc, hlater⟩

section
variable {spec : OptimizerSpec α} {history : List (Call α)}

/-- The entry of a worker whose optimizer was restored last. -/
theorem find?_of_restored {place : Nat} {before later : List (Call α)}
    (hrun : s.run? (before ++ .restore w place :: later) = some s') (hspares : Spares w later) :
    ∃ s₀ o, s.run? before = some s₀ ∧ s₀.bench.find? place = some o ∧
      s'.bank.stored.find? w = some (o.withRate (lastRate o.rate later)) := by
  obtain ⟨s₀, s₁, hbefore, hrestore, hlater⟩ := run?_split hrun
  obtain ⟨o, ho, hentry⟩ := find?_restore hrestore
  refine ⟨s₀, o, hbefore, ho, ?_⟩
  rw [find?_run hlater hspares, hentry]
  rfl

/-- A worker whose optimizer was not restored last has no entry. -/
theorem find?_of_not_held (hrun : (ofSpec spec).run? history = some s) (h : ¬ Held history w) :
    s.bank.stored.find? w = none := by
  obtain hspares | ⟨before, c, later, rfl, hc, hlater⟩ := exists_last history w
  · rw [find?_run hrun hspares]
    rfl
  · obtain ⟨s₀, s₁, -, hcall, hrest⟩ := run?_split hrun
    cases c with
    | take v place =>
      obtain rfl : v = w := Option.some.inj hc
      rw [find?_run hrest hlater, find?_take hcall]
      rfl
    | restore v place =>
      obtain rfl : v = w := Option.some.inj hc
      exact absurd ⟨before, place, later, rfl, hlater⟩ h
    | setRate rate => cases hc
    | use place use => cases hc
    | bring place o => cases hc

theorem isSome_find?_iff (hrun : (ofSpec spec).run? history = some s) :
    (s.bank.stored.find? w).isSome = true ↔ Held history w := by
  by_cases h : Held history w
  · refine iff_of_true ?_ h
    obtain ⟨before, place, later, rfl, hspares⟩ := h
    obtain ⟨s₀, o, -, -, hentry⟩ := find?_of_restored hrun hspares
    rw [hentry]
    rfl
  · refine iff_of_false ?_ h
    rw [find?_of_not_held hrun h]
    exact Bool.false_ne_true

/-- After every history a worker is handed the optimizer that was restored last under its number, if
    none was taken since: as it was then, at the rate that was set last since then. Otherwise it is
    handed a fresh one of the bank's kind and hyperparameters, at the rate that was set last.
    Nothing is left under its number, what is done under a number leaves all others alone, and the
    bank counts the numbers that are held. -/
theorem hands_out (hrun : (ofSpec spec).run? history = some s) (w : WorkerId) :
    (∀ before place later, history = before ++ .restore w place :: later → Spares w later →
      ∃ s₀ o, (ofSpec spec).run? before = some s₀ ∧ s₀.bench.find? place = some o ∧
        (s.bank.take w).1.Alike o ∧ (s.bank.take w).1.rate = lastRate o.rate later) ∧
    (¬ Held history w → spec.Makes (s.bank.take w).1 ∧
      (s.bank.take w).1.rate = lastRate spec.rate history) ∧
    (s.bank.take w).2.stored.find? w = none ∧
    (∀ c s', c.worker? = some w → s.call? c = some s' →
      ∀ v, v ≠ w → s'.bank.stored.find? v = s.bank.stored.find? v) ∧
    ∃ held : Finset WorkerId, (∀ v, v ∈ held ↔ Held history v) ∧ s.bank.size = held.card := by
  have htake : (s.bank.take w).1 = (s.bank.stored.find? w).getD s.bank.spec.build := rfl
  refine ⟨?_, fun h => ?_, (s.bank.find?_take w w).trans (if_pos rfl), ?_, ?_⟩
  · rintro before place later rfl hspares
    obtain ⟨s₀, o, hbefore, ho, hentry⟩ := find?_of_restored hrun hspares
    refine ⟨s₀, o, hbefore, ho, ?_⟩
    rw [htake, hentry, Option.getD_some]
    exact ⟨o.alike_withRate _, o.rate_withRate _⟩
  · rw [htake, find?_of_not_held hrun h, Option.getD_none, spec_run hrun]
    refine ⟨spec.makes_build _, ?_⟩
    rw [OptimizerSpec.rate_build, OptimizerSpec.rate_withRate]
    rfl
  · intro c s' hc hcall v hne
    -- to take and to restore is not to set a rate
    have hrate : ∀ rate, lastRate rate [c] = rate := by
      intro rate
      cases c with
      | setRate rate => cases hc
      | _ => rfl
    rw [find?_call hcall (hc.trans_ne fun heq => hne (Option.some.inj heq).symm)]
    simp only [hrate, Optimizer.withRate_rate, Option.map_id']
  · refine ⟨s.bank.stored.keys.toFinset, fun v => ?_, s.bank.stored.card_keys.symm⟩
    rw [List.mem_toFinset, Dict.mem_keys_iff, isSome_find?_iff hrun]

end

/-- A velocity of 2 is restored, then the rate is set to 3, and what is handed out has both. Another
    worker is handed a fresh optimizer with this rate. -/
theorem hands_out_velocity :
    let single (x : ℚ) : Params ℚ := Params.empty.insert "weight" (.ofFn [1] fun _ => x)
    let spec : OptimizerSpec ℚ := .momentum 1 (1 / 2)
    let before : List (Call ℚ) := [.take ⟨0⟩ 0, .use 0 (.update (single 2) (single 1))]
    let history := before ++ .restore ⟨0⟩ 0 :: [.setRate 3]
    ∃ s, (ofSpec spec).run? history = some s ∧ Spares ⟨0⟩ [Call.setRate (3 : ℚ)] ∧
      (s.bank.take ⟨0⟩).1.rate = 3 ∧ (∃ o, (s.bank.take ⟨0⟩).1.Alike o ∧
        o.keptAt "weight" 0 = [2]) ∧
      ¬ Held history ⟨1⟩ ∧ (s.bank.take ⟨1⟩).1.rate = 3 ∧ spec.Makes (s.bank.take ⟨1⟩).1 := by
  intro single spec before history
  obtain ⟨s, hrun⟩ : ∃ s, (ofSpec spec).run? history = some s :=
    Option.isSome_iff_exists.1 (by decide +kernel)
  have hspares : Spares ⟨0⟩ [Call.setRate (3 : ℚ)] := by
    intro c hc
    obtain rfl := List.mem_singleton.1 hc
    exact nofun
  have hfree : ¬ Held history ⟨1⟩ := by
    rintro ⟨front, place, later, heq, -⟩
    have hmem : Call.restore ⟨1⟩ place ∈ history := by simp [heq]
    simp [history, before] at hmem
  obtain ⟨s₀, o, hbefore, ho, halike, hrate⟩ := (hands_out hrun ⟨0⟩).1 before 0 _ rfl hspares
  obtain ⟨hmakes, hfresh⟩ := (hands_out hrun ⟨1⟩).2.1 hfree
  refine ⟨s, hrun, hspares, hrate, ⟨o, halike, ?_⟩, hfree, hfresh, hmakes⟩
  have hkept : (((ofSpec spec).run? before).bind fun s₀ =>
      (s₀.bench.find? 0).map fun o => o.keptAt "weight" 0) = some [2] := by
    decide +kernel
  rw [hbefore, Option.bind_some, ho] at hkept
  exact Option.some.inj hkept

end Workshop

end Federated
