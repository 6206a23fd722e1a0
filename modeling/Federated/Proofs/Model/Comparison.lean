/-
  Federated.Proofs.Model.Comparison

  The comparison of layouts, said without a word of the two searches it is made of. It goes through
  the names of one side and then through those of the other, yet it finds nothing exactly between
  equal layouts, so it is an equivalence. What it reports otherwise depends on which side asks.

    * `Precedes`, `compare_eq_lt_iff` — names are ordered by their code points.
    * `Params.Reported` — the differences that are reported, in order of precedence.
    * `Params.layoutMismatch?_eq_some_iff` — the comparison reports these and no others.
    * `Params.average_foreign_iff` — models compared with the first one alone are all compared.
    * `Params.comparison_settles` — what an assignment and a merge can rely on.
-/
import Federated.Proofs.Averaging.Restriction
import Federated.Proofs.Model.Assignment

namespace Federated

/-! ## Names in order -/

/-- A text comes before another one by its code points: at the first place where the two differ it
    has the lesser one, or it is at its end. -/
def Precedes (a b : String) : Prop := List.Lex (fun c d => c.toNat < d.toNat) a.toList b.toList

theorem compare_eq_lt_iff {a b : String} : compare a b = .lt ↔ Precedes a b := by
  rw [show compare a b = compareOfLessAndEq a b from rfl, compareOfLessAndEq_eq_lt]
  exact Iff.rfl

namespace Params

variable {α : Type}

/-! ## The rules -/

/-- What one side has under a name, if anything, the other side has in the same shape. -/
def Matched (own theirs : Params α) (name : String) : Prop :=
  ∀ t, own.find? name = some t → ∃ u, theirs.find? name = some u ∧ u.shape = t.shape

/-- The difference of the layout of `theirs` from that of `own` that is reported. The least of the
    own names that are not matched comes before all names that only the other side has. -/
inductive Reported (own theirs : Params α) : LayoutMismatch → Prop
  /-- The least of the own names that are not matched is not there on the other side. -/
  | lacking {name : String} {t : Tensor α} (has : own.find? name = some t)
      (lacks : theirs.find? name = none)
      (least : ∀ other, Precedes other name → Matched own theirs other) :
      Reported own theirs (.missing name)
  /-- It is there in another shape: that one was got, the own one was expected. -/
  | reshaped {name : String} {t u : Tensor α} (has : own.find? name = some t)
      (got : theirs.find? name = some u) (differs : u.shape ≠ t.shape)
      (least : ∀ other, Precedes other name → Matched own theirs other) :
      Reported own theirs (.shape name u.shape t.shape)
  /-- All own names are matched, and this is the least of the other side's that is not among
      them. -/
  | surplus {name : String} {u : Tensor α} (matched : ∀ other, Matched own theirs other)
      (has : theirs.find? name = some u) (lacks : own.find? name = none)
      (least : ∀ other, Precedes other name → (theirs.find? other).isSome = true →
        (own.find? other).isSome = true) :
      Reported own theirs (.missing name)

/-! ## The two searches -/

variable {own theirs : Params α} {m : LayoutMismatch}

theorem matched_iff {name : String} : Matched own theirs name ↔
    ∀ t, own.find? name = some t → theirs.tensorMismatch? name t = none := by
  simp only [Matched, tensorMismatch?_eq_none_iff, Option.map_eq_some_iff]

theorem tensorMismatch?_eq_some_iff {name : String} {t : Tensor α} :
    theirs.tensorMismatch? name t = some m ↔
      theirs.find? name = none ∧ m = .missing name ∨
        ∃ u, theirs.find? name = some u ∧ u.shape ≠ t.shape ∧ m = .shape name u.shape t.shape := by
  unfold tensorMismatch?
  cases theirs.find? name with
  | none => simp [eq_comm]
  | some u =>
    by_cases h : t.shape = u.shape
    · simp [h]
    · simp [h, eq_comm]

/-- The search among the own names ends at the least one that is not matched. -/
theorem findSome?_own_eq_some_iff :
    (own.tensors.entries.findSome? fun e => theirs.tensorMismatch? e.1 e.2) = some m ↔
      ∃ name t, own.find? name = some t ∧ theirs.tensorMismatch? name t = some m ∧
        ∀ other, Precedes other name → Matched own theirs other := by
  refine Dict.findSome?_entries_eq_some_iff.trans ?_
  simp only [compare_eq_lt_iff, matched_iff]
  exact exists_congr fun name => exists_congr fun t =>
    and_congr_right fun _ => and_congr_right fun _ => forall_congr' fun other => forall_comm

/-- It finds nothing if all are. -/
theorem findSome?_own_eq_none_iff :
    (own.tensors.entries.findSome? fun e => theirs.tensorMismatch? e.1 e.2) = none ↔
      ∀ other, Matched own theirs other := by
  simp only [matched_iff]
  exact Dict.findSome?_entries_eq_none_iff

/-- The search among the other side's names ends at the least one that is not there. -/
theorem find?_theirs_eq_some_iff {name : String} :
    (theirs.tensors.keys.find? fun name => !own.tensors.contains name) = some name ↔
      (∃ u, theirs.find? name = some u) ∧ own.find? name = none ∧
        ∀ other, Precedes other name → (theirs.find? other).isSome = true →
          (own.find? other).isSome = true := by
  refine Dict.find?_keys_eq_some_iff.trans ?_
  simp only [compare_eq_lt_iff, Dict.contains, Bool.not_eq_true', Bool.not_eq_false',
    Option.isSome_iff_exists, Option.isSome_eq_false_iff, Option.isNone_iff_eq_none]
  exact Iff.rfl

/-- The comparison reports what the rules say, and nothing else. -/
theorem layoutMismatch?_eq_some_iff :
    own.layoutMismatch? theirs = some m ↔ Reported own theirs m := by
  unfold layoutMismatch?
  cases hown : own.tensors.entries.findSome? fun e => theirs.tensorMismatch? e.1 e.2 with
  | some first =>
    obtain ⟨name, t, has, hfirst, least⟩ := findSome?_own_eq_some_iff.1 hown
    constructor
    · rintro ⟨⟩
      obtain ⟨lacks, rfl⟩ | ⟨u, got, differs, rfl⟩ := tensorMismatch?_eq_some_iff.1 hfirst
      · exact .lacking has lacks least
      · exact .reshaped has got differs least
    · intro h
      -- either report is that of the search, and the third one of a search without a result
      refine hown.symm.trans ?_
      cases h with
      | lacking has lacks least =>
        exact findSome?_own_eq_some_iff.2
          ⟨_, _, has, tensorMismatch?_eq_some_iff.2 (.inl ⟨lacks, rfl⟩), least⟩
      | reshaped has got differs least =>
        exact findSome?_own_eq_some_iff.2
          ⟨_, _, has, tensorMismatch?_eq_some_iff.2 (.inr ⟨_, got, differs, rfl⟩), least⟩
      | surplus matched =>
        rw [findSome?_own_eq_none_iff.2 matched] at hown
        cases hown
  | none =>
    have hmatched := findSome?_own_eq_none_iff.1 hown
    simp only [Option.map_eq_some_iff, find?_theirs_eq_some_iff]
    constructor
    · rintro ⟨name, ⟨⟨u, has⟩, lacks, least⟩, rfl⟩
      exact .surplus hmatched has lacks least
    · intro h
      cases h with
      | lacking has lacks =>
        obtain ⟨u, got, -⟩ := hmatched _ _ has
        rw [lacks] at got
        cases got
      | reshaped has got differs =>
        obtain ⟨u, got', hshape⟩ := hmatched _ _ has
        rw [got] at got'
        cases got'
        exact absurd hshape differs
      | surplus _ has lacks least => exact ⟨_, ⟨⟨_, has⟩, lacks, least⟩, rfl⟩

/-- Of two sides that both have a name of their own, each reports its own. -/
example : let own : Params Float32 := ofList [("bias", .zeros [1]), ("weight", .zeros [1, 2])]
    let theirs : Params Float32 := ofList [("offset", .zeros [2]), ("bias", .zeros [1])]
    own.layoutMismatch? theirs = some (.missing "weight") ∧
      theirs.layoutMismatch? own = some (.missing "offset") := by decide +kernel

/-- To find nothing is an equivalence of parameters. -/
theorem equivalence_layoutMismatch? :
    Equivalence fun a b : Params α => a.layoutMismatch? b = none := by
  simp only [layoutMismatch?_eq_none_iff]
  exact ⟨fun _ => rfl, Eq.symm, Eq.trans⟩

/-! ## Merges -/

/-- Models are refused for their layouts exactly if those of some two of them differ, though each is
    compared with that of the least worker alone. -/
theorem average_foreign_iff [Scalar α] {models : List (WorkerId × Params α)}
    {weights : Option (Weights α)} :
    (∃ w m, average models weights = .error (.layout w m)) ↔
      ∃ v w p q, listed? models v = some p ∧ listed? models w = some q ∧
        p.layoutMismatch? q ≠ none := by
  have hlisted : ∀ w p, listed? models w = some p ↔ (w, p) ∈ (Dict.ofList models).entries :=
    fun w p => by rw [Dict.mem_entries_iff, find?_ofList]
  simp only [hlisted, ne_eq, layoutMismatch?_eq_none_iff]
  cases hentries : (Dict.ofList models).entries with
  | nil => simp [average, hentries, pure, Except.pure]
  | cons head others =>
    obtain ⟨v, first⟩ := head
    cases others with
    | nil =>
      rw [average_of_single hentries]
      simp
    | cons e others =>
      cases hf : first.foreignLayout? (e :: others) with
      | some cause =>
        rw [average_of_foreign hentries hf]
        obtain ⟨d, hd, hcause⟩ := List.exists_of_findSome?_eq_some hf
        obtain ⟨m, hm, rfl⟩ := Option.map_eq_some_iff.1 hcause
        have hne : first.layout ≠ d.2.layout := fun heq => by
          rw [layoutMismatch?_eq_none_iff.2 heq] at hm
          cases hm
        exact ⟨fun _ => ⟨v, d.1, first, d.2, List.mem_cons_self, List.mem_cons_of_mem _ hd, hne⟩,
          fun _ => ⟨d.1, m, rfl⟩⟩
      | none =>
        -- what all have in common with the first one they have in common with each other
        have hlayout : ∀ d ∈ (v, first) :: e :: others, d.2.layout = first.layout :=
          List.forall_mem_cons.2 ⟨rfl, foreignLayout?_eq_none_iff.1 hf⟩
        constructor
        · rintro ⟨w, m, h⟩
          cases hr : (weights.getD (Weights.uniform (Dict.ofList models).keys)).restrict
              (Dict.ofList models).keys with
          | error cause =>
            rw [average_of_refused hentries hf hr] at h
            obtain rfl := Except.error.inj h
            exact absurd hr Weights.restrict_ne_layout
          | ok shares =>
            rw [average_of_shares hentries hf hr] at h
            cases h
        · rintro ⟨w, w', p, q, hp, hq, hne⟩
          exact absurd ((hlayout _ hp).trans (hlayout _ hq).symm) hne

/-! ## What can be relied on -/

/-- The comparison of layouts, for all parameters. It finds nothing exactly if both sides have the
    same names with the same shapes, which is an equivalence. Otherwise it reports the least own
    name that is not matched, with both shapes if there are two, and only without one the least name
    that the other side has alone. An assignment leaves the parameters in use as they are if
    something is reported, and else makes them equal to the others, element by element. A merge is
    refused for layouts exactly if the comparison of some two of its models reports something. -/
theorem comparison_settles [Scalar α] :
    (∀ own theirs : Params α, own.layoutMismatch? theirs = none ↔
      ∀ name, (own.find? name).map (·.shape) = (theirs.find? name).map (·.shape)) ∧
    (Equivalence fun a b : Params α => a.layoutMismatch? b = none) ∧
    (∀ (own theirs : Params α) (m : LayoutMismatch),
      own.layoutMismatch? theirs = some m ↔ Reported own theirs m) ∧
    (∀ own theirs : Params α, match own.layoutMismatch? theirs with
      | none => own.assign theirs = .ok theirs ∧ (assignInPlace theirs).run own = .ok () theirs
      | some m => own.assign theirs = .error m ∧
          (assignInPlace theirs).run own = .error (.error (.layout m)) own) ∧
    ∀ (models : List (WorkerId × Params α)) (weights : Option (Weights α)),
      (∃ w m, average models weights = .error (.layout w m)) ↔
        ∃ v w p q, listed? models v = some p ∧ listed? models w = some q ∧
          p.layoutMismatch? q ≠ none := by
  refine ⟨fun _ _ => layoutMismatch?_eq_none_iff.trans layout_eq_iff, equivalence_layoutMismatch?,
    fun _ _ _ => layoutMismatch?_eq_some_iff, fun own theirs => ?_, fun _ _ => average_foreign_iff⟩
  have hassign := assign_eq own theirs
  have hrun := run_assignInPlace own theirs
  cases hm : own.layoutMismatch? theirs with
  | none =>
    rw [hm] at hassign hrun
    exact ⟨hassign, hrun⟩
  | some m =>
    rw [hm] at hassign hrun
    exact ⟨hassign, hrun⟩

end Params

end Federated
