/-
  Federated.Dict

  Dictionaries in key order: a list of bindings, strictly ascending by key. The order is part
  of the type, so two dictionaries that bind the same keys to the same values are equal, and
  every traversal visits the keys in the same order whatever order they were put in.

    * `find?_insert`, `find?_ofList` — what a look-up sees after bindings were put in.
    * `mem_entries_iff` — the bindings are what look-ups find.
    * `entries_ofList` — a list that is ascending already is taken over as it is.
    * `ext_find?` — equal look-ups make equal dictionaries.
    * `mem_keys_iff`, `nodup_keys` — the keys are what look-ups find something under, each once.
    * `findSome?_entries_eq_some_iff`, `find?_keys_eq_some_iff` — a search in key order ends at the
      least key of those that it does not pass over.
-/

namespace Federated

/-- Bindings in strictly ascending key order. -/
def KeySorted {κ ν : Type} [Ord κ] (es : List (κ × ν)) : Prop :=
  es.Pairwise fun a b => compare a.1 b.1 = .lt

/-- A dictionary, its bindings in key order. -/
structure Dict (κ ν : Type) [Ord κ] where
  entries : List (κ × ν)
  sorted : KeySorted entries

namespace Dict

variable {κ ν μ : Type} [Ord κ]

/-! ## Bindings in a list -/

/-- Puts a binding at its place, in place of one with the same key. -/
def insertEntry (k : κ) (v : ν) : List (κ × ν) → List (κ × ν)
  | [] => [(k, v)]
  | e :: es =>
    match compare k e.1 with
    | .lt => (k, v) :: e :: es
    | .eq => (k, v) :: es
    | .gt => e :: insertEntry k v es

/-- The value bound to a key. -/
def lookup (k : κ) : List (κ × ν) → Option ν
  | [] => none
  | e :: es =>
    match compare k e.1 with
    | .eq => some e.2
    | _ => lookup k es

/-- What is in a list after an insertion is the new binding or was there before. -/
theorem mem_insertEntry {k : κ} {v : ν} {e : κ × ν} {es : List (κ × ν)}
    (h : e ∈ insertEntry k v es) : e = (k, v) ∨ e ∈ es := by
  induction es with
  | nil => simpa [insertEntry] using h
  | cons d ds ih =>
    unfold insertEntry at h
    split at h
    · simpa using h
    · rcases List.mem_cons.1 h with h | h
      · exact .inl h
      · exact .inr (List.mem_cons_of_mem _ h)
    · rcases List.mem_cons.1 h with h | h
      · exact .inr (h ▸ List.mem_cons_self)
      · rcases ih h with h | h
        · exact .inl h
        · exact .inr (List.mem_cons_of_mem _ h)

/-- An insertion keeps the order. -/
theorem keySorted_insertEntry [Std.TransOrd κ] [Std.LawfulEqOrd κ] (k : κ) (v : ν)
    {es : List (κ × ν)} (h : KeySorted es) : KeySorted (insertEntry k v es) := by
  induction es with
  | nil => exact List.pairwise_singleton _ _
  | cons d ds ih =>
    obtain ⟨hd, hds⟩ := List.pairwise_cons.1 h
    unfold insertEntry
    split
    · next hlt =>
      refine List.pairwise_cons.2 ⟨fun e he => ?_, h⟩
      rcases List.mem_cons.1 he with rfl | he
      · exact hlt
      · exact Std.TransCmp.lt_trans hlt (hd e he)
    · next heq =>
      have hk : k = d.1 := Std.LawfulEqCmp.eq_of_compare heq
      exact List.pairwise_cons.2 ⟨fun e he => hk ▸ hd e he, hds⟩
    · next hgt =>
      refine List.pairwise_cons.2 ⟨fun e he => ?_, ih hds⟩
      rcases mem_insertEntry he with rfl | he
      · exact Std.OrientedCmp.lt_of_gt hgt
      · exact hd e he

/-! ## Operations -/

/-- No bindings. -/
def empty : Dict κ ν := ⟨[], List.Pairwise.nil⟩

/-- The value bound to a key. -/
def find? (d : Dict κ ν) (k : κ) : Option ν := lookup k d.entries

/-- Whether a key is bound. -/
def contains (d : Dict κ ν) (k : κ) : Bool := (d.find? k).isSome

/-- Binds a key, in place of an earlier binding. -/
def insert [Std.TransOrd κ] [Std.LawfulEqOrd κ] (d : Dict κ ν) (k : κ) (v : ν) : Dict κ ν :=
  ⟨insertEntry k v d.entries, keySorted_insertEntry k v d.sorted⟩

/-- Drops a binding. -/
def erase (d : Dict κ ν) (k : κ) : Dict κ ν :=
  ⟨d.entries.filter fun e => compare k e.1 != .eq, d.sorted.filter _⟩

/-- Binds one key after another, so that of a repeated key the last binding stays. -/
def insertAll [Std.TransOrd κ] [Std.LawfulEqOrd κ] (d : Dict κ ν) (es : List (κ × ν)) :
    Dict κ ν := es.foldl (fun d e => d.insert e.1 e.2) d

/-- The dictionary of a list of bindings; of a repeated key the last one stays. -/
def ofList [Std.TransOrd κ] [Std.LawfulEqOrd κ] (es : List (κ × ν)) : Dict κ ν :=
  empty.insertAll es

/-- The keys, ascending. -/
def keys (d : Dict κ ν) : List κ := d.entries.map (·.1)

/-- The values, in key order. -/
def values (d : Dict κ ν) : List ν := d.entries.map (·.2)

/-- The number of bindings. -/
def size (d : Dict κ ν) : Nat := d.entries.length

/-- Whether nothing is bound. -/
def isEmpty (d : Dict κ ν) : Bool := d.entries.isEmpty

/-- Ascending order depends on the keys alone. -/
theorem keySorted_of_keys_eq {as : List (κ × ν)} {bs : List (κ × μ)} (h : KeySorted as)
    (hk : bs.map (·.1) = as.map (·.1)) : KeySorted bs := by
  have h' : (as.map (·.1)).Pairwise fun a b => compare a b = .lt := List.pairwise_map.2 h
  rw [← hk] at h'
  exact List.pairwise_map.1 h'

/-- The same keys with other values. -/
def mapValues (f : κ → ν → μ) (d : Dict κ ν) : Dict κ μ :=
  ⟨d.entries.map fun e => (e.1, f e.1 e.2), keySorted_of_keys_eq d.sorted (by simp)⟩

/-- Values computed one by one under the same keys, in order, until one is refused. -/
def traverseEntries {κ ν μ ε : Type} (f : κ → ν → Except ε μ) :
    List (κ × ν) → Except ε (List (κ × μ))
  | [] => .ok []
  | e :: es => do
    let v ← f e.1 e.2
    let rest ← traverseEntries f es
    return (e.1, v) :: rest

/-- Computing values keeps the keys. -/
theorem keys_traverseEntries {κ ν μ ε : Type} {f : κ → ν → Except ε μ} {es : List (κ × ν)}
    {out : List (κ × μ)} (h : traverseEntries f es = .ok out) :
    out.map (·.1) = es.map (·.1) := by
  induction es generalizing out with
  | nil => cases h; rfl
  | cons e es ih =>
    unfold traverseEntries at h
    cases hv : f e.1 e.2 with
    | error x => rw [hv] at h; cases h
    | ok v =>
      rw [hv] at h
      cases hr : traverseEntries f es with
      | error x => rw [hr] at h; cases h
      | ok rest =>
        rw [hr] at h
        cases h
        exact congrArg (e.1 :: ·) (ih hr)

/-- The same keys with values computed in key order, or the first refusal. -/
def traverse {ε : Type} (f : κ → ν → Except ε μ) (d : Dict κ ν) : Except ε (Dict κ μ) :=
  match h : traverseEntries f d.entries with
  | .ok es => .ok ⟨es, keySorted_of_keys_eq d.sorted (keys_traverseEntries h)⟩
  | .error x => .error x

instance : Inhabited (Dict κ ν) := ⟨empty⟩

/-- Two dictionaries agree if they bind the same keys to values that agree. -/
instance [BEq κ] [BEq ν] : BEq (Dict κ ν) := ⟨fun a b => a.entries == b.entries⟩

/-! ## Laws -/

/-- A dictionary is computed exactly when the list of its bindings is. -/
theorem traverse_eq_ok_iff {ε : Type} {f : κ → ν → Except ε μ} {d : Dict κ ν} {d' : Dict κ μ} :
    d.traverse f = .ok d' ↔ traverseEntries f d.entries = .ok d'.entries := by
  unfold traverse
  split
  · next es h =>
    constructor
    · intro heq; cases heq; exact h
    · intro heq
      cases d'
      cases h.symm.trans heq
      rfl
  · next x h => simp [h]

theorem traverse_eq_error_iff {ε : Type} {f : κ → ν → Except ε μ} {d : Dict κ ν} {x : ε} :
    d.traverse f = .error x ↔ traverseEntries f d.entries = .error x := by
  unfold traverse
  split
  · next es h => simp [h]
  · next y h => simp [h]

/-- If all values can be computed then so can the dictionary of them. -/
theorem traverse_eq_ok {ε : Type} {f : κ → ν → Except ε μ} {g : κ → ν → μ} {d : Dict κ ν}
    (h : ∀ e ∈ d.entries, f e.1 e.2 = .ok (g e.1 e.2)) : d.traverse f = .ok (d.mapValues g) := by
  have hentries : ∀ es : List (κ × ν), (∀ e ∈ es, f e.1 e.2 = .ok (g e.1 e.2)) →
      traverseEntries f es = .ok (es.map fun e => (e.1, g e.1 e.2)) := by
    intro es hes
    induction es with
    | nil => rfl
    | cons e es ih =>
      obtain ⟨he, hes⟩ := List.forall_mem_cons.1 hes
      rw [traverseEntries, he, ih hes]
      rfl
  exact traverse_eq_ok_iff.2 (hentries d.entries h)

/-- Values computed and then mapped are computed and mapped one by one. -/
theorem traverse_map {ρ ε : Type} (f : κ → ν → Except ε μ) (g : μ → ρ) (d : Dict κ ν) :
    d.traverse (fun k v => (f k v).map g) =
      (d.traverse f).map fun d' => d'.mapValues fun _ => g := by
  have hentries : ∀ es : List (κ × ν), traverseEntries (fun k v => (f k v).map g) es =
      (traverseEntries f es).map (List.map fun e => (e.1, g e.2)) := by
    intro es
    induction es with
    | nil => rfl
    | cons e es ih =>
      rw [traverseEntries, traverseEntries, ih]
      cases f e.1 e.2 with
      | error x => rfl
      | ok v => cases traverseEntries f es <;> rfl
  cases h : d.traverse f with
  | error x =>
    refine traverse_eq_error_iff.2 ?_
    rw [hentries, traverse_eq_error_iff.1 h]
    rfl
  | ok d' =>
    refine traverse_eq_ok_iff.2 ?_
    rw [hentries, traverse_eq_ok_iff.1 h]
    rfl

theorem mapValues_mapValues {ρ : Type} (d : Dict κ ν) (f : κ → ν → μ) (g : κ → μ → ρ) :
    (d.mapValues f).mapValues g = d.mapValues fun k v => g k (f k v) := by
  unfold mapValues
  congr 1
  rw [List.map_map]
  rfl

@[simp] theorem find?_empty (k : κ) : (empty : Dict κ ν).find? k = none := rfl

/-- The first binding wins. -/
theorem lookup_cons [Std.LawfulEqOrd κ] [DecidableEq κ] (k : κ) (e : κ × ν)
    (es : List (κ × ν)) : lookup k (e :: es) = if k = e.1 then some e.2 else lookup k es := by
  by_cases h : k = e.1
  · subst h; simp [lookup]
  · have hne : compare k e.1 ≠ .eq := fun hc => h (Std.LawfulEqCmp.eq_of_compare hc)
    simp only [lookup, h, if_false]

/-- A look-up after an insertion sees the new binding, and every other key as before. -/
theorem lookup_insertEntry [Std.TransOrd κ] [Std.LawfulEqOrd κ] [DecidableEq κ] (k k' : κ) (v : ν)
    (es : List (κ × ν)) :
    lookup k' (insertEntry k v es) = if k' = k then some v else lookup k' es := by
  induction es with
  | nil => simp [insertEntry, lookup_cons, lookup]
  | cons d ds ih =>
    unfold insertEntry
    split
    · rw [lookup_cons]
    · next heq =>
      have hk : k = d.1 := Std.LawfulEqCmp.eq_of_compare heq
      subst hk
      by_cases h : k' = d.1 <;> simp [lookup_cons, h]
    · next hgt =>
      have hk : k ≠ d.1 := fun hk => by simp [hk] at hgt
      by_cases h : k' = d.1
      · subst h; simp [lookup_cons, Ne.symm hk]
      · simp [lookup_cons, h, ih]

/-- A look-up after a binding sees that binding, and every other key as before. -/
theorem find?_insert [Std.TransOrd κ] [Std.LawfulEqOrd κ] [DecidableEq κ] (d : Dict κ ν)
    (k k' : κ) (v : ν) :
    (d.insert k v).find? k' = if k' = k then some v else d.find? k' :=
  lookup_insertEntry k k' v d.entries

/-- A look-up after bindings in order sees the last one of its key. -/
theorem find?_insertAll [Std.TransOrd κ] [Std.LawfulEqOrd κ] [DecidableEq κ] (d : Dict κ ν)
    (es : List (κ × ν)) (k : κ) :
    (d.insertAll es).find? k =
      ((es.filter fun e => e.1 = k).getLast?.map (·.2)).or (d.find? k) := by
  induction es generalizing d with
  | nil => rfl
  | cons e es ih =>
    rw [show d.insertAll (e :: es) = (d.insert e.1 e.2).insertAll es from rfl, ih, find?_insert]
    by_cases h : e.1 = k
    · subst h
      simp only [List.filter_cons, decide_true, if_true, List.getLast?_cons]
      cases (es.filter fun d => d.1 = e.1).getLast? <;> rfl
    · simp [h, Ne.symm h]

/-- A look-up in the dictionary of a list sees the last binding of its key. -/
theorem find?_ofList [Std.TransOrd κ] [Std.LawfulEqOrd κ] [DecidableEq κ] (es : List (κ × ν))
    (k : κ) : (ofList es).find? k = (es.filter fun e => e.1 = k).getLast?.map (·.2) := by
  rw [ofList, find?_insertAll, find?_empty, Option.or_none]

/-- The keys bound in the dictionary of a list are those of the list. -/
theorem isSome_find?_ofList [Std.TransOrd κ] [Std.LawfulEqOrd κ] [DecidableEq κ]
    {es : List (κ × ν)} {k : κ} :
    ((ofList es).find? k).isSome = true ↔ k ∈ es.map (·.1) := by
  simp [find?_ofList]

/-- A list without a key's bindings looks up every other key as before. -/
theorem lookup_filter_ne [Std.TransOrd κ] [Std.LawfulEqOrd κ] [DecidableEq κ] (k k' : κ)
    (es : List (κ × ν)) :
    lookup k' (es.filter fun e => compare k e.1 != .eq) =
      if k' = k then none else lookup k' es := by
  induction es with
  | nil => simp [lookup]
  | cons e es ih =>
    rw [List.filter_cons]
    by_cases hk : k = e.1
    · have hc : (compare k e.1 != .eq) = false := by simp [hk]
      rw [hc, lookup_cons]
      by_cases h : k' = k
      · simpa [h] using ih
      · simpa [h, ← hk] using ih
    · have hc : (compare k e.1 != .eq) = true := by simpa using hk
      rw [if_pos hc, lookup_cons, lookup_cons, ih]
      by_cases h : k' = e.1
      · subst h; simp [Ne.symm hk]
      · simp [h]

/-- A look-up after a key was dropped sees every other key as before. -/
theorem find?_erase [Std.TransOrd κ] [Std.LawfulEqOrd κ] [DecidableEq κ] (d : Dict κ ν)
    (k k' : κ) : (d.erase k).find? k' = if k' = k then none else d.find? k' :=
  lookup_filter_ne k k' d.entries

/-- A list with new values looks up what became of the old one. -/
theorem lookup_map [Std.LawfulEqOrd κ] (f : κ → ν → μ) (k : κ) (es : List (κ × ν)) :
    lookup k (es.map fun e => (e.1, f e.1 e.2)) = (lookup k es).map (f k) := by
  induction es with
  | nil => rfl
  | cons e es ih =>
    simp only [List.map_cons, lookup]
    split
    · next h => rw [Std.LawfulEqCmp.eq_of_compare h]; rfl
    · exact ih

/-- A look-up among new values sees what became of the old one. -/
theorem find?_mapValues [Std.LawfulEqOrd κ] (d : Dict κ ν) (f : κ → ν → μ) (k : κ) :
    (d.mapValues f).find? k = (d.find? k).map (f k) :=
  lookup_map f k d.entries

/-- A key below every key of a list is not bound in it. -/
theorem lookup_eq_none_of_lt {k : κ} {es : List (κ × ν)}
    (h : ∀ e ∈ es, compare k e.1 = .lt) : lookup k es = none := by
  induction es with
  | nil => rfl
  | cons e es ih =>
    have he := h e List.mem_cons_self
    simp only [lookup, he]
    exact ih fun d hd => h d (List.mem_cons_of_mem _ hd)

/-- What a look-up finds is in the list. -/
theorem mem_of_lookup [Std.LawfulEqOrd κ] {k : κ} {v : ν} {es : List (κ × ν)}
    (h : lookup k es = some v) : (k, v) ∈ es := by
  induction es with
  | nil => cases h
  | cons e es ih =>
    simp only [lookup] at h
    split at h
    · next heq =>
      have hk : k = e.1 := Std.LawfulEqCmp.eq_of_compare heq
      cases h
      exact hk ▸ List.mem_cons_self
    · exact List.mem_cons_of_mem _ (ih h)

/-- In an ascending list a look-up finds every binding. -/
theorem lookup_of_mem [Std.TransOrd κ] [Std.LawfulEqOrd κ] {k : κ} {v : ν} {es : List (κ × ν)}
    (hs : KeySorted es) (h : (k, v) ∈ es) : lookup k es = some v := by
  induction es with
  | nil => cases h
  | cons e es ih =>
    obtain ⟨he, hes⟩ := List.pairwise_cons.1 hs
    simp only [lookup]
    rcases List.mem_cons.1 h with rfl | h
    · simp
    · have hgt : compare k e.1 = .gt := Std.OrientedCmp.gt_of_lt (he (k, v) h)
      simpa only [hgt] using ih hes h

/-- A binding is in a dictionary exactly when a look-up finds it. -/
theorem mem_entries_iff [Std.TransOrd κ] [Std.LawfulEqOrd κ] {d : Dict κ ν} {k : κ} {v : ν} :
    (k, v) ∈ d.entries ↔ d.find? k = some v :=
  ⟨lookup_of_mem d.sorted, mem_of_lookup⟩

/-- A key above every key of a list goes to its end. -/
theorem insertEntry_of_gt {k : κ} {v : ν} {es : List (κ × ν)}
    (h : ∀ e ∈ es, compare k e.1 = .gt) : insertEntry k v es = es ++ [(k, v)] := by
  induction es with
  | nil => rfl
  | cons e es ih =>
    have he := h e List.mem_cons_self
    simp only [insertEntry, he, List.cons_append]
    rw [ih fun d hd => h d (List.mem_cons_of_mem _ hd)]

/-- Ascending bindings above all keys of a dictionary go behind its bindings. -/
theorem entries_insertAll [Std.TransOrd κ] [Std.LawfulEqOrd κ] (d : Dict κ ν)
    {es : List (κ × ν)} (h : KeySorted (d.entries ++ es)) :
    (d.insertAll es).entries = d.entries ++ es := by
  induction es generalizing d with
  | nil => simp [insertAll]
  | cons e es ih =>
    have hcross := (List.pairwise_append.1 h).2.2
    have hlast : (d.insert e.1 e.2).entries = d.entries ++ [e] :=
      insertEntry_of_gt fun a ha =>
        Std.OrientedCmp.gt_of_lt (hcross a ha e List.mem_cons_self)
    have hnext : KeySorted ((d.insert e.1 e.2).entries ++ es) := by
      rw [hlast, List.append_assoc]
      exact h
    calc ((d.insert e.1 e.2).insertAll es).entries
        = (d.insert e.1 e.2).entries ++ es := ih _ hnext
      _ = d.entries ++ e :: es := by rw [hlast, List.append_assoc]; rfl

/-- A list that is ascending already is taken over as it is. -/
theorem entries_ofList [Std.TransOrd κ] [Std.LawfulEqOrd κ] {es : List (κ × ν)}
    (h : KeySorted es) : (ofList es).entries = es :=
  entries_insertAll empty h

/-- Two ascending lists with equal look-ups are equal. -/
theorem entries_eq_of_lookup_eq [Std.TransOrd κ] [Std.LawfulEqOrd κ] {as bs : List (κ × ν)}
    (ha : KeySorted as) (hb : KeySorted bs) (h : ∀ k, lookup k as = lookup k bs) : as = bs := by
  induction as generalizing bs with
  | nil =>
    cases bs with
    | nil => rfl
    | cons b bs => have := h b.1; simp [lookup] at this
  | cons a as ih =>
    obtain ⟨hka, has⟩ := List.pairwise_cons.1 ha
    cases bs with
    | nil => have := h a.1; simp [lookup] at this
    | cons b bs =>
      obtain ⟨hkb, hbs⟩ := List.pairwise_cons.1 hb
      cases hc : compare a.1 b.1 with
      | lt =>
        have hnone : lookup a.1 (b :: bs) = none :=
          lookup_eq_none_of_lt fun e he => by
            rcases List.mem_cons.1 he with rfl | he
            · exact hc
            · exact Std.TransCmp.lt_trans hc (hkb e he)
        have := h a.1
        rw [hnone] at this
        simp [lookup] at this
      | gt =>
        have hlt := Std.OrientedCmp.lt_of_gt hc
        have hnone : lookup b.1 (a :: as) = none :=
          lookup_eq_none_of_lt fun e he => by
            rcases List.mem_cons.1 he with rfl | he
            · exact hlt
            · exact Std.TransCmp.lt_trans hlt (hka e he)
        have := h b.1
        rw [hnone] at this
        simp [lookup] at this
      | eq =>
        have hk : a.1 = b.1 := Std.LawfulEqCmp.eq_of_compare hc
        have hv : a.2 = b.2 := by
          have := h a.1
          simpa [lookup, hk] using this
        have heads : a = b := Prod.ext hk hv
        subst heads
        refine congrArg (a :: ·) (ih has hbs fun k => ?_)
        have := h k
        cases hka' : compare k a.1 with
        | eq =>
          have hkk : k = a.1 := Std.LawfulEqCmp.eq_of_compare hka'
          rw [hkk, lookup_eq_none_of_lt hka, lookup_eq_none_of_lt hkb]
        | lt => simpa only [lookup, hka'] using this
        | gt => simpa only [lookup, hka'] using this

/-- Dictionaries with equal look-ups are equal. -/
theorem ext_find? [Std.TransOrd κ] [Std.LawfulEqOrd κ] {a b : Dict κ ν}
    (h : ∀ k, a.find? k = b.find? k) : a = b := by
  have := entries_eq_of_lookup_eq a.sorted b.sorted h
  cases a; cases b; cases this; rfl

/-- A dictionary is made up of its bindings. -/
theorem ofList_entries [Std.TransOrd κ] [Std.LawfulEqOrd κ] (d : Dict κ ν) :
    ofList d.entries = d := by
  apply ext_find?
  intro k
  rw [find?, entries_ofList d.sorted]
  rfl

/-- The keys are those that a look-up finds something under. -/
theorem mem_keys_iff [Std.TransOrd κ] [Std.LawfulEqOrd κ] [DecidableEq κ] {d : Dict κ ν} {k : κ} :
    k ∈ d.keys ↔ (d.find? k).isSome = true := by
  rw [← d.ofList_entries, isSome_find?_ofList, ofList_entries]
  rfl

/-- No key is bound twice. -/
theorem nodup_keys [Std.TransOrd κ] (d : Dict κ ν) : (d.entries.map (·.1)).Nodup := by
  refine List.pairwise_map.2 (d.sorted.imp fun {a b} hlt heq => ?_)
  rw [show a.1 = b.1 from heq] at hlt
  simp at hlt

/-- Of two bindings of a key the second one stays. -/
theorem insert_insert [Std.TransOrd κ] [Std.LawfulEqOrd κ] [DecidableEq κ] (d : Dict κ ν) (k : κ)
    (v w : ν) : (d.insert k v).insert k w = d.insert k w := by
  apply ext_find?
  intro other
  simp only [find?_insert]
  split <;> rfl

/-- Values taken over from a dictionary into another one replace what is bound there. -/
theorem find?_insertAll_entries [Std.TransOrd κ] [Std.LawfulEqOrd κ] [DecidableEq κ]
    (d d' : Dict κ ν) (k : κ) :
    (d.insertAll d'.entries).find? k = (d'.find? k).or (d.find? k) := by
  rw [find?_insertAll, ← find?_ofList, ofList_entries]

/-- Every key bound anew leaves nothing of the bindings before. -/
theorem insertAll_of_keys_eq [Std.TransOrd κ] [Std.LawfulEqOrd κ] [DecidableEq κ]
    {d d' : Dict κ ν} (h : d'.keys = d.keys) : d.insertAll d'.entries = d' := by
  apply ext_find?
  intro k
  rw [find?_insertAll_entries]
  cases hk : d'.find? k with
  | some v => rfl
  | none =>
    -- a key that is not bound now has not been bound before
    have hnone : ¬(d.find? k).isSome = true := by
      rw [← mem_keys_iff, ← h, mem_keys_iff, hk]
      exact Bool.false_ne_true
    rw [Option.none_or]
    exact Option.not_isSome_iff_eq_none.1 hnone

/-! ## Searches -/

/-- A search in key order finds nothing exactly if it passes over every binding. -/
theorem findSome?_entries_eq_none_iff [Std.TransOrd κ] [Std.LawfulEqOrd κ] {d : Dict κ ν}
    {f : κ → ν → Option μ} :
    (d.entries.findSome? fun e => f e.1 e.2) = none ↔
      ∀ k v, d.find? k = some v → f k v = none := by
  rw [List.findSome?_eq_none_iff]
  exact ⟨fun h k v hv => h (k, v) (mem_entries_iff.2 hv),
    fun h e he => h e.1 e.2 (mem_entries_iff.1 he)⟩

/-- A search in key order ends at the least key of those it does not pass over. -/
theorem findSome?_entries_eq_some_iff [Std.TransOrd κ] [Std.LawfulEqOrd κ] {d : Dict κ ν}
    {f : κ → ν → Option μ} {x : μ} :
    (d.entries.findSome? fun e => f e.1 e.2) = some x ↔
      ∃ k v, d.find? k = some v ∧ f k v = some x ∧
        ∀ k' v', compare k' k = .lt → d.find? k' = some v' → f k' v' = none := by
  rw [List.findSome?_eq_some_iff]
  constructor
  · rintro ⟨before, ⟨k, v⟩, after, hsplit, hx, hbefore⟩
    refine ⟨k, v, mem_entries_iff.1 (by simp [hsplit]), hx, fun k' v' hlt hv' => ?_⟩
    have hsorted := d.sorted
    have hmem := mem_entries_iff.2 hv'
    rw [hsplit] at hsorted hmem
    obtain ⟨-, hrest, -⟩ := List.pairwise_append.1 hsorted
    -- a binding of a lesser key stands neither at the found one nor behind it
    rcases List.mem_append.1 hmem with hmem | hmem
    · exact hbefore _ hmem
    · rcases List.mem_cons.1 hmem with heq | hmem
      · cases heq
        simp at hlt
      · have hgt := (List.pairwise_cons.1 hrest).1 _ hmem
        rw [Std.OrientedCmp.gt_of_lt hgt] at hlt
        cases hlt
  · rintro ⟨k, v, hv, hx, hleast⟩
    obtain ⟨before, after, hsplit⟩ := List.append_of_mem (mem_entries_iff.2 hv)
    refine ⟨before, (k, v), after, hsplit, hx, fun e he => ?_⟩
    have hsorted := d.sorted
    rw [hsplit] at hsorted
    have hlt := (List.pairwise_append.1 hsorted).2.2 e he (k, v) List.mem_cons_self
    exact hleast e.1 e.2 hlt (mem_entries_iff.1 (by simp [hsplit, he]))

/-- So does a search among the keys. -/
theorem find?_keys_eq_some_iff [Std.TransOrd κ] [Std.LawfulEqOrd κ] {d : Dict κ ν}
    {p : κ → Bool} {k : κ} :
    d.keys.find? p = some k ↔ (d.find? k).isSome = true ∧ p k = true ∧
      ∀ k', compare k' k = .lt → (d.find? k').isSome = true → p k' = false := by
  rw [keys, List.find?_eq_findSome?_guard, List.findSome?_map]
  refine (findSome?_entries_eq_some_iff (f := fun k _ => Option.guard p k)).trans ?_
  simp only [Option.guard_eq_some_iff, Option.guard_eq_none_iff, Option.isSome_iff_exists]
  constructor
  · rintro ⟨k, v, hv, ⟨rfl, hp⟩, hleast⟩
    exact ⟨⟨v, hv⟩, hp, fun k' hlt ⟨v', hv'⟩ => hleast k' v' hlt hv'⟩
  · rintro ⟨⟨v, hv⟩, hp, hleast⟩
    exact ⟨k, v, hv, ⟨rfl, hp⟩, fun k' v' hlt hv' => hleast k' hlt ⟨v', hv'⟩⟩

end Dict

end Federated
