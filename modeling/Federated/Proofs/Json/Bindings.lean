/-
  Federated.Proofs.Json.Bindings

  Objects that bind the same fields. A record is read from an object by looking each of its
  fields up, so its members may be written in any order, among members of other names, under
  any name of their field, and with defaults written out or not.

    * `Field`, `Schema` — the fields of a record, and how the value of each may be written.
    * `Schema.Edit`, `Schema.Same` — an object rewritten in one place, and in any number of places.
    * `Schema.Repeats` — an object that writes a field twice, itself or inside the value of a field.
    * `Schema.Edit.agree` — in both objects of an edit every field is found alike.
    * `Schema.Edit.bind_record?`, `Schema.Repeats.bind_record?` — what becomes of a reader that
      looks fields up: it reads the same from both objects of an edit, and nothing from an object
      with a repeated field.
-/
import Federated.Proofs.Json.Fields

namespace Federated

namespace Json

/-- The members of an object, as they are written. -/
abbrev Members := List (JsonText × Json)

/-! ## Fields -/

/-- A field of a record, and in how many ways its value may be written. -/
structure Field where
  /-- The names that it goes by. -/
  names : List String
  /-- The values that say what leaving the field out says. -/
  IsDefault : Json → Prop := fun _ => False
  /-- Two spellings of one value. -/
  Same : Json → Json → Prop := fun _ _ => False
  /-- The values that write a field of their own twice. -/
  Repeats : Json → Prop := fun _ => False

namespace Field

/-- A field that must be written. -/
def required (name : String) : Field := { names := [name] }

/-- A field that is read by `f`. What is read as the default may be left out. -/
def optional {β : Type} (names : List String) (f : Json → Option β) (default : β) : Field :=
  { names, IsDefault := fun v => f v = some default }

/-- A member that is written for the field. -/
def Binds (f : Field) (m : JsonText × Json) : Prop := m.1 ∈ f.names.map fun n => some n.toList

instance (f : Field) : DecidablePred f.Binds := fun m =>
  inferInstanceAs (Decidable (m.1 ∈ f.names.map fun n => some n.toList))

/-- The value that members bind a field to. The outer option is none if it is written twice. -/
def binding? (f : Field) (ms : Members) : Option (Option Json) :=
  match ms.filter (f.Binds ·) with
  | [] => some none
  | [m] => some (some m.2)
  | _ => none

variable {f : Field} {m m' : JsonText × Json} {ms ms' : Members}

theorem binds_name {n : String} (hn : n ∈ f.names) (v : Json) : f.Binds (some n.toList, v) :=
  List.mem_map_of_mem hn

theorem binding?_of_absent (h : ∀ m ∈ ms, ¬ f.Binds m) : f.binding? ms = some none := by
  have hms : ms.filter (f.Binds ·) = [] := by
    simpa [List.filter_eq_nil_iff] using fun name v => h (name, v)
  rw [binding?, hms]

theorem binding?_cons_of_not (h : ¬ f.Binds m) : f.binding? (m :: ms) = f.binding? ms := by
  rw [binding?, binding?, List.filter_cons_of_neg (by simpa using h)]

/-- A first member for a field is what the field is bound to, unless there is a second. -/
theorem binding?_cons (h : f.Binds m) :
    f.binding? (m :: ms) = if ∀ n ∈ ms, ¬ f.Binds n then some (some m.2) else none := by
  rw [binding?, List.filter_cons_of_pos (by simpa using h)]
  cases hms : ms.filter (f.Binds ·) with
  | nil =>
    have habsent : ∀ n ∈ ms, ¬ f.Binds n := fun n hn => by
      simpa using List.filter_eq_nil_iff.1 hms n hn
    rw [if_pos habsent]
  | cons n rest =>
    have hn : n ∈ ms.filter (f.Binds ·) := hms ▸ List.mem_cons_self
    rw [List.mem_filter, decide_eq_true_iff] at hn
    rw [if_neg fun habsent => habsent n hn.1 hn.2]

theorem binding?_perm (h : ms.Perm ms') : f.binding? ms = f.binding? ms' := by
  have hperm := h.filter (f.Binds ·)
  rw [binding?, binding?]
  generalize ms.filter (f.Binds ·) = found at hperm
  generalize ms'.filter (f.Binds ·) = found' at hperm
  -- one member stays what it is, and of more than one none is the value
  match found, found' with
  | [], _ => rw [← hperm.nil_eq]
  | [m], _ => rw [← hperm.singleton_eq]
  | _ :: _ :: _, [] => cases hperm.length_eq
  | _ :: _ :: _, [_] => cases hperm.length_eq
  | _ :: _ :: _, _ :: _ :: _ => rfl

/-! ### What a reader makes of a field -/

/-- Two lookups of a field that say the same. -/
inductive Agrees (f : Field) : Option (Option Json) → Option (Option Json) → Prop
  | refl (x : Option (Option Json)) : Agrees f x x
  | default {v : Json} (h : f.IsDefault v) : Agrees f (some none) (some (some v))
  | within {v v' : Json} (h : f.Same v v') : Agrees f (some (some v)) (some (some v'))

/-- A lookup that finds the field twice, or bound to a value that repeats a field of its own. -/
def Spoils (f : Field) (x : Option (Option Json)) : Prop :=
  x = none ∨ ∃ v, x = some (some v) ∧ f.Repeats v

/-- A reader that looks a field up under its names, and what it takes the field for that is left
    out: none for a field that must be written. -/
structure ReadBy {β : Type} (f : Field) (names : List String) (g : Json → Option β)
    (default : Option β) : Prop where
  names_eq : f.names = names
  default : ∀ v, f.IsDefault v → g v = default
  same : ∀ v v', f.Same v v' → g v = g v'
  repeats : ∀ v, f.Repeats v → g v = none

section
variable {β : Type} {g : Json → Option β} {default : Option β} {d : β} {names : List String}
  {name : String} {x y : Option (Option Json)}

theorem readBy_required : (required name).ReadBy [name] g none :=
  ⟨rfl, nofun, nofun, nofun⟩

theorem readBy_optional : (optional names g d).ReadBy names g (some d) :=
  ⟨rfl, fun _ => id, nofun, nofun⟩

theorem ReadBy.read_eq (h : f.ReadBy names g default) (hxy : f.Agrees x y) :
    (x.bind fun v => v.elim default g) = y.bind fun v => v.elim default g := by
  cases hxy with
  | refl => rfl
  | default hv => exact (h.default _ hv).symm
  | within hv => exact h.same _ _ hv

theorem ReadBy.read_eq_none (h : f.ReadBy names g default) (hx : f.Spoils x) :
    (x.bind fun v => v.elim default g) = none := by
  obtain rfl | ⟨v, rfl, hv⟩ := hx
  · rfl
  · exact h.repeats v hv

end

end Field

/-! ## Records -/

namespace Record

variable {β : Type} (r : Record) (index : Nat) (names : List String) (g : Json → Option β)

theorem required?_eq :
    r.required? index names g = (r.look? index names).bind fun v => v.elim none g := by
  rw [required?]
  rcases r.look? index names with _ | _ | v <;> rfl

theorem optional?_eq (default : β) :
    r.optional? index names g default =
      (r.look? index names).bind fun v => v.elim (some default) g := by
  rw [optional?]
  rcases r.look? index names with _ | _ | v <;> rfl

end Record

namespace Field

/-- Two records in which a field is found alike. -/
def AgreesOn (f : Field) (r r' : Record) : Prop :=
  ∀ index, f.Agrees (r.look? index f.names) (r'.look? index f.names)

/-- A record that a field spoils. -/
def SpoilsOn (f : Field) (r : Record) : Prop := ∀ index, f.Spoils (r.look? index f.names)

section
variable {f : Field} {r r' : Record} {names : List String} {β : Type} {g : Json → Option β} {d : β}
  {index : Nat}

theorem AgreesOn.required? (h : f.AgreesOn r r') (hf : f.ReadBy names g none) :
    r.required? index names g = r'.required? index names g := by
  obtain rfl := hf.names_eq
  rw [r.required?_eq, r'.required?_eq]
  exact hf.read_eq (h index)

theorem AgreesOn.optional? (h : f.AgreesOn r r') (hf : f.ReadBy names g (some d)) :
    r.optional? index names g d = r'.optional? index names g d := by
  obtain rfl := hf.names_eq
  rw [r.optional?_eq, r'.optional?_eq]
  exact hf.read_eq (h index)

theorem SpoilsOn.required? (h : f.SpoilsOn r) (hf : f.ReadBy names g none) :
    r.required? index names g = none := by
  obtain rfl := hf.names_eq
  rw [r.required?_eq]
  exact hf.read_eq_none (h index)

theorem SpoilsOn.optional? (h : f.SpoilsOn r) (hf : f.ReadBy names g (some d)) :
    r.optional? index names g d = none := by
  obtain rfl := hf.names_eq
  rw [r.optional?_eq]
  exact hf.read_eq_none (h index)

end

end Field

/-! ## Objects as records -/

/-- Members whose names can all be read. -/
def Readable (ms : Members) : Prop := ∀ m ∈ ms, m.1 ≠ none

section
variable {ms : Members}

theorem Readable.exists_name (h : Readable ms) {m : JsonText × Json} (hm : m ∈ ms) :
    ∃ cs, m.1 = some cs :=
  Option.ne_none_iff_exists'.1 (h m hm)

theorem record?_of_not_readable (h : ¬ Readable ms) (arity : Nat) :
    (object ms).record? arity = none := by
  unfold Readable at h
  push Not at h
  obtain ⟨m, hm, hname⟩ := h
  have hms : ms.mapM (fun (m : JsonText × Json) => m.1.map fun cs => (cs, m.2)) = none :=
    mapM_eq_none ⟨m, hm, by rw [hname]; rfl⟩
  rw [record?, hms]
  rfl

/-- An object is a record if all its names are readable. -/
theorem record?_of_readable (h : Readable ms) (arity : Nat) :
    (object ms).record? arity = some (.named (ms.map fun m => (m.1.getD [], m.2))) := by
  have hms : ms.mapM (fun (m : JsonText × Json) => m.1.map fun cs => (cs, m.2)) =
      some (ms.map fun m => (m.1.getD [], m.2)) := by
    refine mapM_eq_some fun m hm => ?_
    obtain ⟨cs, hcs⟩ := h.exists_name hm
    rw [hcs]
    rfl
  rw [record?, hms]
  rfl

/-- What is looked up in the record of an object is what its members bind. -/
theorem look?_of_readable (h : Readable ms) (f : Field) (index : Nat) :
    (Record.named (ms.map fun m => (m.1.getD [], m.2))).look? index f.names = f.binding? ms := by
  have hfilter : ms.filter ((fun (m : List Char × Json) => f.names.any (·.toList == m.1)) ∘
      fun (m : JsonText × Json) => (m.1.getD [], m.2)) = ms.filter (f.Binds ·) := by
    refine List.filter_congr fun m hm => ?_
    obtain ⟨cs, hcs⟩ := h.exists_name hm
    rw [Bool.eq_iff_iff]
    simp [Field.Binds, hcs]
  rw [Record.look?, List.filter_map, hfilter, Field.binding?]
  rcases ms.filter (f.Binds ·) with _ | ⟨m, _ | ⟨n, rest⟩⟩ <;> rfl

end

/-! ## Schemas -/

/-- The fields of a record. No two of them share a name. -/
structure Schema where
  fields : List Field
  distinct : (fields.flatMap Field.names).Nodup

namespace Schema

variable {t : Schema}

theorem eq_of_binds {f f' : Field} {m : JsonText × Json} (hf : f ∈ t.fields) (hf' : f' ∈ t.fields)
    (hm : f.Binds m) (hm' : f'.Binds m) : f = f' := by
  by_contra hne
  have hsymm : Std.Symm (Function.onFun List.Disjoint Field.names) :=
    ⟨fun _ _ => List.Disjoint.symm⟩
  have hdisjoint : List.Disjoint f.names f'.names :=
    (List.nodup_flatMap.1 t.distinct).2.forall hf hf' hne
  obtain ⟨n, hn, hname⟩ := List.mem_map.1 hm
  obtain ⟨n', hn', hname'⟩ := List.mem_map.1 hm'
  have heq : n' = n := String.toList_inj.1 (Option.some.inj (hname'.trans hname.symm))
  exact hdisjoint hn (heq ▸ hn')

/-- An object rewritten in one place. Members stand in any order, so it is enough to say what may
    happen to the first. Names are texts: a member whose name cannot be read is nowhere added. -/
inductive Edit (t : Schema) : Members → Members → Prop
  /-- The members in another order. -/
  | permute {ms ms' : Members} (h : ms.Perm ms') : Edit t ms ms'
  /-- One more member, of a name that no field has and of any value. -/
  | ignored {ms : Members} (name : List Char) (value : Json)
      (h : ∀ f ∈ t.fields, ∀ n ∈ f.names, n.toList ≠ name) :
      Edit t ms ((some name, value) :: ms)
  /-- A field that has been left out, with its default. -/
  | default {ms : Members} {f : Field} {n : String} {v : Json} (hf : f ∈ t.fields)
      (hn : n ∈ f.names) (absent : ∀ m ∈ ms, ¬ f.Binds m) (hv : f.IsDefault v) :
      Edit t ms ((some n.toList, v) :: ms)
  /-- A field under another of its names. -/
  | rename {ms : Members} {f : Field} {n n' : String} {v : Json} (hf : f ∈ t.fields)
      (hn : n ∈ f.names) (hn' : n' ∈ f.names) :
      Edit t ((some n.toList, v) :: ms) ((some n'.toList, v) :: ms)
  /-- A field with its value in another spelling. -/
  | within {ms : Members} {f : Field} {n : String} {v v' : Json} (hf : f ∈ t.fields)
      (hn : n ∈ f.names) (hv : f.Same v v') :
      Edit t ((some n.toList, v) :: ms) ((some n.toList, v') :: ms)

/-- Members that bind the same: each come of the other by edits, made and undone. -/
def Same (t : Schema) : Members → Members → Prop := Relation.EqvGen t.Edit

/-- Members among which a field is written twice, under one of its names or two of them, or
    written with a value that repeats a field of its own. -/
inductive Repeats (t : Schema) (ms : Members) : Prop
  | twice {f : Field} {n n' : String} {v v' : Json} {rest : Members} (hf : f ∈ t.fields)
      (hn : n ∈ f.names) (hn' : n' ∈ f.names)
      (h : ms.Perm ((some n.toList, v) :: (some n'.toList, v') :: rest))
  | within {f : Field} {n : String} {v : Json} (hf : f ∈ t.fields) (hn : n ∈ f.names)
      (hm : (some n.toList, v) ∈ ms) (hv : f.Repeats v)

/-- Two objects whose members bind the same. -/
def SameObject (t : Schema) (v v' : Json) : Prop :=
  ∃ ms ms', v = .object ms ∧ v' = .object ms' ∧ t.Same ms ms'

/-- An object with a repeated field. -/
def RepeatsObject (t : Schema) (v : Json) : Prop := ∃ ms, v = .object ms ∧ t.Repeats ms

/-- A field with a default whose value may be an object of these fields. -/
def asField {β : Type} (t : Schema) (names : List String) (f : Json → Option β) (default : β) :
    Field :=
  { Field.optional names f default with Same := t.SameObject, Repeats := t.RepeatsObject }

/-! ### Edits -/

variable {ms ms' : Members}

theorem Edit.readable_iff (h : t.Edit ms ms') : Readable ms ↔ Readable ms' := by
  cases h with
  | permute h => simp only [Readable, h.mem_iff]
  | ignored => simp [Readable]
  | default => simp [Readable]
  | rename => simp [Readable]
  | within => simp [Readable]

/-- In both objects of an edit every field is found alike. -/
theorem Edit.agree (h : t.Edit ms ms') {f : Field} (hf : f ∈ t.fields) :
    f.Agrees (f.binding? ms) (f.binding? ms') := by
  cases h with
  | permute h =>
    rw [Field.binding?_perm h]
    exact .refl _
  | ignored name value h =>
    have hother : ¬ f.Binds (some name, value) := by
      intro hname
      obtain ⟨n, hn, hname⟩ := List.mem_map.1 hname
      exact h f hf n hn (Option.some.inj hname)
    rw [Field.binding?_cons_of_not hother]
    exact .refl _
  -- a member of the field itself is looked at, one of another field is not: they share no name
  | @default _ f' n v hf' hn absent hv =>
    have hbinds := Field.binds_name hn v
    by_cases hm : f.Binds (some n.toList, v)
    · obtain rfl := eq_of_binds hf hf' hm hbinds
      rw [Field.binding?_of_absent absent, Field.binding?_cons hm, if_pos absent]
      exact .default hv
    · rw [Field.binding?_cons_of_not hm]
      exact .refl _
  | @rename rest f' n n' v hf' hn hn' =>
    by_cases hm : f = f'
    · obtain rfl := hm
      rw [Field.binding?_cons (Field.binds_name hn v), Field.binding?_cons (Field.binds_name hn' v)]
      exact .refl _
    · have hother {n : String} (hn : n ∈ f'.names) : ¬ f.Binds (some n.toList, v) :=
        fun h => hm (eq_of_binds hf hf' h (Field.binds_name hn v))
      rw [Field.binding?_cons_of_not (hother hn), Field.binding?_cons_of_not (hother hn')]
      exact .refl _
  | @within rest f' n v v' hf' hn hv =>
    by_cases hm : f.Binds (some n.toList, v)
    · obtain rfl := eq_of_binds hf hf' hm (Field.binds_name hn v)
      rw [Field.binding?_cons hm, Field.binding?_cons (Field.binds_name hn v')]
      split
      · exact .within hv
      · exact .refl _
    · rw [Field.binding?_cons_of_not hm, Field.binding?_cons_of_not (m := (some n.toList, v')) hm]
      exact .refl _

/-- What is looked up in both objects of an edit is the same, so readers read the same. -/
theorem Edit.bind_record? {β : Type} (h : t.Edit ms ms') (arity : Nat) {k : Record → Option β}
    (hk : ∀ r r', (∀ f ∈ t.fields, f.AgreesOn r r') → k r = k r') :
    ((object ms).record? arity).bind k = ((object ms').record? arity).bind k := by
  by_cases hms : Readable ms
  · have hms' := h.readable_iff.1 hms
    rw [record?_of_readable hms, record?_of_readable hms']
    refine hk _ _ fun f hf index => ?_
    rw [look?_of_readable hms, look?_of_readable hms']
    exact h.agree hf
  · rw [record?_of_not_readable hms, record?_of_not_readable (mt h.readable_iff.2 hms)]

theorem Edit.trans_same {ms'' : Members} (h : t.Edit ms ms') (h' : t.Same ms' ms'') :
    t.Same ms ms'' :=
  .trans _ _ _ (.rel _ _ h) h'

/-- What no edit changes is the same for all members that bind the same. -/
theorem Same.eq {β : Type} {g : Members → β} (hg : ∀ ms ms', t.Edit ms ms' → g ms = g ms')
    (h : t.Same ms ms') : g ms = g ms' := by
  induction h with
  | rel ms ms' h => exact hg ms ms' h
  | refl => rfl
  | symm _ _ _ ih => exact ih.symm
  | trans _ _ _ _ _ ih ih' => exact ih.trans ih'

/-- Defaults of different fields say no more together than nothing does. -/
theorem same_defaults (hdefaults : ∀ m ∈ ms, ∃ f ∈ t.fields, ∃ n ∈ f.names,
      m.1 = some n.toList ∧ f.IsDefault m.2)
    (hdistinct : ms.Pairwise fun m m' => ∀ f ∈ t.fields, ¬ (f.Binds m ∧ f.Binds m')) :
    t.Same [] ms := by
  induction ms with
  | nil => exact .refl _
  | cons m ms ih =>
    obtain ⟨hm, hms⟩ := List.pairwise_cons.1 hdistinct
    obtain ⟨⟨f, hf, n, hn, hname, hv⟩, hrest⟩ := List.forall_mem_cons.1 hdefaults
    obtain ⟨name, v⟩ := m
    obtain rfl : name = some n.toList := hname
    have habsent : ∀ m ∈ ms, ¬ f.Binds m := fun m' hm' hbinds =>
      hm m' hm' f hf ⟨Field.binds_name hn v, hbinds⟩
    exact (ih hrest hms).trans _ _ _ (.rel _ _ (.default hf hn habsent hv))

/-! ### Repeated fields -/

theorem Repeats.spoils (h : t.Repeats ms) : ∃ f ∈ t.fields, f.Spoils (f.binding? ms) := by
  cases h with
  | @twice f n n' v v' rest hf hn hn' h =>
    refine ⟨f, hf, .inl ?_⟩
    -- the second member is left behind the first
    rw [Field.binding?_perm h, Field.binding?_cons (Field.binds_name hn v)]
    exact if_neg fun habsent => habsent _ List.mem_cons_self (Field.binds_name hn' v')
  | @within f n v hf hn hm hv =>
    refine ⟨f, hf, ?_⟩
    obtain ⟨before, after, rfl⟩ := List.append_of_mem hm
    rw [Field.binding?_perm List.perm_middle, Field.binding?_cons (Field.binds_name hn v)]
    -- alone it is looked at and refused, next to another one it is a repeat itself
    split
    · exact .inr ⟨v, rfl, hv⟩
    · exact .inl rfl

/-- Nothing is read from an object with a repeated field. -/
theorem Repeats.bind_record? {β : Type} (h : t.Repeats ms) (arity : Nat) {k : Record → Option β}
    (hk : ∀ r, ∀ f ∈ t.fields, f.SpoilsOn r → k r = none) :
    ((object ms).record? arity).bind k = none := by
  by_cases hms : Readable ms
  · obtain ⟨f, hf, hspoils⟩ := h.spoils
    rw [record?_of_readable hms]
    refine hk _ f hf fun index => ?_
    rw [look?_of_readable hms]
    exact hspoils
  · rw [record?_of_not_readable hms]
    rfl

/-- A reader that reads the same from objects that bind the same, and nothing from an object with
    a repeated field, reads a field of such values. -/
theorem readBy_asField {β : Type} {names : List String} {g : Json → Option β} {d : β}
    (hsame : ∀ ms ms', t.Edit ms ms' → g (.object ms) = g (.object ms'))
    (hrepeats : ∀ ms, t.Repeats ms → g (.object ms) = none) :
    (t.asField names g d).ReadBy names g (some d) where
  names_eq := rfl
  default := fun _ => id
  same := by
    rintro _ _ ⟨ms, ms', rfl, rfl, h⟩
    exact h.eq hsame
  repeats := by
    rintro _ ⟨ms, rfl, h⟩
    exact hrepeats ms h

end Schema

end Json

end Federated
