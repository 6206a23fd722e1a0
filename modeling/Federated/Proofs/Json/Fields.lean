/-
  Federated.Proofs.Json.Fields

  What a reader of a record finds in what was written: fields under their names, counts, and
  numbers as far as their texts read back.

    * `Json.list?_map`, `Json.list?_map_eq_none` — lists are read item by item.
    * `Json.record?_ofMembers`, `Json.Record.look?_ofMembers` — what a record finds of an object
      that was written.
    * `Json.count?_ofCount` — a count is read back.
    * `SingleReads`, `DoubleReads` — the text of a number reads back as this number.
    * `ofSingle_eq_null` — a single that is not finite is written as no number.
-/
import Federated.Json.Record
import Federated.Proofs.Json.RoundTrip
import Federated.Proofs.Numeric.Finite

namespace Federated

/-! ## Items -/

/-- A list is computed item by item if every item is. -/
theorem mapM_eq_some {β γ : Type} {f : β → Option γ} {g : β → γ} {xs : List β}
    (h : ∀ x ∈ xs, f x = some (g x)) : xs.mapM f = some (xs.map g) := by
  induction xs with
  | nil => rfl
  | cons x xs ih =>
    rw [List.mapM_cons, h x List.mem_cons_self, ih fun y hy => h y (List.mem_cons_of_mem _ hy)]
    rfl

/-- One item that is refused spoils the list. -/
theorem mapM_eq_none {β γ : Type} {f : β → Option γ} {xs : List β} (h : ∃ x ∈ xs, f x = none) :
    xs.mapM f = none := by
  induction xs with
  | nil => simp at h
  | cons x xs ih =>
    rw [List.mapM_cons]
    cases hx : f x with
    | none => rfl
    | some y =>
      have hxs : ∃ x ∈ xs, f x = none := by simpa [hx] using h
      rw [ih hxs]
      rfl

namespace Json

section
variable {β : Type} {f : β → Json} {g : Json → Option β} {xs : List β}

/-- A list whose items are read back is read back itself. -/
theorem list?_map (h : ∀ x ∈ xs, g (f x) = some x) : (array (xs.map f)).list? g = some xs := by
  rw [list?, List.mapM_map]
  exact (mapM_eq_some h).trans (congrArg some xs.map_id)

theorem list?_map_eq_none (h : ∃ x ∈ xs, g (f x) = none) : (array (xs.map f)).list? g = none := by
  rw [list?, List.mapM_map]
  exact mapM_eq_none h

end

/-! ## Fields of a record -/

namespace Record

/-- The record of readable members. -/
def ofMembers (members : List (String × Json)) : Record :=
  .named (members.map fun m => (m.1.toList, m.2))

/-- What is written for a field is the value of the only member with one of its names. -/
@[simp] theorem look?_ofMembers (members : List (String × Json)) (index : Nat)
    (names : List String) : (ofMembers members).look? index names =
      match members.filter fun m => m.1 ∈ names with
      | [] => some none
      | [m] => some (some m.2)
      | _ => none := by
  have hnames : ((fun (m : List Char × Json) => names.any (·.toList == m.1)) ∘
      fun (m : String × Json) => (m.1.toList, m.2)) = fun m => decide (m.1 ∈ names) := by
    funext m
    rw [Bool.eq_iff_iff]
    simp [String.toList_inj]
  rw [ofMembers, look?, List.filter_map, hnames]
  generalize members.filter (fun m => decide (m.1 ∈ names)) = found
  match found with
  | [] => rfl
  | [m] => rfl
  | m :: n :: ms => rfl

end Record

/-- An object with readable names is a record of its members. -/
@[simp] theorem record?_ofMembers (members : List (String × Json)) (arity : Nat) :
    (ofMembers members).record? arity = some (Record.ofMembers members) := by
  have hmembers : (members.map fun m => (some m.1.toList, m.2)).mapM
      (fun (m : JsonText × Json) => m.1.map fun cs => (cs, m.2)) =
      some (members.map fun m => (m.1.toList, m.2)) := by
    rw [List.mapM_map]
    exact mapM_eq_some fun _ _ => rfl
  rw [ofMembers, record?, hmembers]
  rfl

theorem count?_ofCount {n : Nat} (h : n ≤ countLimit) : (ofCount n).count? = some n := by
  show Numeral.count? (Numeral.ofCount n) = some n
  simp [Numeral.count?, Numeral.isInteger, Numeral.ofCount, Digit.toCount_ofCount, h]

theorem nullable?_ofOption {β : Type} {f : β → Json} {g : Json → Option β} {x : Option β}
    (hnull : ∀ y, f y ≠ .null) (h : ∀ y ∈ x, g (f y) = some y) :
    nullable? g (ofOption f x) = some x := by
  cases x with
  | none => rfl
  | some y =>
    rw [ofOption, nullable?, h y rfl, Option.map_some]
    exact hnull y

end Json

/-! ## Numbers -/

/-- The text of a single reads back as this single. -/
def SingleReads (x : Float32) : Prop :=
  (Json.parse? (Json.ofSingle x).text).bind Json.single? = some x

/-- The text of a double reads back as this double. -/
def DoubleReads (x : Float) : Prop :=
  (Json.parse? (Json.ofDouble x).text).bind Json.double? = some x

/-- It is enough to look at the value that is written: its text is read as this value. -/
theorem singleReads_iff {x : Float32} :
    SingleReads x ↔ (Json.ofSingle x).single? = some x := by
  rw [SingleReads, Json.parse?_text (Json.writable_ofSingle x), Option.bind_some]

theorem doubleReads_iff {x : Float} : DoubleReads x ↔ (Json.ofDouble x).double? = some x := by
  rw [DoubleReads, Json.parse?_text (Json.writable_ofDouble x), Option.bind_some]

/-- A single that is not finite has no value to be spelled. -/
theorem ofSingle_eq_null {x : Float32} (h : Scalar.isFinite x = false) :
    Json.ofSingle x = .null := by
  have hspelling : Numeral.ofSingle? x = none := by
    rw [Numeral.ofSingle?]
    cases hx : singleValue x with
    | finite negative significand exponent =>
      rw [isFinite_of_singleValue hx] at h
      cases h
    | nan => rfl
    | infinite negative => rfl
  rw [Json.ofSingle, hspelling]
  rfl

end Federated
