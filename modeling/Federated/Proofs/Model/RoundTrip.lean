/-
  Federated.Proofs.Model.RoundTrip

  Parameters survive their text if all their elements are finite, and no text is read as other
  parameters than those it was written for.

    * `Tensor.ofJson?_toJson`, `Tensor.ofJson?_toJson_eq_none` — a tensor is read back whole, or
      refused for an element that is not finite.
    * `Params.tensorsOfJson?_ofMembers` — named tensors are read back under whatever names.
    * `Params.writable_toJson` — the written object has a text of its own.
    * `Params.ofText?_text` — the text of parameters is read as these parameters, or refused.
-/
import Federated.Model.Json
import Federated.Proofs.Json.Fields
import Federated.Proofs.Model.Layout

namespace Federated

/-! ## Shapes -/

/-- The extents of a shape that can be stored are counts of 64 bits. -/
theorem le_countLimit_of_isStorable {shape : List Nat} (h : isStorable shape = true) :
    ∀ n ∈ shape, n ≤ countLimit := by
  intro n hn
  have hlimit : extentLimit ≤ countLimit := by decide
  exact (le_extentLimit_of_isStorable h n hn).trans hlimit

/-! ## Tensors -/

namespace Tensor

variable {t : Tensor Float32}

/-- The reader takes the shape and the elements that were written, and a tensor has as many
    elements as its shape holds. -/
theorem ofJson?_toJson (storable : isStorable t.shape = true)
    (reads : ∀ x ∈ t.data.toList, SingleReads x) : ofJson? t.toJson = some t := by
  have hversion : (Json.ofCount formatVersion).count? = some formatVersion :=
    Json.count?_ofCount (by decide)
  have hshape : (Json.array (t.shape.map .ofCount)).list? Json.count? = some t.shape :=
    Json.list?_map fun n hn => Json.count?_ofCount (le_countLimit_of_isStorable storable n hn)
  have hdata : (Json.array (t.data.toList.map .ofSingle)).list? Json.single? =
      some t.data.toList :=
    Json.list?_map fun x hx => singleReads_iff.1 (reads x hx)
  show (List.foldlM Parts.take {} _).bind _ = _
  simp [Parts.take, hversion, hshape, hdata, ofData?, storable, t.size_eq]

/-- An element that is not finite is written as null, which is no element. -/
theorem ofJson?_toJson_eq_none (h : ∃ x ∈ t.data.toList, Scalar.isFinite x = false) :
    ofJson? t.toJson = none := by
  have hdata : (Json.array (t.data.toList.map .ofSingle)).list? Json.single? = none := by
    obtain ⟨x, hx, hinfinite⟩ := h
    exact Json.list?_map_eq_none ⟨x, hx, by rw [ofSingle_eq_null hinfinite]; rfl⟩
  show (List.foldlM Parts.take {} _).bind _ = _
  simp [Parts.take, hdata]

theorem writable_toJson (t : Tensor Float32) : t.toJson.Writable := by
  refine Json.writable_ofMembers ?_
  simp

end Tensor

/-! ## Parameters -/

namespace Params

/-- The shapes of all tensors can be given storage, as those of tensors in memory were. -/
def Storable (p : Params Float32) : Prop :=
  ∀ t ∈ p.tensors.values, isStorable t.shape = true

/-- The elements of all tensors. -/
def elements (p : Params Float32) : List Float32 :=
  p.tensors.values.flatMap (·.data.toList)

variable {p : Params Float32}

/-- Bindings in name order are taken over as they are. -/
theorem ofList_entries (p : Params Float32) : ofList p.tensors.entries = p :=
  congrArg Params.mk p.tensors.ofList_entries

/-- The written object is read tensor by tensor, each under its own name. -/
theorem tensorsOfJson?_ofMembers (entries : List (String × Tensor Float32)) :
    tensorsOfJson? (.ofMembers (entries.map fun e => (e.1, e.2.toJson))) =
      (entries.mapM fun e => (Tensor.ofJson? e.2.toJson).map fun t => (e.1, t)).map ofList := by
  have hread : (fun e : String × Tensor Float32 => do
      return (String.ofList (← some e.1.toList), ← Tensor.ofJson? e.2.toJson)) =
        fun e => (Tensor.ofJson? e.2.toJson).map fun t => (e.1, t) := by
    funext e
    cases Tensor.ofJson? e.2.toJson <;> simp
  rw [Json.ofMembers, List.map_map, tensorsOfJson?, List.mapM_map]
  refine (congrArg (entries.mapM · >>= fun tensors => some (ofList tensors)) hread).trans ?_
  rw [Option.map_eq_bind]
  rfl

theorem writable_toJson (p : Params Float32) : p.toJson.Writable := by
  refine Json.writable_ofMembers (List.forall_mem_singleton.2 (Json.writable_ofMembers ?_))
  intro m hm
  obtain ⟨e, -, rfl⟩ := List.mem_map.1 hm
  exact e.2.writable_toJson

/-- The text of parameters is read tensor by tensor. -/
theorem ofText?_text_eq (p : Params Float32) : ofText? p.text =
    (p.tensors.entries.mapM fun e => (Tensor.ofJson? e.2.toJson).map fun t => (e.1, t)).map
      ofList := by
  rw [ofText?, text, Json.parse?_text (writable_toJson p), Option.bind_some]
  simp [ofJson?, toJson, Json.Record.required?, tensorsOfJson?_ofMembers]

/-- Parameters survive their text. If all elements are finite, and their numbers read back, then the
    names, the shapes and the elements that are read are those that were written. If some element is
    infinite or no number, then nothing is read at all. -/
theorem ofText?_text (p : Params Float32) :
    (p.Storable → (∀ x ∈ p.elements, Scalar.isFinite x = true → SingleReads x) →
        (∀ x ∈ p.elements, Scalar.isFinite x = true) → ofText? p.text = some p) ∧
      ((∃ x ∈ p.elements, Scalar.isFinite x = false) → ofText? p.text = none) := by
  rw [ofText?_text_eq]
  constructor
  · intro storable reads hfinite
    have htensors : ∀ t ∈ p.tensors.values, Tensor.ofJson? t.toJson = some t := fun t ht =>
      Tensor.ofJson?_toJson (storable t ht) fun x hx =>
        have hmem : x ∈ p.elements := List.mem_flatMap.2 ⟨t, ht, hx⟩
        reads x hmem (hfinite x hmem)
    rw [mapM_eq_some (g := id) fun e he => by rw [htensors e.2 (List.mem_map_of_mem he)]; rfl,
      List.map_id]
    exact congrArg some p.ofList_entries
  · rintro ⟨x, hx, hinfinite⟩
    obtain ⟨t, ht, hx⟩ := List.mem_flatMap.1 hx
    obtain ⟨e, he, rfl⟩ := List.mem_map.1 ht
    have hnone := Tensor.ofJson?_toJson_eq_none ⟨x, hx, hinfinite⟩
    rw [mapM_eq_none ⟨e, he, by rw [hnone]; rfl⟩]
    rfl

/-- A scalar, a matrix without columns and a vector, under names with a quote, a control character
    and a character beyond the basic plane, come back as they are; with an infinite element beside
    them nothing does. -/
theorem ofText?_text_names :
    let p : Params Float32 := .ofList
      [("scale \"\\\x7f", ⟨[], #[.ofBits 0x80000000], rfl⟩), ("\x01", ⟨[2, 0], #[], rfl⟩),
        ("𝛃", ⟨[3], #[.ofBits 1, .ofBits 0x7f7fffff, narrow 0.1], rfl⟩)]
    let q := p.insert "bias" ⟨[1], #[.ofBits 0x7f800000], rfl⟩
    (p.Storable ∧ (∀ x ∈ p.elements, Scalar.isFinite x = true → SingleReads x) ∧
        (∀ x ∈ p.elements, Scalar.isFinite x = true) ∧ ofText? p.text = some p) ∧
      (∃ x ∈ q.elements, Scalar.isFinite x = false) ∧ ofText? q.text = none := by
  intro p q
  have storable : ∀ t ∈ p.tensors.values, isStorable t.shape = true := by decide +kernel
  have reads : ∀ x ∈ p.elements, Scalar.isFinite x = true → SingleReads x := by
    simp only [singleReads_iff]
    decide +kernel
  have hfinite : ∀ x ∈ p.elements, Scalar.isFinite x = true := by decide +kernel
  have hinfinite : ∃ x ∈ q.elements, Scalar.isFinite x = false := by decide +kernel
  exact ⟨⟨storable, reads, hfinite, (ofText?_text p).1 storable reads hfinite⟩,
    hinfinite, (ofText?_text q).2 hinfinite⟩

end Params

end Federated
