/-
  Federated.Proofs.Basic

  General facts that proofs in several places rest on: about computations that can be refused, and
  about lists, arrays and dictionaries. Nothing here mentions training.

    * `ok_of_bind`, `of_check`, `mapM_eq_ok` — what is known of a computation that has a result, and
      when there is one.
    * `split_of_getElem?`, `replicate_append_perm`, `map_modify` — lists and arrays.
    * `Dict.card_keys` — the size of a dictionary.
-/
import Federated.Dict
import Mathlib

namespace Federated

variable {α β ε : Type}

/-! ## Computations that can be refused -/

/-- A computation in two parts has a result only if both have one. -/
theorem ok_of_bind {x : Except ε α} {f : α → Except ε β} {b : β} (h : (x >>= f) = .ok b) :
    ∃ a, x = .ok a ∧ f a = .ok b := by
  cases x with
  | error e => cases h
  | ok a => exact ⟨a, rfl, h⟩

theorem ok_of_mapError {ε' : Type} {g : ε → ε'} {x : Except ε α} {a : α}
    (h : x.mapError g = .ok a) : x = .ok a := by
  cases x with
  | error e => cases h
  | ok b => cases h; rfl

/-- What passes a check is as the check demands. -/
theorem of_check {p : Prop} [Decidable p] {e : ε}
    (h : (if p then Except.ok () else .error e) = .ok ()) : p := by
  by_contra hp
  rw [if_neg hp] at h
  cases h

/-- Where a computation succeeds on all members of a list, it does so on the list. -/
theorem mapM_eq_ok {f : α → Except ε β} {g : α → β} {l : List α}
    (h : ∀ x ∈ l, f x = .ok (g x)) : l.mapM f = .ok (l.map g) := by
  induction l with
  | nil => rfl
  | cons x l ih =>
    obtain ⟨hx, hl⟩ := List.forall_mem_cons.1 h
    rw [List.mapM_cons, hx, ih hl]
    rfl

/-! ## Lists and arrays -/

/-- A list falls into what stands before a place, and what stands behind it. -/
theorem split_of_getElem? {l : List α} {j : Nat} {a : α} (h : l[j]? = some a) :
    ∃ before after, l = before ++ a :: after ∧ before.length = j := by
  obtain ⟨hlt, rfl⟩ := List.getElem?_eq_some_iff.1 h
  refine ⟨l.take j, l.drop (j + 1), ?_, by rw [List.length_take]; omega⟩
  rw [← List.drop_eq_getElem_cons hlt, List.take_append_drop]

/-- To repeat two lists one behind the other is to repeat each of them, up to the order. -/
theorem replicate_append_perm (n : Nat) (xs ys : List α) :
    (List.replicate n (xs ++ ys)).flatten.Perm
      ((List.replicate n xs).flatten ++ (List.replicate n ys).flatten) := by
  induction n with
  | zero => exact .nil
  | succ n ih =>
    simp only [List.replicate_succ, List.flatten_cons]
    refine (ih.append_left (xs ++ ys)).trans ?_
    simp only [List.append_assoc]
    refine List.Perm.append_left xs ?_
    simp only [← List.append_assoc]
    exact List.perm_append_comm.append_right _

/-- To map an array with one member changed is to change the member of the mapped array. -/
theorem map_modify {g : α → β} {f : α → α} {f' : β → β} (h : ∀ x, g (f x) = f' (g x))
    (xs : Array α) (i : Nat) : (xs.modify i f).map g = (xs.map g).modify i f' := by
  apply Array.ext_getElem?
  intro j
  rw [Array.getElem?_map, Array.getElem?_modify, Array.getElem?_modify, Array.getElem?_map]
  split
  · cases xs[j]? with
    | none => rfl
    | some x => exact congrArg some (h x)
  · rfl

/-! ## Dictionaries -/

/-- A dictionary has as many bindings as there are keys bound in it. -/
theorem Dict.card_keys {κ ν : Type} [Ord κ] [Std.TransOrd κ] [DecidableEq κ] (d : Dict κ ν) :
    d.keys.toFinset.card = d.size :=
  (List.toFinset_card_of_nodup d.nodup_keys).trans (List.length_map _)

end Federated
