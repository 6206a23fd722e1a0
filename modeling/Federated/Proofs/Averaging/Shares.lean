/-
  Federated.Proofs.Averaging.Shares

  What restricted weights can be used for. The weights of the workers are summed in single
  precision and divided by the sum. Every share is a finite single from zero to one, and unless the
  sum is beyond the range of singles, one of them is above zero.

    * `Single.magnitude_share` — a share of a sum is one at most.
    * `Single.exists_share_pos` — not all shares of a finite sum vanish.
    * `Weights.magnitude_of_restrict` — restricted weights by their magnitudes.
    * `Weights.restrict_usable` — restricted weights can be used, but for a sum out of range.
-/
import Federated.Proofs.Averaging.Weights

namespace Federated

namespace Single

open BinaryFormat (single)

/-- One, in units. -/
theorem units_one : single.units 0x3f800000 = 2 ^ single.scale := by decide

/-- A share of a finite sum is one at most. -/
theorem magnitude_share {x y : Float32} {a t : Nat} (hx : Magnitude x a) (hy : Magnitude y t)
    (hle : a ≤ t) (hpos : 0 < t) (hfin : t < single.infinity) :
    ∃ s ≤ 0x3f800000, Magnitude (x / y) s ∧
      (s = 0 → 2 ^ single.scale * (2 * single.units a) ≤ single.units t) := by
  have hden : 0 < single.units t := BinaryFormat.units_pos hpos
  refine ⟨_, (min_le_right _ _).trans ?_, hx.div hy (hle.trans_lt hfin) hpos hfin, fun hzero => ?_⟩
  · have hone := BinaryFormat.nearest_units (f := single) (by decide) hden 0x3f800000
    rw [units_one] at hone
    rw [← hone]
    refine BinaryFormat.nearest_mono (by decide) hden hden (Nat.mul_le_mul_right _ ?_)
    rw [Nat.mul_comm]
    exact Nat.mul_le_mul_left _ (single.units_strictMono.monotone hle)
  · -- a ratio of more than half the least unit would not be rounded to nothing
    refine Nat.le_of_not_lt fun hlt => ?_
    have hleast : single.units 1 = 1 := by decide
    have hhalf : single.units t * (single.units 0 + single.units 1) <
        2 * (single.units a * 2 ^ single.scale) := by
      rw [BinaryFormat.units_zero, hleast]
      linarith
    have hnearest := BinaryFormat.lt_nearest (by decide) hden hhalf
    have hinfinity : 0 < single.infinity := by decide
    omega

/-- Not all shares of a finite sum vanish: terms so small beside it would not have led to it. -/
theorem exists_share_pos {xs : List Float32} (hxs : ∀ x ∈ xs, ∃ a, Magnitude x a) {t : Nat}
    (ht : Magnitude (xs.foldl (· + ·) Scalar.zero) t) (hpos : 0 < t)
    (hfin : t < single.infinity) :
    ∃ x ∈ xs, Scalar.lt Scalar.zero (x / xs.foldl (· + ·) Scalar.zero) = true := by
  by_contra hnone
  push Not at hnone
  obtain ⟨t', ht', -, hall, hbound⟩ := magnitude_foldl hxs magnitude_zero
  obtain rfl := ht'.unique ht
  obtain ⟨b, rfl⟩ : ∃ b, t' = b + 1 := ⟨t' - 1, by omega⟩
  -- the sum cannot have passed the pattern below it
  have hstep : ∀ x ∈ xs, ∀ a, Magnitude x a →
      single.units b + 2 * single.units a < single.units (b + 1) := by
    intro x hx a ha
    obtain ⟨s, -, hs, hsmall⟩ := magnitude_share ha ht (hall x hx a ha) hpos hfin
    have hzero : s = 0 := by
      by_contra hne
      exact hnone x hx ((magnitude_zero.lt_iff hs).2 (Nat.pos_of_ne_zero hne))
    have hsmall := hsmall hzero
    have hgap := single.units_succ_le b
    have hlt := single.units_lt_succ b
    have hscale : 2 * 2 ^ single.fractionBits < 2 ^ single.scale := by decide
    generalize single.units b = low at *
    generalize single.units (b + 1) = high at *
    generalize single.units a = u at *
    by_contra hge
    have hle : high - low ≤ 2 * u := by omega
    have h1 := Nat.mul_le_mul_left (2 ^ single.scale) hle
    have h2 : 2 * 2 ^ single.fractionBits * (high - low) < 2 ^ single.scale * (high - low) :=
      Nat.mul_lt_mul_of_pos_right hscale (by omega)
    omega
  exact absurd (hbound b (Nat.zero_le b) hstep) (by omega)

end Single

/-! ## Restricted weights -/

namespace Weights

variable {ws : Weights Float32} {ids : List WorkerId}

/-- A weight that is summed is that of a worker. -/
theorem exists_find?_of_mem_values {chosen : Weights Float32} {x : Float32}
    (h : x ∈ chosen.byWorker.values) : ∃ w, chosen.find? w = some x := by
  obtain ⟨e, he, rfl⟩ := List.mem_map.1 h
  exact ⟨e.1, Dict.mem_entries_iff.1 he⟩

/-- Restricted weights as magnitudes, beside that of the sum they were divided by. -/
theorem magnitude_of_restrict {shares : Weights Float32} (h : ws.restrict ids = .ok shares) :
    ∃ es t, ws.collect ids = .ok es ∧ Single.Magnitude (ofList es).total t ∧
      (∀ w y, shares.find? w = some y → ∃ s ≤ 0x3f800000, Single.Magnitude y s ∧
        (t = BinaryFormat.single.infinity → s = 0)) ∧
      (t < BinaryFormat.single.infinity →
        ∃ w y, shares.find? w = some y ∧ Scalar.lt Scalar.zero y = true) := by
  obtain ⟨es, hes, htotal, hfind⟩ := restrict_eq_ok h
  have hchosen := magnitude_of_collect hes
  have hxs : ∀ x ∈ (ofList es).byWorker.values, ∃ a, Single.Magnitude x a :=
    fun x hx => (hchosen x hx).imp fun a ha => ha.2
  obtain ⟨t, ht, -, hall, -⟩ := Single.magnitude_foldl hxs Single.magnitude_zero
  change Single.Magnitude (ofList es).total t at ht
  have hpos : 0 < t := Nat.pos_of_ne_zero fun hzero =>
    Bool.eq_false_iff.1 htotal ((ht.le_iff Single.magnitude_zero).2 hzero.le)
  refine ⟨es, t, hes, ht, fun w y hy => ?_, fun hfin => ?_⟩
  · rw [hfind] at hy
    obtain ⟨x, hx, rfl⟩ := Option.map_eq_some_iff.1 hy
    have hmem : x ∈ (ofList es).byWorker.values :=
      List.mem_map.2 ⟨(w, x), Dict.mem_entries_iff.2 hx, rfl⟩
    obtain ⟨a, hfin, ha⟩ := hchosen x hmem
    rcases Nat.lt_or_ge t BinaryFormat.single.infinity with hlt | hge
    · obtain ⟨s, hle, hs, -⟩ := Single.magnitude_share ha ht (hall x hmem a ha) hpos hlt
      exact ⟨s, hle, hs, fun heq => absurd heq hlt.ne⟩
    · obtain rfl := Nat.le_antisymm ht.le_infinity hge
      exact ⟨0, Nat.zero_le _, ha.div_infinity hfin ht, fun _ => rfl⟩
  · obtain ⟨x, hx, hlt⟩ := Single.exists_share_pos hxs ht hpos hfin
    obtain ⟨w, hw⟩ := exists_find?_of_mem_values hx
    exact ⟨w, x / (ofList es).total, by rw [hfind, hw]; rfl, hlt⟩

/-- Restricted weights are finite singles from zero to one. One of them is above zero exactly if the
    sum of the weights is finite: beyond the range of singles it makes all of them zero. -/
theorem restrict_usable {shares : Weights Float32} (h : ws.restrict ids = .ok shares) :
    ∃ es, ws.collect ids = .ok es ∧
      (∀ w x, shares.find? w = some x → Scalar.isFinite x = true ∧
        Scalar.le Scalar.zero x = true ∧ Scalar.le x Scalar.one = true) ∧
      ((∃ w x, shares.find? w = some x ∧ Scalar.lt Scalar.zero x = true) ↔
        Scalar.isFinite (ofList es).total = true) := by
  obtain ⟨es, t, hes, ht, hshare, hexists⟩ := magnitude_of_restrict h
  refine ⟨es, hes, fun w x hx => ?_, ?_⟩
  · obtain ⟨s, hle, hs, -⟩ := hshare w x hx
    have hone : 0x3f800000 < BinaryFormat.single.infinity := by decide
    exact ⟨hs.isFinite_iff.2 (hle.trans_lt hone),
      (Single.magnitude_zero.le_iff hs).2 (Nat.zero_le s), (hs.le_iff Single.magnitude_one).2 hle⟩
  · rw [ht.isFinite_iff]
    refine ⟨?_, hexists⟩
    rintro ⟨w, x, hx, hlt⟩
    obtain ⟨s, -, hs, hinfinite⟩ := hshare w x hx
    have hpos := (Single.magnitude_zero.lt_iff hs).1 hlt
    exact lt_of_le_of_ne ht.le_infinity fun heq => absurd (hinfinite heq) hpos.ne'

/-- Two workers, one of which hardly weighs anything beside the other. -/
theorem restrict_usable_pair :
    let ws : Weights Float32 := ofList [(⟨0⟩, Scalar.one), (⟨1⟩, Float32.ofBits 1)]
    ∃ shares, ws.restrict [⟨0⟩, ⟨1⟩] = .ok shares ∧ ∃ es, ws.collect [⟨0⟩, ⟨1⟩] = .ok es ∧
      (∀ w x, shares.find? w = some x → Scalar.isFinite x = true ∧
        Scalar.le Scalar.zero x = true ∧ Scalar.le x Scalar.one = true) ∧
      ((∃ w x, shares.find? w = some x ∧ Scalar.lt Scalar.zero x = true) ↔
        Scalar.isFinite (ofList es).total = true) := by
  intro ws
  have hok : (ws.restrict [⟨0⟩, ⟨1⟩]).toOption.isSome = true := by decide +kernel
  cases h : ws.restrict [⟨0⟩, ⟨1⟩] with
  | error e =>
    rw [h] at hok
    cases hok
  | ok shares => exact ⟨shares, rfl, restrict_usable h⟩

/-- Two weights at the end of the range of singles sum to infinity: both workers have the share
    zero. -/
theorem restrict_overflow :
    let ws : Weights Float32 :=
      ofList [(⟨0⟩, Float32.ofBits 0x7f7fffff), (⟨1⟩, Float32.ofBits 0x7f7fffff)]
    ∃ shares, ws.restrict [⟨0⟩, ⟨1⟩] = .ok shares ∧ shares.size = 2 ∧
      ¬ ∃ w x, shares.find? w = some x ∧ Scalar.lt Scalar.zero x = true := by
  intro ws
  have hzero : ((ws.restrict [⟨0⟩, ⟨1⟩]).toOption.map (·.byWorker.entries)) =
      some [(⟨0⟩, Scalar.zero), (⟨1⟩, Scalar.zero)] := by decide +kernel
  cases h : ws.restrict [⟨0⟩, ⟨1⟩] with
  | error e =>
    rw [h] at hzero
    cases hzero
  | ok shares =>
    rw [h] at hzero
    have hentries : shares.byWorker.entries = [(⟨0⟩, Scalar.zero), (⟨1⟩, Scalar.zero)] :=
      Option.some.inj hzero
    refine ⟨shares, rfl, congrArg List.length hentries, ?_⟩
    rintro ⟨w, x, hx, hlt⟩
    have hall : ∀ e ∈ shares.byWorker.entries, Scalar.lt Scalar.zero e.2 = false := by
      rw [hentries]
      decide +kernel
    exact Bool.false_ne_true ((hall (w, x) (Dict.mem_entries_iff.2 hx)).symm.trans hlt)

end Weights

end Federated
