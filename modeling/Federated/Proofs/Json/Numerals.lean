/-
  Federated.Proofs.Json.Numerals

  Numbers in JSON text: which spellings are well formed, that all numbers are written so, and that a
  well-formed one is read back digit by digit.

    * `Numeral.WellFormed` — the spellings that the grammar allows.
    * `Numeral.wellFormed_ofCount`, `wellFormed_ofSingle?`, `wellFormed_ofDouble?` — those written.
    * `Json.NumberState.feed_ends` — what may follow a number ends it.
    * `Json.NumberState.feeds_rest` — reading the characters of a numeral.
-/
import Federated.Json.Reader
import Federated.Json.Writer

namespace Federated

/-! ## Digits -/

namespace Digit

@[simp] theorem ofChar?_toChar (d : Digit) : ofChar? (toChar d) = some d := by
  revert d
  decide

/-- The digits of a count above zero begin with one that is not zero. -/
theorem expand_leading {fuel n : Nat} (hn : 0 < n) (h : n < Nat.pow 10 fuel) (tail : List Digit) :
    ∃ d ds, expand fuel n tail = d :: ds ∧ d ≠ zero := by
  induction fuel generalizing n tail with
  | zero =>
    have : n < 1 := h
    omega
  | succ fuel ih =>
    unfold expand
    simp only
    split
    · next hlt =>
      refine ⟨_, _, rfl, fun hzero => ?_⟩
      have hval := congrArg Fin.val hzero
      simp only [Fin.val_ofNat, zero] at hval
      omega
    · next hge =>
      have hrest : n / 10 < Nat.pow 10 fuel :=
        Nat.div_lt_of_lt_mul (by simpa [Nat.pow_eq, Nat.pow_succ, Nat.mul_comm] using h)
      exact ih (by omega) hrest _

/-- A count is written without leading zeros. -/
theorem ofCount_leading {n : Nat} (hn : 0 < n) : ∃ d ds, ofCount n = d :: ds ∧ d ≠ zero :=
  expand_leading hn (lt_pow_log2 n) []

theorem ofCount_ne_nil (n : Nat) : ofCount n ≠ [] := by
  rcases Nat.eq_zero_or_pos n with rfl | hn
  · decide
  · obtain ⟨d, ds, h, -⟩ := ofCount_leading hn
    simp [h]

end Digit

/-! ## Spellings -/

namespace Numeral

/-- Digits before the point, without a leading zero unless it is the only one. -/
def Leads (ds : List Digit) : Prop := ds ≠ [] ∧ (ds.head? = some .zero → ds = [.zero])

/-- The spellings that the grammar of numbers allows: digits before the point, and digits behind an
    exponent mark. -/
structure WellFormed (n : Numeral) : Prop where
  whole : Leads n.whole
  exponent : ∀ sign ds, n.exponent = some (sign, ds) → ds ≠ []

theorem leads_of_ne_zero {d : Digit} (h : d ≠ .zero) (ds : List Digit) : Leads (d :: ds) :=
  ⟨List.cons_ne_nil d ds, fun hd => absurd (Option.some.inj hd) h⟩

theorem leads_zero : Leads [.zero] := ⟨by simp, fun _ => rfl⟩

theorem leads_ofCount (n : Nat) : Leads (Digit.ofCount n) := by
  rcases Nat.eq_zero_or_pos n with rfl | hn
  · exact leads_zero
  · obtain ⟨d, ds, h, hd⟩ := Digit.ofCount_leading hn
    rw [h]
    exact leads_of_ne_zero hd ds

/-- Counts are well formed. -/
theorem wellFormed_ofCount (n : Nat) : (ofCount n).WellFormed :=
  ⟨leads_ofCount n, fun _ _ h => nomatch h⟩

/-- Digits that do not begin with zero are well formed wherever the point is put. -/
theorem wellFormed_ofDigits (range : PlainRange) (negative : Bool) {d : Digit} (hd : d ≠ .zero)
    (ds : List Digit) (point : Int) : (ofDigits range negative (d :: ds) point).WellFormed := by
  rw [ofDigits]
  split
  · refine ⟨?_, fun _ _ h => nomatch h⟩
    show Leads (Digit.placePoint (d :: ds) point).1
    rw [Digit.placePoint]
    split
    · exact leads_zero
    · next hpos =>
      split
      · exact leads_of_ne_zero hd _
      · -- at least one digit is left before the point
        obtain ⟨k, hk⟩ : ∃ k, point.toNat = k + 1 := ⟨point.toNat - 1, by omega⟩
        rw [hk]
        exact leads_of_ne_zero hd _
  · refine ⟨leads_of_ne_zero hd [], fun sign es h => ?_⟩
    cases h
    exact Digit.ofCount_ne_nil _

/-- The shortest decimal of a value other than zero is not zero. -/
theorem digits_shortestDecimal_pos (f : BinaryFormat) (tie : TieRule) {significand : Nat}
    (h : significand ≠ 0) (exponent : Int) :
    0 < (shortestDecimal f tie significand exponent).digits := by
  rw [shortestDecimal]
  generalize hfound : List.findSome? _ (List.range 24) = found
  cases found with
  | none => exact Nat.mul_pos (Nat.pos_of_ne_zero h) (Nat.pow_pos (by decide))
  | some d =>
    obtain ⟨step, -, hd⟩ := List.exists_of_findSome?_eq_some hfound
    obtain ⟨n, -, hn⟩ := Option.bind_eq_some_iff.1 hd
    split at hn
    · cases hn
    · next hne =>
      cases hn
      exact Nat.pos_of_ne_zero hne

/-- Binary values are written well formed. -/
theorem wellFormed_ofBinary? {f : BinaryFormat} {range : PlainRange} {b : Binary} {n : Numeral}
    (h : ofBinary? f range b = some n) : n.WellFormed := by
  cases b with
  | nan | infinite negative => cases h
  | finite negative significand exponent =>
    rw [ofBinary?] at h
    split at h
    · cases h
      exact ⟨leads_zero, fun _ _ h => nomatch h⟩
    · next hne =>
      cases h
      obtain ⟨d, ds, hdigits, hd⟩ :=
        Digit.ofCount_leading (digits_shortestDecimal_pos f .even hne exponent)
      rw [hdigits]
      exact wellFormed_ofDigits range negative hd ds _

theorem wellFormed_ofSingle? {x : Float32} {n : Numeral} (h : ofSingle? x = some n) :
    n.WellFormed := wellFormed_ofBinary? h

theorem wellFormed_ofDouble? {x : Float} {n : Numeral} (h : ofDouble? x = some n) :
    n.WellFormed := wellFormed_ofBinary? h

end Numeral

/-! ## Reading -/

namespace Json

namespace NumberState

/-- Feeds one character that belongs to the number. -/
def more? (s : NumberState) (c : Char) : Option NumberState :=
  match s.feed c with
  | some (.more s) => some s
  | _ => none

/-- Feeds characters that belong to the number. -/
def feeds (s : NumberState) (cs : List Char) : Option NumberState := cs.foldlM more? s

theorem feeds_append (s : NumberState) (cs ds : List Char) :
    s.feeds (cs ++ ds) = (s.feeds cs).bind (·.feeds ds) := List.foldlM_append

theorem feeds_cons (s : NumberState) (c : Char) (cs : List Char) :
    s.feeds (c :: cs) = (s.more? c).bind (·.feeds cs) := List.foldlM_cons

theorem more?_digit (s : NumberState) (d : Digit) : s.more? (Digit.toChar d) =
    match s.feedDigit d with
    | some (.more s) => some s
    | _ => none := by
  rw [more?, feed, Digit.ofChar?_toChar]

/-- A character that can stand behind a value ends a number. -/
theorem feed_ends (s : NumberState) {c : Char} (h : c = ',' ∨ c = ']' ∨ c = '\x7d') :
    s.feed c = some .ends := by
  have hdigit : Digit.ofChar? c = none := by
    rcases h with rfl | rfl | rfl <;> rfl
  have hother : c ≠ '.' ∧ ¬ (c = 'e' ∨ c = 'E') ∧ c ≠ '+' ∧ c ≠ '-' := by
    rcases h with rfl | rfl | rfl <;> decide
  obtain ⟨hpoint, hmark, hplus, hminus⟩ := hother
  simp [feed, hdigit, hpoint, hmark, hplus, hminus]

variable {negative : Bool} {whole fraction : List Digit}

/-- More digits of the part of a number that is being read: what is kept of it, in reverse. -/
theorem feeds_digits (part : List Digit → NumberState)
    (h : ∀ d kept, (part kept).feedDigit d = some (.more (part (d :: kept))))
    (ds kept : List Digit) :
    (part kept).feeds (Digit.chars ds) = some (part (ds.reverse ++ kept)) := by
  induction ds generalizing kept with
  | nil => rfl
  | cons d ds ih =>
    rw [Digit.chars, List.map_cons, feeds_cons, more?_digit, h, List.reverse_cons,
      List.append_assoc]
    exact ih (d :: kept)

/-- The digits before the point, the first of which is there. -/
theorem feeds_leading {d : Digit} {ds : List Digit} (h : Numeral.Leads (d :: ds)) :
    ∃ p, (p = .zero ∨ p = .whole) ∧ (ofDigit negative d).feeds (Digit.chars ds) =
      some ⟨negative, (d :: ds).reverse, [], .absent, [], p⟩ := by
  cases ds with
  | nil =>
    refine ⟨if d = .zero then .zero else .whole, ?_, rfl⟩
    split <;> simp
  | cons e ds =>
    have hd : d ≠ .zero := fun hzero => by
      have := h.2 (congrArg some hzero)
      simp at this
    refine ⟨.whole, .inr rfl, ?_⟩
    rw [ofDigit, if_neg hd, List.reverse_cons]
    exact feeds_digits (fun kept => ⟨negative, kept, [], .absent, [], .whole⟩) (fun _ _ => rfl)
      (e :: ds) [d]

/-- The digits behind the point, if there are any. -/
theorem feeds_point {p : NumberPoint} (hp : p = .zero ∨ p = .whole)
    {d : Digit} {ds : List Digit} :
    (⟨negative, whole, [], .absent, [], p⟩ : NumberState).feeds
      ('.' :: Digit.chars (d :: ds)) =
      some ⟨negative, whole, (d :: ds).reverse, .absent, [], .fraction⟩ := by
  have hmore : (⟨negative, whole, [], .absent, [], p⟩ : NumberState).more? '.' =
      some ⟨negative, whole, [], .absent, [], .point⟩ := by
    rcases hp with rfl | rfl <;> rfl
  rw [feeds_cons, hmore, Digit.chars, List.map_cons, List.reverse_cons]
  show NumberState.feeds _ _ = _
  rw [feeds_cons, more?_digit]
  exact feeds_digits (fun kept => ⟨negative, whole, kept, .absent, [], .fraction⟩)
    (fun _ _ => rfl) ds [d]

/-- The exponent, if there is one, and with it the end of the number. -/
theorem feeds_mark {p : NumberPoint}
    (hp : p = .zero ∨ p = .whole ∨ p = .fraction)
    {exponent : Option (ExponentSign × List Digit)}
    (h : ∀ sign ds, exponent = some (sign, ds) → ds ≠ []) :
    ∃ s, (⟨negative, whole, fraction, .absent, [], p⟩ : NumberState).feeds
        (Numeral.exponentChars exponent) = some s ∧
      s.finish? = some ⟨negative, whole.reverse, fraction.reverse, exponent⟩ := by
  have hmark : (⟨negative, whole, fraction, .absent, [], p⟩ : NumberState).more? 'e' =
      some ⟨negative, whole, fraction, .absent, [], .mark⟩ := by
    rcases hp with rfl | rfl | rfl <;> rfl
  match exponent, h with
  | none, _ => exact ⟨_, rfl, by rcases hp with rfl | rfl | rfl <;> rfl⟩
  | some (sign, ds), h =>
    obtain ⟨d, ds, rfl⟩ := List.exists_cons_of_ne_nil (h sign ds rfl)
    have hdigits : ∀ q, q = .mark ∨ q = .markSigned →
        (⟨negative, whole, fraction, sign, [], q⟩ : NumberState).feeds (Digit.chars (d :: ds)) =
          some ⟨negative, whole, fraction, sign, (d :: ds).reverse, .exponent⟩ := by
      intro q hq
      rw [Digit.chars, List.map_cons, feeds_cons, more?_digit, List.reverse_cons]
      rcases hq with rfl | rfl <;>
        exact feeds_digits (fun kept => ⟨negative, whole, fraction, sign, kept, .exponent⟩)
          (fun _ _ => rfl) ds [d]
    refine ⟨⟨negative, whole, fraction, sign, (d :: ds).reverse, .exponent⟩, ?_, by simp [finish?]⟩
    cases sign with
    | absent =>
      rw [Numeral.exponentChars, feeds_cons, hmark]
      exact hdigits .mark (.inl rfl)
    | plus | minus =>
      rw [Numeral.exponentChars, feeds_cons, hmark]
      exact hdigits .markSigned (.inr rfl)

/-- The characters of a well-formed number behind its first digit, and with them its end. -/
theorem feeds_rest {n : Numeral} (h : n.WellFormed) {d : Digit} {ds : List Digit}
    (hwhole : n.whole = d :: ds) :
    ∃ cs s, Digit.joinPoint (n.whole, n.fraction) ++ Numeral.exponentChars n.exponent =
        Digit.toChar d :: cs ∧
      (ofDigit n.negative d).feeds cs = some s ∧ s.finish? = some n := by
  obtain ⟨negative, whole, fraction, exponent⟩ := n
  cases hwhole
  obtain ⟨p, hp, hdigits⟩ := feeds_leading h.whole
  cases fraction with
  | nil =>
    obtain ⟨s, hs, hfinish⟩ := feeds_mark (hp.imp_right .inl) h.exponent
    refine ⟨Digit.chars ds ++ Numeral.exponentChars exponent, s, rfl, ?_, ?_⟩
    · rw [feeds_append, hdigits]
      exact hs
    · rwa [List.reverse_reverse] at hfinish
  | cons e es =>
    obtain ⟨s, hs, hfinish⟩ := feeds_mark (p := .fraction) (.inr (.inr rfl)) h.exponent
    refine ⟨Digit.chars ds ++ ('.' :: Digit.chars (e :: es) ++ Numeral.exponentChars exponent), s,
      ?_, ?_, ?_⟩
    · simp [Digit.joinPoint, Digit.chars]
    · rw [feeds_append, hdigits]
      show NumberState.feeds _ _ = _
      rw [feeds_append, feeds_point hp]
      exact hs
    · rwa [List.reverse_reverse, List.reverse_reverse] at hfinish

end NumberState

end Json

end Federated
