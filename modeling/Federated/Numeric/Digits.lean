/-
  Federated.Numeric.Digits

  Decimal digits: the digits of a count, the count they spell, and digits with a decimal
  point placed among them.

    * `toCount_ofCount` — the digits of a count spell it.
-/

namespace Federated

/-- A decimal digit. -/
abbrev Digit := Fin 10

namespace Digit

/-- The digit zero. -/
def zero : Digit := ⟨0, by decide⟩

/-- The character of a digit. -/
def toChar (d : Digit) : Char := Char.ofNat ('0'.toNat + d.val)

/-- The digit that a character shows. -/
def ofChar? (c : Char) : Option Digit :=
  if h : '0'.toNat ≤ c.toNat ∧ c.toNat < '0'.toNat + 10 then
    some ⟨c.toNat - '0'.toNat, by omega⟩
  else none

/-- Characters of a row of digits. -/
def chars (ds : List Digit) : List Char := ds.map toChar

/-- Prepends the digits of `n` to `tail`; `fuel` bounds their number. -/
def expand : Nat → Nat → List Digit → List Digit
  | 0, _, tail => tail
  | fuel + 1, n, tail =>
    let rest := Fin.ofNat 10 n :: tail
    if n < 10 then rest else expand fuel (n / 10) rest

/-- The digits of a count, most significant first. A count has no more digits than bits. -/
def ofCount (n : Nat) : List Digit := expand (Nat.log2 n + 1) n []

/-- The count that digits spell. -/
def toCount (ds : List Digit) : Nat := ds.foldl (fun n d => n * 10 + d.val) 0

/-- Digits with the decimal point `point` places after their start, zeros filling the gap on
    either side: the whole part, at least one digit, and the fraction, perhaps none. -/
def placePoint (ds : List Digit) (point : Int) : List Digit × List Digit :=
  if point ≤ 0 then ([zero], List.replicate (-point).toNat zero ++ ds)
  else if (ds.length : Int) ≤ point then
    (ds ++ List.replicate (point - ds.length).toNat zero, [])
  else (ds.take point.toNat, ds.drop point.toNat)

/-- A whole part and a fraction joined by a point, if there is a fraction. -/
def joinPoint : List Digit × List Digit → List Char
  | (whole, []) => chars whole
  | (whole, fraction) => chars whole ++ '.' :: chars fraction

/-! ## Digits spell their count -/

/-- Digits behind a count shift it by their number. -/
theorem foldl_eq_toCount (ds : List Digit) (n : Nat) :
    ds.foldl (fun n d => n * 10 + d.val) n = n * Nat.pow 10 ds.length + toCount ds := by
  induction ds generalizing n with
  | nil => simp [toCount]
  | cons d ds ih =>
    simp only [toCount, List.foldl_cons, List.length_cons] at ih ⊢
    rw [ih, ih (0 * 10 + d.val)]
    simp only [Nat.pow_eq, Nat.pow_succ, Nat.add_mul, Nat.zero_mul, Nat.zero_add]
    rw [Nat.mul_assoc, Nat.mul_comm 10, Nat.add_assoc]

/-- What `expand` prepends spells its count, if the fuel suffices. -/
theorem toCount_expand (fuel n : Nat) (tail : List Digit) (h : n < Nat.pow 10 fuel) :
    toCount (expand fuel n tail) = n * Nat.pow 10 tail.length + toCount tail := by
  induction fuel generalizing n tail with
  | zero =>
    have : n = 0 := by simpa using h
    simp [expand, this]
  | succ fuel ih =>
    have hd : (Fin.ofNat 10 n).val = n % 10 := rfl
    have hc : toCount (Fin.ofNat 10 n :: tail) =
        n % 10 * Nat.pow 10 tail.length + toCount tail := by
      simp only [toCount, List.foldl_cons]
      rw [foldl_eq_toCount, hd]
      simp [toCount]
    unfold expand
    simp only
    split
    · next hn => rw [hc, Nat.mod_eq_of_lt hn]
    · have hn : n / 10 < Nat.pow 10 fuel :=
        Nat.div_lt_of_lt_mul (by simpa [Nat.pow_eq, Nat.pow_succ, Nat.mul_comm] using h)
      rw [ih (n / 10) _ hn, hc]
      simp only [List.length_cons, Nat.pow_eq, Nat.pow_succ]
      rw [← Nat.add_assoc, Nat.mul_comm (10 ^ _) 10, ← Nat.mul_assoc, ← Nat.add_mul]
      congr 2
      omega

/-- A count has no more digits than bits. -/
theorem lt_pow_log2 (n : Nat) : n < Nat.pow 10 (Nat.log2 n + 1) :=
  Nat.lt_of_lt_of_le Nat.lt_log2_self <| by
    simpa [Nat.pow_eq] using Nat.pow_le_pow_left (by omega : 2 ≤ 10) (Nat.log2 n + 1)

/-- The digits of a count spell it. -/
theorem toCount_ofCount (n : Nat) : toCount (ofCount n) = n := by
  rw [ofCount, toCount_expand _ _ _ (lt_pow_log2 n)]
  simp [toCount]

end Digit

/-- The text of a count. -/
def countText (n : Nat) : String := String.ofList (Digit.chars (Digit.ofCount n))

end Federated
