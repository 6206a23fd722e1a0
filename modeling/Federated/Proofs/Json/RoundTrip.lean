/-
  Federated.Proofs.Json.RoundTrip

  The reader reads what the writer writes: the text of a value with readable strings and
  well-formed numbers spells this value.

    * `Json.Writable` — the values that have a text of their own.
    * `Reader.Holds` — a reader behind a value; a number holds back its end until it is seen.
    * `Reader.feeds_quoted`, `feeds_numeral`, `feeds_value` — reading the characters of a string, a
      number, any value.
    * `Json.parse?_text` — reading its text.
-/
import Federated.Proofs.Json.Numerals
import Mathlib.Data.Fintype.Basic
import Mathlib.Tactic.FinCases
import Mathlib.Tactic.SplitIfs

namespace Federated

namespace Json

/-! ## Values with a text -/

mutual

/-- A value that has a text of its own: its strings are readable, and its numbers well formed. -/
def Writable : Json → Prop
  | .null => True
  | .bool _ => True
  | .number n => n.WellFormed
  | .string text => text.isSome = true
  | .array items => WritableItems items
  | .object members => WritableMembers members

/-- Items that all have a text of their own. -/
def WritableItems : List Json → Prop
  | [] => True
  | j :: js => Writable j ∧ WritableItems js

/-- Members that all have readable names, and values with a text of their own. -/
def WritableMembers : List (JsonText × Json) → Prop
  | [] => True
  | (name, j) :: ms => name.isSome = true ∧ Writable j ∧ WritableMembers ms

end

@[simp] theorem writable_ofMembers {members : List (String × Json)}
    (h : ∀ m ∈ members, m.2.Writable) : (ofMembers members).Writable := by
  show WritableMembers (members.map fun m => (some m.1.toList, m.2))
  induction members with
  | nil => trivial
  | cons m members ih =>
    exact ⟨rfl, h m List.mem_cons_self, ih fun n hn => h n (List.mem_cons_of_mem _ hn)⟩

@[simp] theorem writable_array {items : List Json} (h : ∀ j ∈ items, j.Writable) :
    (array items).Writable := by
  show WritableItems items
  induction items with
  | nil => trivial
  | cons j js ih => exact ⟨h j List.mem_cons_self, ih fun k hk => h k (List.mem_cons_of_mem _ hk)⟩

@[simp] theorem writable_ofString (s : String) : (ofString s).Writable := rfl

@[simp] theorem writable_ofCount (n : Nat) : (ofCount n).Writable := Numeral.wellFormed_ofCount n

@[simp] theorem writable_ofSingle (x : Float32) : (ofSingle x).Writable := by
  unfold ofSingle
  cases hx : Numeral.ofSingle? x with
  | none => trivial
  | some n => exact Numeral.wellFormed_ofSingle? hx

@[simp] theorem writable_ofDouble (x : Float) : (ofDouble x).Writable := by
  unfold ofDouble
  cases hx : Numeral.ofDouble? x with
  | none => trivial
  | some n => exact Numeral.wellFormed_ofDouble? hx

theorem writable_ofOption {β : Type} {f : β → Json} {x : Option β} (h : ∀ y, (f y).Writable) :
    (ofOption f x).Writable := by
  cases x with
  | none => trivial
  | some y => exact h y

/-! ## Feeding characters -/

namespace Reader

/-- Feeds characters one after another. -/
def feeds (r : Reader) (cs : List Char) : Option Reader := cs.foldlM feed r

@[simp] theorem feeds_nil (r : Reader) : r.feeds [] = some r := rfl

theorem feeds_cons (r : Reader) (c : Char) (cs : List Char) :
    r.feeds (c :: cs) = (r.feed c).bind (·.feeds cs) := List.foldlM_cons

theorem feeds_append (r : Reader) (cs ds : List Char) :
    r.feeds (cs ++ ds) = (r.feeds cs).bind (·.feeds ds) := List.foldlM_append

/-- A reader behind a value that the assembly has taken: whatever may follow a value finds it there,
    and so does the end of the text. -/
structure Holds (r : Reader) (a : Assembly) : Prop where
  next : ∀ c, c = ',' ∨ c = ']' ∨ c = '\x7d' → r.feed c = feedIdle a c
  finish : r.finish? = a.result?

theorem holds_idle (a : Assembly) : (⟨.idle, a⟩ : Reader).Holds a := ⟨fun _ _ => rfl, rfl⟩

end Reader

/-- An assembly that waits for a value inside of open containers. -/
inductive Assembly.Awaits : Assembly → List Frame → Prop
  | value (outer : List Frame) : Awaits (.value outer) outer
  | firstItem (outer : List Frame) : Awaits (.firstItem outer) (.items [] :: outer)

namespace Reader

variable {a : Assembly} {outer : List Frame}

theorem take_scalar (h : a.Awaits outer) (j : Json) :
    a.take (.scalar j) = some (.place outer j) := by
  cases h <;> rfl

theorem take_openArray (h : a.Awaits outer) : a.take .openArray = some (.firstItem outer) := by
  cases h <;> rfl

theorem take_openObject (h : a.Awaits outer) : a.take .openObject = some (.firstName outer) := by
  cases h <;> rfl

/-! ## Strings -/

theorem hexValue?_hexDigit {n : Nat} (h : n < 16) :
    StringState.hexValue? (hexDigit n) = some n := by
  revert n
  decide

/-- A character that needs no escape is read as it is. -/
theorem feeds_plain (a : Assembly) (read : List Char) {c : Char} (hquote : c ≠ '"')
    (hbackslash : c ≠ '\\') (hcontrol : ¬ c.toNat < 32) :
    (⟨.string ⟨some read, none, .plain⟩, a⟩ : Reader).feeds [c] =
      some ⟨.string ⟨some (c :: read), none, .plain⟩, a⟩ := by
  simp [feeds_cons, feed, StringState.feed, hquote, hbackslash, hcontrol, StringState.push]

/-- The four digits of a control character are read as this character. -/
theorem feeds_unit (a : Assembly) (read : List Char) {c : Char} (hcontrol : c.toNat < 32) :
    (⟨.string ⟨some read, none, .plain⟩, a⟩ : Reader).feeds
      ['\\', 'u', '0', '0', hexDigit (c.toNat / 16), hexDigit (c.toNat % 16)] =
      some ⟨.string ⟨some (c :: read), none, .plain⟩, a⟩ := by
  have hhigh := hexValue?_hexDigit (n := c.toNat / 16) (by omega)
  have hlow := hexValue?_hexDigit (n := c.toNat % 16) (by omega)
  have hvalue : c.toNat / 16 * 16 + c.toNat % 16 = c.toNat := Nat.div_add_mod' c.toNat 16
  -- behind the two zeros, the last two digits make the code of the character
  have hstart : (⟨.string ⟨some read, none, .plain⟩, a⟩ : Reader).feeds ['\\', 'u', '0', '0'] =
      some ⟨.string ⟨some read, none, .unit 2 0⟩, a⟩ := rfl
  have hunit : ¬ (0xD800 ≤ c.toNat ∧ c.toNat < 0xDC00) ∧
      ¬ (0xDC00 ≤ c.toNat ∧ c.toNat < 0xE000) := by
    omega
  refine (feeds_append _ ['\\', 'u', '0', '0'] _).trans ?_
  rw [hstart]
  simp [feeds_cons, feed, StringState.feed, hhigh, hlow, hvalue, StringState.pushUnit, hunit.1,
    hunit.2]

/-- The escape of a character is read as this character. -/
theorem feeds_escape (a : Assembly) (read : List Char) (c : Char) :
    (⟨.string ⟨some read, none, .plain⟩, a⟩ : Reader).feeds (escape c) =
      some ⟨.string ⟨some (c :: read), none, .plain⟩, a⟩ := by
  rw [escape]
  split_ifs with hquote hbackslash h h h h h hcontrol
  case pos => subst hquote; rfl
  case pos => subst hbackslash; rfl
  case pos => subst h; rfl
  case pos => subst h; rfl
  case pos => subst h; rfl
  case pos => subst h; rfl
  case pos => subst h; rfl
  case pos => exact feeds_unit a read hcontrol
  case neg => exact feeds_plain a read hquote hbackslash hcontrol

/-- The characters of a string are read as they are. -/
theorem feeds_escapes (a : Assembly) (read cs : List Char) :
    (⟨.string ⟨some read, none, .plain⟩, a⟩ : Reader).feeds (cs.flatMap escape) =
      some ⟨.string ⟨some (cs.reverse ++ read), none, .plain⟩, a⟩ := by
  induction cs generalizing read with
  | nil => rfl
  | cons c cs ih =>
    rw [List.flatMap_cons, feeds_append, feeds_escape, List.reverse_cons, List.append_assoc]
    exact ih (c :: read)

/-- A string in quotes is one token. -/
theorem feeds_quoted (a : Assembly) (cs : List Char) :
    (⟨.idle, a⟩ : Reader).feeds (quoted cs) = emit a (.scalar (.string (some cs))) := by
  have hstart : (⟨.idle, a⟩ : Reader).feed '"' = some ⟨.string .start, a⟩ := rfl
  rw [quoted, feeds_cons, hstart]
  show feeds _ _ = _
  rw [feeds_append]
  show (feeds ⟨.string ⟨some [], none, .plain⟩, a⟩ _).bind _ = _
  rw [feeds_escapes]
  show feeds _ ['"'] = _
  have hend : (⟨.string ⟨some (cs.reverse ++ []), none, .plain⟩, a⟩ : Reader).feed '"' =
      emit a (.scalar (.string (some cs))) := by
    simp [feed, StringState.feed, StringState.finish]
  rw [feeds_cons, hend]
  cases emit a (.scalar (.string (some cs))) <;> rfl

/-! ## Numbers -/

/-- A digit where a token may begin starts a number. -/
theorem feed_digit (a : Assembly) (d : Digit) :
    (⟨.idle, a⟩ : Reader).feed (Digit.toChar d) = some ⟨.number (.ofDigit false d), a⟩ := by
  fin_cases d <;> rfl

theorem feeds_number {s s' : NumberState} {cs : List Char} (h : s.feeds cs = some s')
    (a : Assembly) : (⟨.number s, a⟩ : Reader).feeds cs = some ⟨.number s', a⟩ := by
  induction cs generalizing s with
  | nil =>
    cases h
    rfl
  | cons c cs ih =>
    rw [NumberState.feeds_cons] at h
    obtain ⟨s₁, hfirst, hrest⟩ := Option.bind_eq_some_iff.1 h
    have hfeed : (⟨.number s, a⟩ : Reader).feed c = some ⟨.number s₁, a⟩ := by
      rw [NumberState.more?] at hfirst
      split at hfirst
      · next hmore =>
        cases hfirst
        simp [feed, hmore]
      · cases hfirst
    rw [feeds_cons, hfeed]
    exact ih hrest

/-- Behind all its characters a number stands for its value. -/
theorem holds_number (h : a.Awaits outer) {s : NumberState} {n : Numeral}
    (hs : s.finish? = some n) : (⟨.number s, a⟩ : Reader).Holds (.place outer (.number n)) := by
  have htake := take_scalar h (.number n)
  refine ⟨fun c hc => ?_, ?_⟩
  · simp [feed, s.feed_ends hc, hs, emit, htake]
  · simp [finish?, hs, htake]

/-- The characters of a well-formed number are read as this number. -/
theorem feeds_numeral (h : a.Awaits outer) {n : Numeral} (hn : n.WellFormed) :
    ∃ r, (⟨.idle, a⟩ : Reader).feeds n.chars = some r ∧
      r.Holds (.place outer (.number n)) := by
  obtain ⟨d, ds, hwhole⟩ := List.exists_cons_of_ne_nil hn.whole.1
  obtain ⟨cs, s, hchars, hs, hfinish⟩ := NumberState.feeds_rest hn hwhole
  refine ⟨⟨.number s, a⟩, ?_, holds_number h hfinish⟩
  rw [Numeral.chars, List.append_assoc, hchars]
  cases hnegative : n.negative with
  | false =>
    rw [hnegative] at hs
    show feeds _ (Digit.toChar d :: cs) = _
    rw [feeds_cons, feed_digit]
    exact feeds_number hs a
  | true =>
    rw [hnegative] at hs
    -- the digit behind the sign starts the number that the sign has announced
    have hsign : (⟨.idle, a⟩ : Reader).feed '-' = some ⟨.number .ofSign, a⟩ := rfl
    have hdigit : NumberState.ofSign.more? (Digit.toChar d) = some (.ofDigit true d) := by
      rw [NumberState.more?_digit]
      rfl
    show feeds _ ('-' :: Digit.toChar d :: cs) = _
    rw [feeds_cons, hsign]
    refine feeds_number ?_ a
    rw [NumberState.feeds_cons, hdigit]
    exact hs

/-! ## Values -/

/-- Rows behind a first one each come behind a comma. -/
theorem separated_cons (row : List Char) (rows : List (List Char)) :
    separated (row :: rows) = row ++ rows.flatMap (',' :: ·) := by
  induction rows generalizing row with
  | nil => simp [separated]
  | cons next rows ih =>
    have hrest := ih next
    simp only [separated, List.intercalate, List.intersperse_cons_cons,
      List.flatten_cons] at hrest ⊢
    rw [hrest]
    simp

/-- A member is read as its name and then its value. -/
theorem feeds_member {before : List (JsonText × Json)} {cs : List Char} {j : Json}
    (htake : a.take (.scalar (.string (some cs))) = some (.colon outer before (some cs)))
    (hj : ∃ r, (⟨.idle, .value (.members before (some cs) :: outer)⟩ : Reader).feeds j.chars =
      some r ∧ r.Holds (.afterMember outer ((some cs, j) :: before))) :
    ∃ r, (⟨.idle, a⟩ : Reader).feeds (quoted cs ++ ':' :: j.chars) = some r ∧
      r.Holds (.afterMember outer ((some cs, j) :: before)) := by
  obtain ⟨r, hr, hholds⟩ := hj
  refine ⟨r, ?_, hholds⟩
  have hcolon : (⟨.idle, .colon outer before (some cs)⟩ : Reader).feed ':' =
      some ⟨.idle, .value (.members before (some cs) :: outer)⟩ := rfl
  rw [feeds_append, feeds_quoted, emit, htake]
  show feeds _ (':' :: j.chars) = _
  rw [feeds_cons, hcolon]
  exact hr

/-- A word is one token. -/
theorem feeds_word (ha : a.Awaits outer) {j : Json} {cs : List Char}
    (h : (⟨.idle, a⟩ : Reader).feeds cs = (emit a (.scalar j)).bind some) :
    ∃ r, (⟨.idle, a⟩ : Reader).feeds cs = some r ∧ r.Holds (.place outer j) := by
  refine ⟨⟨.idle, .place outer j⟩, ?_, holds_idle _⟩
  rw [h, emit, take_scalar ha]
  rfl

/-- The comma behind a value lets another one follow. -/
theorem feeds_comma {r : Reader} {b : Assembly} (hr : r.Holds a) (hcomma : a.take .comma = some b)
    (cs : List Char) : r.feeds (',' :: cs) = (⟨.idle, b⟩ : Reader).feeds cs := by
  have hfeed : r.feed ',' = some ⟨.idle, b⟩ := by
    rw [hr.next ',' (.inl rfl)]
    show emit a .comma = _
    rw [emit, hcomma]
    rfl
  rw [feeds_cons, hfeed]
  rfl

mutual

/-- The characters of a value are read as this value, inside of whatever containers are open. -/
theorem feeds_value (j : Json) (h : j.Writable) {a : Assembly} {outer : List Frame}
    (ha : a.Awaits outer) :
    ∃ r, (⟨.idle, a⟩ : Reader).feeds j.chars = some r ∧ r.Holds (.place outer j) := by
  match j, h with
  | .null, _ => exact feeds_word ha rfl
  | .bool true, _ => exact feeds_word ha rfl
  | .bool false, _ => exact feeds_word ha rfl
  | .number n, h => exact feeds_numeral ha h
  | .string (some cs), _ =>
    refine ⟨_, ?_, holds_idle _⟩
    show feeds _ (quoted cs) = _
    rw [feeds_quoted, emit, take_scalar ha]
    rfl
  | .array items, h =>
    refine ⟨⟨.idle, .place outer (.array items)⟩, ?_, holds_idle _⟩
    have hopen : (⟨.idle, a⟩ : Reader).feed '[' = some ⟨.idle, .firstItem outer⟩ := by
      show emit a .openArray = _
      rw [emit, take_openArray ha]
      rfl
    show feeds _ ('[' :: (separated (itemRows items) ++ [']'])) = _
    rw [feeds_cons, hopen]
    show feeds _ _ = _
    match items, h with
    | [], _ => rfl
    | j :: js, ⟨hj, hjs⟩ =>
      obtain ⟨r, hr, hholds⟩ := feeds_value j hj (.firstItem outer)
      rw [itemRows, separated_cons, List.append_assoc, feeds_append, hr]
      exact feeds_items js hjs hholds
  | .object members, h =>
    refine ⟨⟨.idle, .place outer (.object members)⟩, ?_, holds_idle _⟩
    have hopen : (⟨.idle, a⟩ : Reader).feed '\x7b' = some ⟨.idle, .firstName outer⟩ := by
      show emit a .openObject = _
      rw [emit, take_openObject ha]
      rfl
    show feeds _ ('\x7b' :: (separated (memberRows members) ++ ['\x7d'])) = _
    rw [feeds_cons, hopen]
    show feeds _ _ = _
    match members, h with
    | [], _ => rfl
    | (some name, j) :: ms, ⟨_, hj, hms⟩ =>
      obtain ⟨r, hr, hholds⟩ := feeds_member (a := .firstName outer) rfl
        (feeds_value j hj (.value (.members [] (some name) :: outer)))
      rw [memberRows, separated_cons, List.append_assoc, feeds_append, Option.getD_some, hr]
      exact feeds_members ms hms hholds

/-- The characters of further items, each behind a comma, are read as these. -/
theorem feeds_items (js : List Json) (h : WritableItems js) {r : Reader} {outer : List Frame}
    {before : List Json} (hr : r.Holds (.afterItem outer before)) :
    r.feeds ((itemRows js).flatMap (',' :: ·) ++ [']']) =
      some ⟨.idle, .place outer (.array (before.reverse ++ js))⟩ := by
  match js, h with
  | [], _ =>
    show feeds r [']'] = _
    rw [feeds_cons, hr.next _ (by simp), List.append_nil]
    rfl
  | j :: js, ⟨hj, hjs⟩ =>
    obtain ⟨r', hr', hholds⟩ := feeds_value j hj (.value (.items before :: outer))
    have hrest := feeds_items js hjs hholds
    rw [itemRows, List.flatMap_cons, List.append_assoc, List.cons_append,
      feeds_comma hr rfl, feeds_append, hr']
    rw [List.reverse_cons, List.append_assoc] at hrest
    exact hrest

/-- The characters of further members, each behind a comma, are read as these. -/
theorem feeds_members (ms : List (JsonText × Json)) (h : WritableMembers ms) {r : Reader}
    {outer : List Frame} {before : List (JsonText × Json)}
    (hr : r.Holds (.afterMember outer before)) :
    r.feeds ((memberRows ms).flatMap (',' :: ·) ++ ['\x7d']) =
      some ⟨.idle, .place outer (.object (before.reverse ++ ms))⟩ := by
  match ms, h with
  | [], _ =>
    show feeds r ['\x7d'] = _
    rw [feeds_cons, hr.next _ (by simp), List.append_nil]
    rfl
  | (some name, j) :: ms, ⟨_, hj, hms⟩ =>
    obtain ⟨r', hr', hholds⟩ := feeds_member (a := .memberName outer before) rfl
      (feeds_value j hj (.value (.members before (some name) :: outer)))
    have hrest := feeds_members ms hms hholds
    rw [memberRows, List.flatMap_cons, List.append_assoc, List.cons_append,
      feeds_comma hr rfl, feeds_append, Option.getD_some, hr']
    rw [List.reverse_cons, List.append_assoc] at hrest
    exact hrest

end

end Reader

/-- The reader reads what the writer writes. -/
theorem parse?_text {j : Json} (h : j.Writable) : parse? j.text = some j := by
  obtain ⟨r, hr, hholds⟩ := Reader.feeds_value j h (.value [])
  rw [parse?, text, String.toList_ofList, ofChars?]
  show (Reader.feeds Reader.start j.chars).bind _ = _
  rw [Reader.start, hr]
  exact hholds.finish

end Json

end Federated
