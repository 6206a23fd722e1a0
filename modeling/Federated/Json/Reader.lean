/-
  Federated.Json.Reader

  Reading JSON text. Two machines are fed in turn: a scanner that takes characters and
  yields tokens, and an assembler that takes tokens and builds the value on a stack of open
  containers. Both are folds, so a text may nest to any depth.

  The grammar is strict: no comments, no trailing commas, no text after the value, no raw
  control characters in strings.
-/
import Federated.Json.Basic

namespace Federated

namespace Json

/-! ## Tokens -/

/-- A token: punctuation, or a value without parts. -/
inductive Token where
  | openArray
  | closeArray
  | openObject
  | closeObject
  | colon
  | comma
  | scalar (value : Json)

/-! ## Strings being read -/

/-- Where inside a string the scanner stands. -/
inductive StringPoint where
  /-- Between characters. -/
  | plain
  /-- Behind a backslash. -/
  | escaped
  /-- Inside the four hexadecimal digits of a code unit: how many are to come, and their value
      so far. -/
  | unit (left : Nat) (value : Nat)

/-- A string read so far: its characters in reverse, none once they became unreadable, and the
    first half of a surrogate pair if the second must follow. -/
structure StringState where
  read : JsonText
  half : Option Nat
  point : StringPoint

namespace StringState

/-- The start of a string. -/
def start : StringState := ⟨some [], none, .plain⟩

/-- The string with one more character; a pending half of a pair makes it unreadable. -/
def push (s : StringState) (c : Char) : StringState :=
  ⟨if s.half.isSome then none else s.read.map (c :: ·), none, .plain⟩

/-- The string with one more code unit. A pair of surrogates is one character; any other use
    of a surrogate makes the string unreadable. -/
def pushUnit (s : StringState) (unit : Nat) : StringState :=
  match s.half with
  | some high =>
    if 0xDC00 ≤ unit ∧ unit < 0xE000 then
      let c := Char.ofNat (0x10000 + (high - 0xD800) * 0x400 + (unit - 0xDC00))
      ⟨s.read.map (c :: ·), none, .plain⟩
    else ⟨none, none, .plain⟩
  | none =>
    if 0xD800 ≤ unit ∧ unit < 0xDC00 then ⟨s.read, some unit, .plain⟩
    else if 0xDC00 ≤ unit ∧ unit < 0xE000 then ⟨none, none, .plain⟩
    else ⟨s.read.map (Char.ofNat unit :: ·), none, .plain⟩

/-- The finished characters, in order; a pending half of a pair makes them unreadable. -/
def finish (s : StringState) : JsonText :=
  if s.half.isSome then none else s.read.map List.reverse

/-- The character of a one-letter escape. -/
def unescape? (c : Char) : Option Char :=
  if c = '"' ∨ c = '\\' ∨ c = '/' then some c
  else if c = 'b' then some '\x08'
  else if c = 'f' then some '\x0c'
  else if c = 'n' then some '\n'
  else if c = 'r' then some '\r'
  else if c = 't' then some '\t'
  else none

/-- The value of a hexadecimal digit of either case. -/
def hexValue? (c : Char) : Option Nat :=
  if '0' ≤ c ∧ c ≤ '9' then some (c.toNat - '0'.toNat)
  else if 'a' ≤ c ∧ c ≤ 'f' then some (c.toNat - 'a'.toNat + 10)
  else if 'A' ≤ c ∧ c ≤ 'F' then some (c.toNat - 'A'.toNat + 10)
  else none

/-- What a character makes of a string: more of it, or its end. -/
inductive Next where
  | more (s : StringState)
  | done (text : JsonText)

/-- Feeds one character. -/
def feed (s : StringState) (c : Char) : Option Next :=
  match s.point with
  | .plain =>
    if c = '"' then some (.done s.finish)
    else if c = '\\' then some (.more { s with point := .escaped })
    else if c.toNat < 32 then none
    else some (.more (s.push c))
  | .escaped =>
    if c = 'u' then some (.more { s with point := .unit 4 0 })
    else (unescape? c).map fun e => .more (s.push e)
  | .unit left value =>
    (hexValue? c).map fun d =>
      let value := value * 16 + d
      .more (if left ≤ 1 then s.pushUnit value else { s with point := .unit (left - 1) value })

end StringState

/-! ## Numbers being read -/

/-- Where inside a number the scanner stands. -/
inductive NumberPoint where
  /-- Behind a minus sign. -/
  | signed
  /-- Behind a leading zero. -/
  | zero
  | whole
  /-- Behind the point. -/
  | point
  | fraction
  /-- Behind the exponent mark. -/
  | mark
  /-- Behind the sign of the exponent. -/
  | markSigned
  | exponent
  deriving DecidableEq

/-- A number read so far, its rows of digits in reverse. -/
structure NumberState where
  negative : Bool
  whole : List Digit
  fraction : List Digit
  sign : ExponentSign
  exponent : List Digit
  point : NumberPoint

namespace NumberState

/-- A number that starts with a digit. -/
def ofDigit (negative : Bool) (d : Digit) : NumberState :=
  ⟨negative, [d], [], .absent, [], if d = .zero then .zero else .whole⟩

/-- A number that starts with its sign. -/
def ofSign : NumberState := ⟨true, [], [], .absent, [], .signed⟩

/-- The number, if it may end here. -/
def finish? (n : NumberState) : Option Numeral :=
  let exponent := if n.exponent.isEmpty then none else some (n.sign, n.exponent.reverse)
  match n.point with
  | .zero | .whole | .fraction | .exponent =>
    some ⟨n.negative, n.whole.reverse, n.fraction.reverse, exponent⟩
  | .signed | .point | .mark | .markSigned => none

/-- What a character makes of a number: more of it, or none of it. -/
inductive Next where
  | more (n : NumberState)
  | ends

/-- Feeds a digit. -/
def feedDigit (n : NumberState) (d : Digit) : Option Next :=
  match n.point with
  | .signed => some (.more (ofDigit n.negative d))
  | .zero => none
  | .whole => some (.more { n with whole := d :: n.whole })
  | .point | .fraction => some (.more { n with fraction := d :: n.fraction, point := .fraction })
  | .mark | .markSigned | .exponent =>
    some (.more { n with exponent := d :: n.exponent, point := .exponent })

/-- Feeds one character. -/
def feed (n : NumberState) (c : Char) : Option Next :=
  match Digit.ofChar? c with
  | some d => n.feedDigit d
  | none =>
    if c = '.' ∧ (n.point = .zero ∨ n.point = .whole) then some (.more { n with point := .point })
    else if (c = 'e' ∨ c = 'E') ∧ (n.point = .zero ∨ n.point = .whole ∨ n.point = .fraction) then
      some (.more { n with point := .mark })
    else if c = '+' ∧ n.point = .mark then
      some (.more { n with sign := .plus, point := .markSigned })
    else if c = '-' ∧ n.point = .mark then
      some (.more { n with sign := .minus, point := .markSigned })
    else some .ends

end NumberState

/-! ## The assembler -/

/-- A container that is open around the value being read: the items or members before it, in
    reverse, and its name if it is a member. -/
inductive Frame where
  | items (before : List Json)
  | members (before : List (JsonText × Json)) (name : JsonText)

/-- What may come next, innermost container first. -/
inductive Assembly where
  /-- A value. -/
  | value (outer : List Frame)
  /-- The first item of an array, or its end. -/
  | firstItem (outer : List Frame)
  /-- A comma or the end of the array. -/
  | afterItem (outer : List Frame) (items : List Json)
  /-- The first name of an object, or its end. -/
  | firstName (outer : List Frame)
  /-- A name. -/
  | memberName (outer : List Frame) (members : List (JsonText × Json))
  /-- The colon behind a name. -/
  | colon (outer : List Frame) (members : List (JsonText × Json)) (name : JsonText)
  /-- A comma or the end of the object. -/
  | afterMember (outer : List Frame) (members : List (JsonText × Json))
  /-- Nothing: the text's value is complete. -/
  | complete (value : Json)

namespace Assembly

/-- Puts a finished value into the innermost open container. -/
def place (outer : List Frame) (j : Json) : Assembly :=
  match outer with
  | [] => .complete j
  | .items before :: rest => .afterItem rest (j :: before)
  | .members before name :: rest => .afterMember rest ((name, j) :: before)

/-- Takes a token where a value may stand. -/
def takeValue (outer : List Frame) : Token → Option Assembly
  | .scalar j => some (place outer j)
  | .openArray => some (.firstItem outer)
  | .openObject => some (.firstName outer)
  | _ => none

/-- Takes one token. -/
def take (a : Assembly) (t : Token) : Option Assembly :=
  match a, t with
  | .value outer, t => takeValue outer t
  | .firstItem outer, .closeArray => some (place outer (.array []))
  | .firstItem outer, t => takeValue (.items [] :: outer) t
  | .afterItem outer items, .comma => some (.value (.items items :: outer))
  | .afterItem outer items, .closeArray => some (place outer (.array items.reverse))
  | .firstName outer, .closeObject => some (place outer (.object []))
  | .firstName outer, .scalar (.string name) => some (.colon outer [] name)
  | .memberName outer members, .scalar (.string name) => some (.colon outer members name)
  | .colon outer members name, .colon => some (.value (.members members name :: outer))
  | .afterMember outer members, .comma => some (.memberName outer members)
  | .afterMember outer members, .closeObject => some (place outer (.object members.reverse))
  | _, _ => none

/-- The value, once it is complete. -/
def result? : Assembly → Option Json
  | .complete j => some j
  | _ => none

end Assembly

/-! ## The scanner -/

/-- Where the scanner stands. -/
inductive Scan where
  /-- Between tokens. -/
  | idle
  /-- Inside a word, with the characters to come. -/
  | word (rest : List Char) (value : Json)
  | string (s : StringState)
  | number (n : NumberState)

/-- The state of reading a text. -/
structure Reader where
  scan : Scan
  assembly : Assembly

namespace Reader

/-- Before the first character. -/
def start : Reader := ⟨.idle, .value []⟩

/-- A character that may stand between tokens. -/
def isBlank (c : Char) : Bool := c = ' ' || c = '\n' || c = '\t' || c = '\r'

/-- Hands a token to the assembler. -/
def emit (a : Assembly) (t : Token) : Option Reader := (a.take t).map (⟨.idle, ·⟩)

/-- Feeds a character between tokens. -/
def feedIdle (a : Assembly) (c : Char) : Option Reader :=
  if isBlank c then some ⟨.idle, a⟩
  else if c = '[' then emit a .openArray
  else if c = ']' then emit a .closeArray
  else if c = '\x7b' then emit a .openObject
  else if c = '\x7d' then emit a .closeObject
  else if c = ':' then emit a .colon
  else if c = ',' then emit a .comma
  else if c = '"' then some ⟨.string .start, a⟩
  else if c = 'n' then some ⟨.word ['u', 'l', 'l'] .null, a⟩
  else if c = 't' then some ⟨.word ['r', 'u', 'e'] (.bool true), a⟩
  else if c = 'f' then some ⟨.word ['a', 'l', 's', 'e'] (.bool false), a⟩
  else if c = '-' then some ⟨.number .ofSign, a⟩
  else (Digit.ofChar? c).map fun d => ⟨.number (.ofDigit false d), a⟩

/-- Feeds one character. -/
def feed (r : Reader) (c : Char) : Option Reader :=
  match r.scan with
  | .idle => feedIdle r.assembly c
  | .word [] _ => none
  | .word [w] j => if c = w then emit r.assembly (.scalar j) else none
  | .word (w :: ws) j => if c = w then some ⟨.word ws j, r.assembly⟩ else none
  | .string s =>
    match s.feed c with
    | none => none
    | some (.more s) => some ⟨.string s, r.assembly⟩
    | some (.done text) => emit r.assembly (.scalar (.string text))
  | .number n =>
    match n.feed c with
    | none => none
    | some (.more n) => some ⟨.number n, r.assembly⟩
    | some .ends => do
      let value ← n.finish?
      let r ← emit r.assembly (.scalar (.number value))
      feedIdle r.assembly c

/-- The value of the text that was fed. -/
def finish? (r : Reader) : Option Json :=
  match r.scan with
  | .idle => r.assembly.result?
  | .number n => do
    let value ← n.finish?
    let a ← r.assembly.take (.scalar (.number value))
    a.result?
  | .word .. | .string .. => none

end Reader

/-- The value that characters spell. -/
def ofChars? (cs : List Char) : Option Json := do
  let r ← cs.foldlM Reader.feed Reader.start
  r.finish?

/-- The value that a text spells. -/
def parse? (s : String) : Option Json := ofChars? s.toList

end Json

end Federated
