/-
  Federated.Json.Writer

  The compact text of a JSON value: no blanks, members in order, and in strings only what
  must be escaped.
-/
import Federated.Json.Basic

namespace Federated

namespace Json

/-- The lower-case hexadecimal digit of `n`, which is below 16. -/
def hexDigit (n : Nat) : Char :=
  if n < 10 then Char.ofNat ('0'.toNat + n) else Char.ofNat ('a'.toNat + (n - 10))

/-- A character inside a string: the quote, the backslash and the control characters are
    escaped, five of the latter by a letter. -/
def escape (c : Char) : List Char :=
  if c = '"' then ['\\', '"']
  else if c = '\\' then ['\\', '\\']
  else if c = '\x08' then ['\\', 'b']
  else if c = '\t' then ['\\', 't']
  else if c = '\n' then ['\\', 'n']
  else if c = '\x0c' then ['\\', 'f']
  else if c = '\r' then ['\\', 'r']
  else if c.toNat < 32 then
    ['\\', 'u', '0', '0', hexDigit (c.toNat / 16), hexDigit (c.toNat % 16)]
  else [c]

/-- A string in quotes. -/
def quoted (cs : List Char) : List Char := '"' :: (cs.flatMap escape ++ ['"'])

/-- Rows of characters with a comma between neighbours. -/
def separated (rows : List (List Char)) : List Char := List.intercalate [','] rows

mutual

/-- The characters of a value. A string without readable characters has no text of its own
    and is written empty. -/
def chars : Json → List Char
  | .null => ['n', 'u', 'l', 'l']
  | .bool true => ['t', 'r', 'u', 'e']
  | .bool false => ['f', 'a', 'l', 's', 'e']
  | .number n => n.chars
  | .string text => quoted (text.getD [])
  | .array items => '[' :: (separated (itemRows items) ++ [']'])
  | .object members => '\x7b' :: (separated (memberRows members) ++ ['\x7d'])

/-- The characters of each item. -/
def itemRows : List Json → List (List Char)
  | [] => []
  | j :: js => chars j :: itemRows js

/-- The characters of each member, its name before the colon. -/
def memberRows : List (JsonText × Json) → List (List Char)
  | [] => []
  | (name, j) :: ms => (quoted (name.getD []) ++ ':' :: chars j) :: memberRows ms

end

/-- The compact text of a value. -/
def text (j : Json) : String := String.ofList j.chars

end Json

end Federated
