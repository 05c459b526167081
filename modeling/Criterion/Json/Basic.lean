import Criterion.Number

/-!
# JSON

JSON values with the order of their keys, and their text: on one line, or indented.

A text keeps all characters but quotes, backslashes and control characters as they are. Numbers
that are not finite have names of their own.

* `Json.compact`, `Json.indented`: the two layouts.
-/

namespace Criterion

inductive Json where
  | null
  | boolean (b : Bool)
  | number (n : Number)
  | text (s : String)
  | array (items : List Json)
  | object (fields : List (String × Json))

namespace Json

/-- One character of a text. -/
def escaped (c : Char) : List Char :=
  if c = '"' then ['\\', '"']
  else if c = '\\' then ['\\', '\\']
  else if c = '\n' then ['\\', 'n']
  else if c = '\r' then ['\\', 'r']
  else if c = '\t' then ['\\', 't']
  else if c = '\x0c' then ['\\', 'f']
  else if c = '\x08' then ['\\', 'b']
  else if c.toNat < 32 then
    let digits := Nat.toDigits 16 c.toNat
    '\\' :: 'u' :: List.replicate (4 - digits.length) '0' ++ digits
  else [c]

/-- A text between quotes. -/
def quoted (s : String) : String := String.ofList ('"' :: s.toList.flatMap escaped ++ ['"'])

/-- The text of a number. -/
def numberText : Number → Except Failure String
  | .real .nan => .ok "NaN"
  | .real (.infinite s) => .ok (if s then "-Infinity" else "Infinity")
  | n => n.text

mutual

/-- The text on one line. -/
def compact : Json → Except Failure String
  | null => .ok "null"
  | boolean b => .ok (if b then "true" else "false")
  | number n => numberText n
  | text s => .ok (quoted s)
  | array items => do
    let parts ← compactItems items
    return "[" ++ ", ".intercalate parts ++ "]"
  | object fields => do
    let parts ← compactFields fields
    return "\x7b" ++ ", ".intercalate parts ++ "\x7d"

def compactItems : List Json → Except Failure (List String)
  | [] => .ok []
  | j :: rest => do
    let first ← compact j
    let others ← compactItems rest
    return first :: others

def compactFields : List (String × Json) → Except Failure (List String)
  | [] => .ok []
  | (k, j) :: rest => do
    let first ← compact j
    let others ← compactFields rest
    return (quoted k ++ ": " ++ first) :: others

end

/-- A line break and an indentation. -/
def lineBreak (depth : Nat) : String := "\n" ++ String.ofList (List.replicate (2 * depth) ' ')

/-- Parts on lines of their own between brackets; no parts stay on one line. -/
def block (opening closing : String) (depth : Nat) (parts : List String) : String :=
  if parts.isEmpty then opening ++ closing
  else opening ++ lineBreak (depth + 1) ++ ("," ++ lineBreak (depth + 1)).intercalate parts
    ++ lineBreak depth ++ closing

mutual

/-- The text with each part on a line of its own, indented by two blanks for each level. -/
def indented (depth : Nat) : Json → Except Failure String
  | null => .ok "null"
  | boolean b => .ok (if b then "true" else "false")
  | number n => numberText n
  | text s => .ok (quoted s)
  | array items => do
    let parts ← indentedItems (depth + 1) items
    return block "[" "]" depth parts
  | object fields => do
    let parts ← indentedFields (depth + 1) fields
    return block "\x7b" "\x7d" depth parts

def indentedItems (depth : Nat) : List Json → Except Failure (List String)
  | [] => .ok []
  | j :: rest => do
    let first ← indented depth j
    let others ← indentedItems depth rest
    return first :: others

def indentedFields (depth : Nat) : List (String × Json) → Except Failure (List String)
  | [] => .ok []
  | (k, j) :: rest => do
    let first ← indented depth j
    let others ← indentedFields depth rest
    return (quoted k ++ ": " ++ first) :: others

end

end Json

end Criterion
