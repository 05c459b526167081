import Criterion.Json.Basic

/-!
# Reading JSON

Reads one JSON value from a text. `NaN`, `Infinity` and `-Infinity` are numbers too, and of a
number without fraction and exponent the integer is read. What cannot be read is reported with
its place: line, column and character.

* `Json.read`: the value of a text.
-/

namespace Criterion

namespace Json

/-- Why a text is no JSON value. -/
inductive Fault where
  | malformed (message : String) (position : Nat)
  /-- An integer has too many digits. -/
  | tooManyDigits
deriving DecidableEq

namespace Reader

/-- A place in a text: the number of characters before it and the ones after it. -/
structure Place where
  position : Nat
  rest : List Char

/-- A value and the place after it. -/
abbrev Result (α : Type) := Except Fault (α × Place)

def Place.advance (p : Place) (n : Nat) : Place := ⟨p.position + n, p.rest.drop n⟩

def fault {α : Type} (message : String) (position : Nat) : Except Fault α :=
  .error (.malformed message position)

def isBlank (c : Char) : Bool := c == ' ' || c == '\t' || c == '\n' || c == '\r'

def Place.skipBlanks (p : Place) : Place := p.advance (p.rest.takeWhile isBlank).length

/-- The value of a hexadecimal digit. -/
def hexValue? (c : Char) : Option Nat :=
  if c.isDigit then some (c.toNat - 48)
  else if 'a' ≤ c ∧ c ≤ 'f' then some (c.toNat - 87)
  else if 'A' ≤ c ∧ c ≤ 'F' then some (c.toNat - 55)
  else none

/-- The value of four hexadecimal digits, which must not end the text. -/
def fourDigits? (cs : List Char) : Option Nat :=
  match cs with
  | a :: b :: c :: d :: _ :: _ => do
    return ((← hexValue? a) * 16 + (← hexValue? b)) * 256 + (← hexValue? c) * 16 + (← hexValue? d)
  | _ => none

/-- The character of a code unit; a surrogate has none of its own. -/
def charOfUnit (n : Nat) : Char :=
  if 0xD800 ≤ n ∧ n < 0xE000 then Char.ofNat 0xFFFD else Char.ofNat n

/-- The character that a backslash stands for with the next one. -/
def shortEscape? : Char → Option Char
  | '"' => some '"'
  | '\\' => some '\\'
  | '/' => some '/'
  | 'b' => some '\x08'
  | 'f' => some '\x0c'
  | 'n' => some '\n'
  | 'r' => some '\r'
  | 't' => some '\t'
  | _ => none

/-- The character of an escape by code unit and the number of characters of the escape. A high
surrogate takes a following low surrogate with it. -/
def unitEscape (position : Nat) (cs : List Char) : Except Fault (Char × Nat) :=
  match fourDigits? (cs.drop 2) with
  | none => fault "Invalid \\uXXXX escape" (position + 1)
  | some high =>
    let next := cs.drop 6
    if 0xD800 ≤ high ∧ high < 0xDC00 ∧ 6 < next.length ∧ next.take 2 = ['\\', 'u'] then
      match fourDigits? (next.drop 2) with
      | none => fault "Invalid \\uXXXX escape" (position + 7)
      | some low =>
        if 0xDC00 ≤ low ∧ low < 0xE000 then
          .ok (Char.ofNat (0x10000 + (high - 0xD800) * 0x400 + (low - 0xDC00)), 12)
        else .ok (charOfUnit high, 6)
    else .ok (charOfUnit high, 6)

/-- The characters of a text up to its closing quote. `start` is the place of the opening quote
and `read` holds the characters so far, the last one first. -/
def text (start : Nat) : (fuel : Nat) → Place → (read : List Char) → Result String
  | 0, _, _ => fault "Unterminated string starting at" start
  | fuel + 1, p, read =>
    match p.rest with
    | [] => fault "Unterminated string starting at" start
    | '"' :: _ => .ok (String.ofList read.reverse, p.advance 1)
    | ['\\'] => fault "Unterminated string starting at" start
    | '\\' :: 'u' :: _ =>
      match unitEscape p.position p.rest with
      | .ok (c, n) => text start fuel (p.advance n) (c :: read)
      | .error e => .error e
    | '\\' :: c :: _ =>
      match shortEscape? c with
      | some d => text start fuel (p.advance 2) (d :: read)
      | none => fault "Invalid \\escape" p.position
    | c :: _ =>
      if c.toNat < 32 then fault "Invalid control character at" p.position
      else text start fuel (p.advance 1) (c :: read)

/-- Digits after a point, with the point; nothing if there are none. -/
def fractionLength : List Char → Nat
  | '.' :: rest =>
    let n := (rest.takeWhile Char.isDigit).length
    if n = 0 then 0 else n + 1
  | _ => 0

/-- An exponent with its mark and sign; nothing if it has no digits. -/
def exponentLength : List Char → Nat
  | c :: rest =>
    if c = 'e' ∨ c = 'E' then
      let sign := match rest with
        | d :: _ => if d = '+' ∨ d = '-' then 1 else 0
        | [] => 0
      let n := ((rest.drop sign).takeWhile Char.isDigit).length
      if n = 0 then 0 else 1 + sign + n
    else 0
  | [] => 0

/-- A number at a place. -/
def number (p : Place) : Result Json :=
  let sign := if p.rest.head? = some '-' then 1 else 0
  let digits := (p.rest.drop sign).takeWhile Char.isDigit
  let digits := if digits.head? = some '0' then ['0'] else digits
  if digits.isEmpty then fault "Expecting value" p.position
  else
    let whole := sign + digits.length
    let fraction := fractionLength (p.rest.drop whole)
    let length := whole + fraction + exponentLength (p.rest.drop (whole + fraction))
    let s := String.ofList (p.rest.take length)
    if length = whole then
      match readWhole? s with
      | some i => .ok (.number (.whole i), p.advance length)
      | none => .error .tooManyDigits
    else .ok (.number (.real ((readFraction? s).getD .nan)), p.advance length)

/-- The words that stand for values. -/
def words : List (String × Json) :=
  [("null", .null), ("true", .boolean true), ("false", .boolean false), ("NaN", .number (.real .nan)),
    ("Infinity", .number (.real (.infinite false))),
    ("-Infinity", .number (.real (.infinite true)))]

/-- A word at a place. -/
def word? (p : Place) : Option (Json × Place) :=
  words.findSome? fun (w, j) =>
    if w.toList.isPrefixOf p.rest then some (j, p.advance w.length) else none

mutual

/-- A value at a place. Values inside each other are at most `fuel` deep. -/
def value : (fuel : Nat) → Place → Result Json
  | 0, p => fault "Expecting value" p.position
  | fuel + 1, p =>
    match p.rest with
    | '"' :: _ =>
      match text p.position (p.rest.length + 1) (p.advance 1) [] with
      | .ok (s, q) => .ok (.text s, q)
      | .error e => .error e
    | '{' :: _ =>
      let q := (p.advance 1).skipBlanks
      if q.rest.head? = some '}' then .ok (.object [], q.advance 1)
      else fields fuel q []
    | '[' :: _ =>
      let q := (p.advance 1).skipBlanks
      if q.rest.head? = some ']' then .ok (.array [], q.advance 1)
      else items fuel q []
    | _ =>
      match word? p with
      | some found => .ok found
      | none => number p

/-- The elements of an array from a place on. `read` holds the elements so far, the last one
first. -/
def items : (fuel : Nat) → Place → (read : List Json) → Result Json
  | 0, p, _ => fault "Expecting value" p.position
  | fuel + 1, p, read =>
    match value fuel p with
    | .error e => .error e
    | .ok (j, q) =>
      let q := q.skipBlanks
      match q.rest.head? with
      | some ']' => .ok (.array (j :: read).reverse, q.advance 1)
      | some ',' => items fuel (q.advance 1).skipBlanks (j :: read)
      | _ => fault "Expecting ',' delimiter" q.position

/-- The fields of an object from a place on. -/
def fields : (fuel : Nat) → Place → (read : List (String × Json)) → Result Json
  | 0, p, _ => fault "Expecting value" p.position
  | fuel + 1, p, read =>
    if p.rest.head? = some '"' then
      match text p.position (p.rest.length + 1) (p.advance 1) [] with
      | .error e => .error e
      | .ok (key, q) =>
        let q := q.skipBlanks
        if q.rest.head? = some ':' then
          match value fuel (q.advance 1).skipBlanks with
          | .error e => .error e
          | .ok (j, q) =>
            let q := q.skipBlanks
            match q.rest.head? with
            | some '}' => .ok (.object ((key, j) :: read).reverse, q.advance 1)
            | some ',' => fields fuel (q.advance 1).skipBlanks ((key, j) :: read)
            | _ => fault "Expecting ',' delimiter" q.position
        else fault "Expecting ':' delimiter" q.position
    else fault "Expecting property name enclosed in double quotes" p.position

end

end Reader

/-- The value of a text, which holds nothing else but blanks. -/
def read (s : String) : Except Fault Json :=
  let cs := s.toList
  if cs.head? = some '\ufeff' then
    .error (.malformed "Unexpected UTF-8 BOM (decode using utf-8-sig)" 0)
  else
    match Reader.value (2 * cs.length + 2) (Reader.Place.skipBlanks ⟨0, cs⟩) with
    | .error e => .error e
    | .ok (j, p) =>
      let p := p.skipBlanks
      if p.rest.isEmpty then .ok j else .error (.malformed "Extra data" p.position)

/-- A message with its place in a text: lines and columns count from one. -/
def placeText (s : String) (message : String) (position : Nat) : String :=
  let before := s.toList.take position
  let line := before.count '\n' + 1
  let column := (before.reverse.takeWhile (· != '\n')).length + 1
  message ++ ": line " ++ naturalText line ++ " column " ++ naturalText column ++ " (char "
    ++ naturalText position ++ ")"

end Json

end Criterion
