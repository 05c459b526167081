import Criterion.Syntax.Token
import Criterion.Text.Blank
import Criterion.Text.Digit

/-!
# The tokens of a source

At each place the first of these that fits is read, as long as it goes: a builtin name of several
words with an argument list behind it, a number, a string, a word, blanks or a comment, an
operator of two characters, an operator of one. Blanks and comments are left out. Where nothing
fits the source has no further tokens.

* `scan?`: the terminal at the head of a text and its length.
* `lex`: the tokens of a source and the place where they end early.
-/

namespace Criterion

namespace Lexer

/-- What follows some words, each after at least one blank. -/
def afterWords? : List String → List Char → Option (List Char)
  | [], cs => some cs
  | w :: ws, cs =>
    if (cs.head?.any Text.isBlank) then
      (w.toList.isPrefixOf? (cs.dropWhile Text.isBlank)).bind (afterWords? ws)
    else none

/-- The length of a phrase that an argument list follows. -/
def phrase? (first : String) (more : List String) (cs : List Char) : Option Nat := do
  let rest ← (first.toList.isPrefixOf? cs).bind (afterWords? more)
  if (rest.dropWhile Text.isBlank).head? = some '(' then some (cs.length - rest.length) else none

/-- The builtin names of several words. -/
def phrases : List (Terminal × String × List String) :=
  [(.specialName, "string", ["length"]), (.specialName, "upper", ["case"]),
    (.specialName, "lower", ["case"]), (.specialName, "starts", ["with"]),
    (.specialName, "ends", ["with"]), (.specialName, "list", ["contains"]),
    (.specialName, "distinct", ["values"]), (.specialName, "index", ["of"]),
    (.dateAndTime, "date", ["and", "time"])]

/-- Digits, with a fraction or without one, or a fraction alone. -/
def number? (cs : List Char) : Option Nat :=
  let whole := cs.takeWhile Text.isDigit
  let fraction := match cs.drop whole.length with
    | '.' :: rest => (rest.takeWhile Text.isDigit).length
    | _ => 0
  if fraction ≠ 0 then some (whole.length + 1 + fraction)
  else if whole.length ≠ 0 then some whole.length
  else none

/-- The length of a string's characters and its closing quote. A backslash takes the next
character with it, which is no line break. -/
def closing? : List Char → Option Nat
  | [] => none
  | '"' :: _ => some 1
  | '\\' :: [] => none
  | '\\' :: c :: rest => if c = '\n' then none else (closing? rest).map (· + 2)
  | _ :: rest => (closing? rest).map (· + 1)

/-- Whether a word may start with the character. -/
def isWordStart (c : Char) : Bool := c.isAlpha || c == '_' || c == '$'

/-- Whether a word may go on with the character. -/
def isWordPart (c : Char) : Bool := isWordStart c || c.isDigit

/-- Whether the character is a blank between tokens. -/
def isSpace (c : Char) : Bool := c == ' ' || c == '\t' || c == '\x0c' || c == '\r' || c == '\n'

/-- The terminal of a word. -/
def wordKind (unary : Bool) (word : List Char) : Terminal :=
  let s := String.ofList word
  match Keyword.ofSpelling? s with
  | some k => .keyword k
  | none => if unary && s == "not" then .keyword .notWord else .identifier

/-- The length of a block comment's characters and its end. -/
def commentEnd? : List Char → Option Nat
  | [] => none
  | '*' :: '/' :: _ => some 2
  | _ :: rest => (commentEnd? rest).map (· + 1)

/-- A comment at the head of a text. -/
def comment? : List Char → Option (Terminal × Nat)
  | '/' :: '/' :: rest => some (.lineComment, 2 + (rest.takeWhile (· != '\n')).length)
  | '/' :: '*' :: rest => (commentEnd? rest).map fun n => (.blockComment, 2 + n)
  | _ => none

/-- The operators and brackets, those of two characters first. -/
def symbols : List (Terminal × String) :=
  [(.power, "**"), (.dots, ".."), (.differs, "!="), (.atMost, "<="), (.atLeast, ">="), (.plus, "+"),
    (.minus, "-"), (.star, "*"), (.slash, "/"), (.power, "^"), (.equal, "="), (.less, "<"),
    (.greater, ">"), (.leftParen, "("), (.rightParen, ")"), (.leftBracket, "["),
    (.rightBracket, "]"), (.leftBrace, "\x7b"), (.rightBrace, "\x7d"), (.comma, ","), (.colon, ":"),
    (.dot, "."), (.question, "?")]

/-- An operator or bracket at the head of a text. -/
def symbol? (cs : List Char) : Option (Terminal × Nat) :=
  symbols.findSome? fun (t, s) =>
    (if s.toList.isPrefixOf cs then some s.toList.length else none).map fun n => (t, n)

/-- A phrase, number, string, word or run of blanks at the head of a text. -/
def word? (unary : Bool) (cs : List Char) : Option (Terminal × Nat) :=
  match phrases.findSome? fun (t, first, more) => (phrase? first more cs).map fun n => (t, n) with
  | some found => some found
  | none =>
    match number? cs, cs with
    | some n, _ => some (.number, n)
    | none, [] => none
    | none, c :: rest =>
      if c = '"' then (closing? rest).map fun n => (.string, n + 1)
      else if isWordStart c then
        let word := (c :: rest).takeWhile isWordPart
        some (wordKind unary word, word.length)
      else if isSpace c then some (.blank, ((c :: rest).takeWhile isSpace).length)
      else none

/-- The terminal at the head of a text and its length, which is not zero. -/
def scan? (unary : Bool) (cs : List Char) : Option (Terminal × Nat) :=
  ((word? unary cs).or (comment? cs)).or (symbol? cs)

end Lexer

/-- The tokens of a source, and the place of the first character that starts no token. -/
structure Lexed where
  lexemes : List Lexeme
  stop : Option Nat

/-- The tokens of the text `cs`, which starts at `position`; `fuel` is at least its length. -/
def lexFrom (unary : Bool) (position : Nat) : (fuel : Nat) → (cs : List Char) → Lexed
  | 0, _ => ⟨[], none⟩
  | _, [] => ⟨[], none⟩
  | fuel + 1, cs =>
    match Lexer.scan? unary cs with
    | none => ⟨[], some position⟩
    | some (kind, n) =>
      let rest := lexFrom unary (position + n) fuel (cs.drop n)
      if kind.isTrivia then rest
      else
        ⟨⟨kind, String.ofList (cs.take n), position, position + n⟩ :: rest.lexemes, rest.stop⟩

/-- The tokens of a source. Among unary tests `not` is reserved. -/
def lex (unary : Bool) (source : String) : Lexed :=
  lexFrom unary 0 source.length source.toList

end Criterion
