/-!
# Tokens

The terminals of the language and the tokens of a source. A token knows its text and, if it
comes from a source, its span: the code points from `start` up to `stop`.
-/

namespace Criterion

/-- A half-open range of code points. -/
structure Span where
  start : Nat
  stop : Nat
deriving DecidableEq

/-- The words that are no names. -/
inductive Keyword where
  | forWord
  | inWord
  | returnWord
  | ifWord
  | thenWord
  | elseWord
  | everyWord
  | someWord
  | satisfiesWord
  | betweenWord
  | andWord
  | orWord
  | instanceWord
  | ofWord
  | trueWord
  | falseWord
  | nullWord
  /-- Reserved among unary tests only. -/
  | notWord
deriving DecidableEq

namespace Keyword

/-- The words that are reserved everywhere, with their spelling and the name of their terminal. -/
def table : List (Keyword × String × String) :=
  [(.forWord, "for", "FOR"), (.inWord, "in", "IN"), (.returnWord, "return", "RETURN"),
    (.ifWord, "if", "IF"), (.thenWord, "then", "THEN"), (.elseWord, "else", "ELSE"),
    (.everyWord, "every", "EVERY"), (.someWord, "some", "SOME"),
    (.satisfiesWord, "satisfies", "SATISFIES"), (.betweenWord, "between", "BETWEEN"),
    (.andWord, "and", "AND"), (.orWord, "or", "OR"), (.instanceWord, "instance", "INSTANCE"),
    (.ofWord, "of", "OF"), (.trueWord, "true", "TRUE"), (.falseWord, "false", "FALSE"),
    (.nullWord, "null", "NULL")]

/-- The reserved word of a spelling. -/
def ofSpelling? (s : String) : Option Keyword := (table.find? (·.2.1 == s)).map (·.1)

end Keyword

inductive Terminal where
  | identifier
  | number
  | string
  /-- A builtin name of several words before its arguments. -/
  | specialName
  | dateAndTime
  | keyword (k : Keyword)
  | plus
  | minus
  | star
  | slash
  | power
  | equal
  | differs
  | atMost
  | atLeast
  | less
  | greater
  | leftParen
  | rightParen
  | leftBracket
  | rightBracket
  | leftBrace
  | rightBrace
  | comma
  | colon
  | dot
  | dots
  | question
  | blank
  | lineComment
  | blockComment
  /-- A terminal of a tree from elsewhere. -/
  | other (name : String)
deriving DecidableEq

namespace Terminal

/-- The terminals of the language with the names that trees show. -/
def table : List (Terminal × String) :=
  [(.identifier, "NAME"), (.number, "NUMBER"), (.string, "STRING"),
    (.specialName, "SPECIAL_NAME"), (.dateAndTime, "DATE_AND_TIME"), (.plus, "PLUS"),
    (.minus, "MINUS"), (.star, "STAR"), (.slash, "SLASH"), (.power, "POW"), (.equal, "EQ"),
    (.differs, "NE"), (.atMost, "LE"), (.atLeast, "GE"), (.less, "LT"), (.greater, "GT"),
    (.leftParen, "LPAR"), (.rightParen, "RPAR"), (.leftBracket, "LSQB"),
    (.rightBracket, "RSQB"), (.leftBrace, "LBRACE"), (.rightBrace, "RBRACE"),
    (.comma, "COMMA"), (.colon, "COLON"), (.dot, "DOT"), (.dots, "DOTS"),
    (.question, "QMARK"), (.blank, "WS"), (.lineComment, "COMMENT"),
    (.blockComment, "BLOCK_COMMENT"), (.keyword .notWord, "NOT")]
  ++ Keyword.table.map fun (k, _, name) => (.keyword k, name)

/-- The name under which a tree shows a terminal. -/
def shown : Terminal → String
  | .other name => name
  | t => (table.lookup t).getD ""

/-- The terminal of a name. -/
def ofShown (s : String) : Terminal :=
  match table.find? (·.2 == s) with
  | some (t, _) => t
  | none => .other s

/-- Whether a terminal contributes nothing: blanks and comments. -/
def isTrivia : Terminal → Bool
  | .blank | .lineComment | .blockComment => true
  | _ => false

end Terminal

/-- A token of a tree. One that comes from no source has no span. -/
structure Token where
  kind : Terminal
  text : String
  span : Option Span
deriving DecidableEq

/-- A token at its place in a source. -/
structure Lexeme where
  kind : Terminal
  text : String
  start : Nat
  stop : Nat
deriving DecidableEq

def Lexeme.token (l : Lexeme) : Token := ⟨l.kind, l.text, some ⟨l.start, l.stop⟩⟩

end Criterion
