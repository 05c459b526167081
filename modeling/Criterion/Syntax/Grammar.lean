import Criterion.Failure
import Criterion.Syntax.Lexer
import Criterion.Syntax.Readings

/-!
# The grammar

Expressions, from the loosest level to the tightest, and lists of unary tests. Each level is a
reader that is given the reader of whole expressions; `expression` ties the knot.

Where a text has several readings:

* an `else` belongs to the outermost `if` that can take it;
* a single operand in parentheses after `in` is an expression in parentheses, not a list of
  tests.

* `Grammar.expression`: the reader of expressions.
* `parse`: the tree of a source, or the first place that the source cannot be read past.
-/

namespace Criterion

open Reader

namespace Grammar

def keyword (k : Keyword) : Reader Unit := skip (.keyword k)

/-- A rule with its parts. -/
def rule (r : Rule) (parts : Reader (List Tree)) : Reader Tree :=
  node do return (r, ← parts)

/-- A comparison operator. -/
def relation : Reader Tree :=
  token [.equal, .differs, .atMost, .atLeast, .less, .greater]

/-- A rule that consists of one token. -/
def tokenRule (r : Rule) (t : Tree) : Tree := .node r t.span [t]

/-! ## Primary expressions -/

def literal : Reader Tree :=
  token [.number, .string, .keyword .trueWord, .keyword .falseWord, .keyword .nullWord]

/-- The rest of an interval after its opening bracket and its first bound. -/
def intervalRest (e : Reader Tree) (opening start : Tree) : Reader (Rule × List Tree) := do
  skip .dots
  let stop ← e
  let closing ← token [.rightParen, .leftBracket, .rightBracket]
  return (.interval, [tokenRule .intervalStart opening, start, stop, tokenRule .intervalEnd closing])

/-- A list, or an interval that opens with `[`. -/
def bracketed (e : Reader Tree) : Reader Tree := node do
  let opening ← token [.leftBracket]
  either
    (do skip .rightBracket; return (Rule.list, []))
    (do
      let first ← e
      either
        (do
          let items ← chain (fun items => do
            skip .comma
            let next ← e
            return items ++ [next]) [first]
          skip .rightBracket
          return (Rule.list, items))
        (intervalRest e opening first))

/-- An expression in parentheses, or an interval that opens with `(`. -/
def parenthesized (e : Reader Tree) : Reader Tree := node do
  let opening ← token [.leftParen]
  let first ← e
  either (intervalRest e opening first)
    (do skip .rightParen; return (Rule.parenthesizedExpression, [first]))

/-- An interval that opens with `]`. -/
def reversed (e : Reader Tree) : Reader Tree := node do
  let opening ← token [.rightBracket]
  let first ← e
  intervalRest e opening first

/-- A key, a colon and an expression. -/
def entry (e : Reader Tree) : Reader Tree := rule .contextEntry do
  let key ← token [.identifier, .string]
  skip .colon
  let value ← e
  return [tokenRule .key key, value]

def context (e : Reader Tree) : Reader Tree := rule .context do
  skip .leftBrace
  let entries ← either (separated (entry e)) (pure [])
  skip .rightBrace
  return entries

/-- The arguments of a call. -/
def parameters (e : Reader Tree) : Reader Tree := rule .parameters do
  skip .leftParen
  let arguments ← either
    (do return [← rule .positionalParameters (separated e)])
    (pure [])
  skip .rightParen
  return arguments

def primary (e : Reader Tree) : Reader Tree := oneOf [
  literal,
  bracketed e,
  context e,
  parenthesized e,
  reversed e,
  rule .inputValue (do skip .question; return []),
  rule .specialFunctionName (do return [← token [.specialName]]),
  rule .dateTimeConstructor (do
    let name ← token [.dateAndTime]
    return [name, ← parameters e])]

/-! ## Operators -/

/-- Names with dots between them. -/
def qualifiedName : Reader Tree := rule .qualifiedName do
  let first ← token [.identifier]
  chain (fun names => do
    skip .dot
    let next ← token [.identifier]
    return names ++ [next]) [first]

/-- Filters, calls and paths behind an expression. A dot behind a plain name belongs to the
name. -/
def postfixStep (e : Reader Tree) (left : Tree × Bool) : Reader (Tree × Bool) := oneOf [
  (do
    let t ← extend .filterExpression left.1 (do
      skip .leftBracket
      let condition ← e
      skip .rightBracket
      return [condition])
    return (t, false)),
  (do
    let t ← extend .functionInvocation left.1 (do return [← parameters e])
    return (t, false)),
  (if left.2 then none
    else do
      let t ← extend .pathExpression left.1 (do
        skip .dot
        return [← token [.identifier]])
      return (t, false))]

def postfixLevel (e : Reader Tree) : Reader Tree := do
  let first ← either (do return (← qualifiedName, true)) (do return (← primary e, false))
  let (t, _) ← chain (postfixStep e) first
  return t

/-- Minus signs before an operand, at most `fuel`. -/
def signs (operand : Reader Tree) : (fuel : Nat) → Reader Tree
  | 0 => operand
  | n + 1 => either operand
    (rule .arithmeticExpression do
      let minus ← token [.minus]
      return [minus, ← signs operand n])

def unaryLevel (e : Reader Tree) : Reader Tree := fun c =>
  signs (postfixLevel e) c.rest.length c

/-- Operands joined by operators of one level, from left to right. -/
def leftJoined (operand : Reader Tree) (operators : List Terminal) : Reader Tree := do
  let first ← operand
  chain (fun left => extend .arithmeticExpression left (do
    let op ← token operators
    return [op, ← operand])) first

def powerLevel (e : Reader Tree) : Reader Tree := leftJoined (unaryLevel e) [.power]

def productLevel (e : Reader Tree) : Reader Tree := leftJoined (powerLevel e) [.star, .slash]

def sumLevel (e : Reader Tree) : Reader Tree := leftJoined (productLevel e) [.plus, .minus]

def instanceLevel (e : Reader Tree) : Reader Tree := do
  let first ← sumLevel e
  chain (fun left => extend .instanceOf left (do
    keyword .instanceWord
    keyword .ofWord
    return [← rule .type (do return [← token [.identifier]])])) first

/-- A comparison operator and its right operand. -/
def simpleTest (e : Reader Tree) : Reader Tree := rule .simplePositiveUnaryTest do
  let op ← relation
  return [op, ← sumLevel e]

/-- Tests separated by commas. -/
def tests (e : Reader Tree) : Reader Tree :=
  rule .positiveUnaryTests (separated (either (simpleTest e) e))

/-- What follows the first operand of a comparison. -/
def comparisonRest (e : Reader Tree) : Reader (List Tree) := oneOf [
  (do
    let op ← relation
    return [op, ← instanceLevel e]),
  (do
    let between ← token [.keyword .betweenWord]
    let low ← instanceLevel e
    let and ← token [.keyword .andWord]
    return [between, low, and, ← instanceLevel e]),
  (do
    let word ← token [.keyword .inWord]
    either
      (do return [word, ← either (simpleTest e) (instanceLevel e)])
      (do
        let opening ← token [.leftParen]
        let ts ← tests e
        return [word, opening, ts, ← token [.rightParen]]))]

def comparisonLevel (e : Reader Tree) : Reader Tree :=
  fork (instanceLevel e) pure fun left => extend .comparison left (comparisonRest e)

/-- Operands joined by a word, from left to right. -/
def wordJoined (operand : Reader Tree) (k : Keyword) (r : Rule) : Reader Tree := do
  let first ← operand
  chain (fun left => extend r left (do
    keyword k
    return [← operand])) first

def andLevel (e : Reader Tree) : Reader Tree := wordJoined (comparisonLevel e) .andWord .conjunction

def orLevel (e : Reader Tree) : Reader Tree := wordJoined (andLevel e) .orWord .disjunction

/-! ## Loops and choices -/

/-- A list, or the two ends of a range. -/
def iterationContext (e : Reader Tree) : Reader Tree := rule .iterationContext
  (fork e
    (fun first => do
      skip .dots
      return [first, ← e])
    (fun first => return [first]))

/-- A name and what it ranges over. -/
def inExpression (e : Reader Tree) : Reader Tree := rule .inExpression do
  let name ← token [.identifier]
  keyword .inWord
  return [name, ← iterationContext e]

def inExpressions (e : Reader Tree) : Reader Tree :=
  rule .inExpressions (separated (inExpression e))

def forExpression (e : Reader Tree) : Reader Tree := rule .forExpression do
  keyword .forWord
  let bindings ← inExpressions e
  keyword .returnWord
  return [bindings, ← e]

def quantifiedExpression (e : Reader Tree) : Reader Tree := rule .quantifiedExpression do
  let quantifier ← token [.keyword .everyWord, .keyword .someWord]
  let bindings ← inExpressions e
  keyword .satisfiesWord
  return [quantifier, bindings, ← e]

/-- A choice with an `else` goes before one without. -/
def ifExpression (e : Reader Tree) : Reader Tree := rule .ifExpression
  (fork
    (do
      keyword .ifWord
      let condition ← e
      keyword .thenWord
      return [condition, ← e])
    (fun parts => do
      keyword .elseWord
      return parts ++ [← e])
    pure)

/-- An expression whose inner expressions are read by `e`. -/
def expressionLevel (e : Reader Tree) : Reader Tree := oneOf [
  forExpression e,
  quantifiedExpression e,
  ifExpression e,
  orLevel e]

/-- An expression with expressions inside each other at most `fuel` deep. -/
def expression : (fuel : Nat) → Reader Tree
  | 0 => none
  | n + 1 => expressionLevel (expression n)

/-! ## Sources -/

def expressions (e : Reader Tree) : Reader Tree := rule .expressions (separated e)

/-- Tests, tests that are negated as a whole, or a lone minus sign. -/
def unaryTests (e : Reader Tree) : Reader Tree := rule .unaryTests (oneOf [
  (do return [← tests e]),
  (do
    let word ← token [.keyword .notWord]
    let opening ← token [.leftParen]
    let ts ← tests e
    return [word, opening, ts, ← token [.rightParen]]),
  (do return [← rule .wildcard (do return [← token [.minus]])])])

end Grammar

/-- The readings of all tokens of a source. Expressions cannot be nested deeper than there are
tokens. -/
def readings (unary : Bool) (lexemes : List Lexeme) : Readings Tree :=
  let e := Grammar.expression (lexemes.length + 1)
  (if unary then Grammar.unaryTests e else Grammar.expressions e) ⟨0, lexemes⟩

/-- The reading that uses all tokens. -/
def Readings.complete? (x : Readings Tree) : Option Tree :=
  (x.found.find? fun (_, c) => c.rest.isEmpty).map (·.1)

/-- The first place that a source cannot be read past: the token after the furthest place
reached, or else the place where the tokens end. -/
def errorPlace (x : Readings Tree) (lexed : Lexed) (length : Nat) : Nat :=
  match lexed.lexemes.find? (x.reached ≤ ·.start) with
  | .some l => l.start
  | .none => lexed.stop.getD length

/-- The tree of a source: expressions or unary tests separated by commas. -/
def parse (unary : Bool) (source : String) : Except Failure Tree :=
  let lexed := lex unary source
  let x := readings unary lexed.lexemes
  match lexed.stop, x.complete? with
  | .none, .some t => .ok t
  | _, _ =>
    let start := errorPlace x lexed source.length
    .error (.unparseable start (min (start + 1) source.length) (some source))

end Criterion
