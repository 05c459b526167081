import Criterion.Syntax.Token

/-!
# Syntax trees

A tree is a token or a rule with the trees of its parts. Trees come from a source or from
elsewhere, so a rule may be one that the language does not have, and a span may be unknown.

* `Tree.text`: the text of a tree in its source.
-/

namespace Criterion

inductive Rule where
  | expressions
  | unaryTests
  | wildcard
  | positiveUnaryTests
  | simplePositiveUnaryTest
  | forExpression
  | quantifiedExpression
  | ifExpression
  | inExpressions
  | inExpression
  | iterationContext
  | disjunction
  | conjunction
  | comparison
  | instanceOf
  | type
  | arithmeticExpression
  | filterExpression
  | functionInvocation
  | pathExpression
  | qualifiedName
  | specialFunctionName
  | dateTimeConstructor
  | inputValue
  | parameters
  | positionalParameters
  | list
  | context
  | contextEntry
  | key
  | interval
  | intervalStart
  | intervalEnd
  | parenthesizedExpression
  /-- Several readings of one text, of which none was chosen. -/
  | ambiguous
  /-- A rule that the language does not have. -/
  | other (name : String)
deriving DecidableEq

namespace Rule

/-- The rules of the language with the names that trees show. -/
def table : List (Rule × String) :=
  [(.expressions, "expressions"), (.unaryTests, "unary_tests"), (.wildcard, "wildcard"),
    (.positiveUnaryTests, "positive_unary_tests"),
    (.simplePositiveUnaryTest, "simple_positive_unary_test"),
    (.forExpression, "for_expression"), (.quantifiedExpression, "quantified_expression"),
    (.ifExpression, "if_expression"), (.inExpressions, "in_expressions"),
    (.inExpression, "in_expression"), (.iterationContext, "iteration_context"),
    (.disjunction, "disjunction"), (.conjunction, "conjunction"), (.comparison, "comparison"),
    (.instanceOf, "instance_of"), (.type, "type"),
    (.arithmeticExpression, "arithmetic_expression"), (.filterExpression, "filter_expression"),
    (.functionInvocation, "function_invocation"), (.pathExpression, "path_expression"),
    (.qualifiedName, "qualified_name"), (.specialFunctionName, "special_function_name"),
    (.dateTimeConstructor, "date_time_constructor"), (.inputValue, "input_value"),
    (.parameters, "parameters"), (.positionalParameters, "positional_parameters"),
    (.list, "list"), (.context, "context"), (.contextEntry, "context_entry"), (.key, "key"),
    (.interval, "interval"), (.intervalStart, "interval_start"), (.intervalEnd, "interval_end"),
    (.parenthesizedExpression, "parenthesized_expression"), (.ambiguous, "_ambig")]

/-- The name under which a tree shows a rule. -/
def shown : Rule → String
  | .other name => name
  | r => (table.lookup r).getD ""

/-- The rule of a name. -/
def ofShown (s : String) : Rule :=
  match table.find? (·.2 == s) with
  | some (r, _) => r
  | none => .other s

end Rule

inductive Tree where
  | token (t : Token)
  | node (rule : Rule) (span : Option Span) (children : List Tree)

namespace Tree

def span : Tree → Option Span
  | .token t => t.span
  | .node _ span _ => span

/-- Whether a tree contributes nothing: a blank or a comment. -/
def isTrivia : Tree → Bool
  | .token t => t.kind.isTrivia
  | .node .. => false

end Tree

/-- The part of a source that a span covers. -/
def Span.slice (s : Span) (source : String) : String :=
  String.ofList ((source.toList.drop s.start).take (s.stop - s.start))

/-- The text of a tree: a token's own, or the part of the source that a rule's span covers. -/
def Tree.text (source : String) : Tree → String
  | .token t => t.text
  | .node _ (some span) _ => span.slice source
  | .node _ none _ => ""

end Criterion
