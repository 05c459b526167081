import Criterion.Syntax.Tree
import Criterion.UnaryTests

/-!
# What the parts of a tree stand for

Each token and each rule of a syntax tree stands for an artifact, made from the artifacts of its
parts: an expression, a piece of text that the part around it needs, or something in between
such as the bindings of a loop.

* `Token.assemble`, `Rule.assemble`: the artifact of a token and of a rule.
* `Artifact.eval`: the value of an artifact in a scope.
-/

namespace Criterion

inductive Artifact where
  /-- A name, a keyword or a bracket. -/
  | text (s : String)
  | expr (e : Expr)
  | arithmetic (op : Arithmetic)
  | relation (op : Relation)
  | quantifier (q : Quantifier)
  | entry (key : String) (value : Expr)
  | binding (name : String) (domain : Expr)
  | bindings (bs : List (String × Expr))
  | arguments (es : List Expr)
  | tests (ts : UnaryTests)

namespace Artifact

/-- The tag of an artifact that is no text. -/
def tag : Artifact → Option Tag
  | .expr e => e.tag
  | .relation _ | .quantifier _ | .tests _ => some .test
  | _ => none

/-- The line that shows an artifact in a trace. -/
def shown (a : Artifact) : String :=
  match a with
  | .text s => Text.quoted s
  | a => "Executable[" ++ (match a.tag with
    | some t => t.name
    | none => "untagged") ++ "]"

/-- The expression that an artifact is where a value is expected. -/
def operand? : Artifact → Option Expr
  | .expr e => some e
  | .arithmetic _ | .relation _ | .quantifier _ | .tests _ => some .procedure
  | _ => none

/-- The key of an entry: a name or a string. -/
def key? : Artifact → Option String
  | .text s => some s
  | .expr (.text s) => some s
  | _ => none

def text? : Artifact → Option String
  | .text s => some s
  | _ => none

def entry? : Artifact → Option (String × Expr)
  | .entry key value => some (key, value)
  | _ => none

def binding? : Artifact → Option (String × Expr)
  | .binding name domain => some (name, domain)
  | _ => none

/-- The value of an artifact that is no text. Bindings have the scopes that they make. -/
def eval (registry : Fields) (a : Artifact) (scope : Scope) : Eval Value :=
  match a with
  | .text s => return .text s
  | .expr e => e.eval registry scope
  | .arithmetic _ | .relation _ | .quantifier _ | .tests _ => return .procedure
  | .entry key value => do
    let v ← value.eval registry scope
    return .list [.text key, v]
  | .binding name domain => do
    let domains ← Expr.evalDomains registry [(name, domain)] scope
    return .list ((domains.flatMap (·.2)).map fun v => .context [(name, v)])
  | .bindings bs => do
    let domains ← Expr.evalDomains registry bs scope
    return .list ((loopScopes scope domains).map fun s => .context s.visible)
  | .arguments es => return .list (es.map fun _ => .procedure)

end Artifact

/-- A number as it is written: with a point a fraction, else an integer. -/
def numberLiteral (s : String) : Except Failure Expr :=
  let value :=
    if s.toList.contains '.' then (readFraction? s).map .real else (readWhole? s).map .whole
  match value with
  | some n => .ok (.number n)
  | none => .error .tooManyDigits

/-- A string without its quotes. -/
def stringLiteral (s : String) : Expr := .text (String.ofList (s.toList.drop 1).dropLast)

/-- The artifact of a token. -/
def Token.assemble (t : Token) : Except Failure Artifact :=
  match t.kind with
  | .number => (numberLiteral t.text).map .expr
  | .string => .ok (.expr (stringLiteral t.text))
  | .keyword .trueWord | .keyword .falseWord => .ok (.expr (.boolean (t.text == "true")))
  | .keyword .nullWord => .ok (.expr .null)
  | .keyword .everyWord => .ok (.quantifier .every)
  | .keyword .someWord => .ok (.quantifier .some)
  | .plus | .minus | .star | .slash | .power =>
    match Arithmetic.ofText? t.text with
    | some op => .ok (.arithmetic op)
    | none => .error (.misshapenNode t.kind.shown)
  | .equal | .differs | .atMost | .atLeast | .less | .greater =>
    match Relation.ofText? t.text with
    | some op => .ok (.relation op)
    | none => .error (.misshapenNode t.kind.shown)
  | _ => .ok (.text t.text)

namespace Rule

/-- A comparison from its operands and the word or operator between the first two. -/
def comparison? : List Artifact → Option Expr
  | a :: .relation op :: b :: _ => do return .relation op (← a.operand?) (← b.operand?)
  | [a, .text "in", b] => do return .member (← a.operand?) (← b.operand?)
  | a :: .text "in" :: _ :: b :: _ => do return .member (← a.operand?) (← b.operand?)
  | a :: .text "between" :: b :: _ :: c :: _ => do
    return .between (← a.operand?) (← b.operand?) (← c.operand?)
  | _ => none

/-- Tests, or the ones between the parentheses after `not`. -/
def unaryTests? (parts : List Artifact) : Option UnaryTests :=
  match parts with
  | .text "not" :: _ => do return ⟨true, ← ((parts.drop 2).dropLast).mapM Artifact.operand?⟩
  | parts => do return ⟨false, ← parts.mapM Artifact.operand?⟩

/-- The expression that a rule makes of its parts; `site` is where it starts and `text` is its
text. -/
def expr? (site : Nat) (text : String) : Rule → List Artifact → Option Expr
  | .expressions, parts | .positiveUnaryTests, parts | .list, parts => do
    return .list (← parts.mapM Artifact.operand?)
  | .wildcard, _ => some .wildcard
  | .simplePositiveUnaryTest, [.relation op, a] => do return .test site op (← a.operand?)
  | .forExpression, [.bindings bs, a] => do return .loop bs (← a.operand?)
  | .quantifiedExpression, [.quantifier q, .bindings bs, a] => do
    return .quantified q bs (← a.operand?)
  | .ifExpression, [a, b] => do return .choose (← a.operand?) (← b.operand?) none
  | .ifExpression, a :: b :: c :: _ => do
    return .choose (← a.operand?) (← b.operand?) (some (← c.operand?))
  | .iterationContext, [a, b] => do return .range (← a.operand?) (← b.operand?)
  | .disjunction, [a, b] => do return .disjunction (← a.operand?) (← b.operand?)
  | .conjunction, [a, b] => do return .conjunction (← a.operand?) (← b.operand?)
  | .comparison, parts => comparison? parts
  | .instanceOf, [a, .text s] => do return .instanceOf (← a.operand?) s
  | .arithmeticExpression, [a, .arithmetic op, b] => do
    return .arithmetic op (← a.operand?) (← b.operand?)
  | .arithmeticExpression, [.arithmetic op, a] => do return .unary op (← a.operand?)
  | .filterExpression, [a, b] => do return .filter (← a.operand?) (← b.operand?)
  | .functionInvocation, [a, .arguments es] => do return .call text (← a.operand?) es
  | .pathExpression, [a, .text name] => do return .path (← a.operand?) name
  | .qualifiedName, parts => do
    return .name (".".intercalate (← parts.mapM Artifact.text?))
  | .specialFunctionName, _ => some (.name (Text.normalizeBlanks text))
  | .dateTimeConstructor, [.text name, .arguments es] =>
    some (.call text (.registered (Text.normalizeBlanks name)) es)
  | .inputValue, _ => some .input
  | .context, parts => do return .context (← parts.mapM Artifact.entry?)
  | .interval, [.text opening, a, b, .text closing] => do
    return .interval site (opening == "[") (← a.operand?) (← b.operand?) (closing == "]")
  | _, _ => none

/-- The artifact that a rule makes of its parts, if they fit. -/
def artifact? (site : Nat) (text : String) : Rule → List Artifact → Option Artifact
  | .unaryTests, parts => (unaryTests? parts).map .tests
  | .inExpressions, parts => (parts.mapM Artifact.binding?).map .bindings
  | .inExpression, [.text name, a] => a.operand?.map (.binding name)
  | .iterationContext, [a] => some a
  | .parenthesizedExpression, a :: _ => some a
  | .key, a :: _ => some a
  | .type, _ | .intervalStart, _ | .intervalEnd, _ => some (.text text)
  | .parameters, [] => some (.arguments [])
  | .parameters, a :: _ => some a
  | .positionalParameters, parts => (parts.mapM Artifact.operand?).map .arguments
  | .contextEntry, [k, a] => do return .entry (← k.key?) (← a.operand?)
  | r, parts => (expr? site text r parts).map .expr

/-- The artifact of a rule. -/
def assemble (site : Nat) (text : String) (r : Rule) (parts : List Artifact) :
    Except Failure Artifact :=
  match r with
  | .other name => .error (.unknownRule name)
  | r =>
    match r.artifact? site text parts with
    | some a => .ok a
    | none => .error (.misshapenNode r.shown)

end Rule

end Criterion
