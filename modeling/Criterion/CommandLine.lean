import Criterion.Json.Dump
import Criterion.Json.Reader
import Criterion.Memory.Sitting

/-!
# The command line

`[-v…] [--unary] [--context JSON] [--emit-tree] EXPRESSION` evaluates one source and prints its
value as JSON, or prints the tree of the source. A context that starts with `@` names a file.

* `Options.ofArguments?`: the options that a list of arguments asks for.
* `CommandLine.run`: the output of a command line, given the texts of files.
-/

namespace Criterion

/-! ## Arguments -/

structure Options where
  verbosity : Nat
  unary : Bool
  context : Option String
  emitTree : Bool
  expression : String
deriving DecidableEq

namespace Options

/-- The options that are written with dashes. -/
inductive Flag where
  | verbose
  | unary
  | context
  | emitTree
  | help
deriving DecidableEq

namespace Flag

def spellings : List (String × Flag) :=
  [("-h", .help), ("--help", .help), ("-v", .verbose), ("--unary", .unary),
    ("--context", .context), ("--emit-tree", .emitTree)]

def takesValue : Flag → Bool
  | .context => true
  | _ => false

end Flag

/-- What an argument is: a plain one, a flag with a value that is written into it or without
one, or nothing that is known. -/
inductive Word where
  | plain
  | flag (spelling : String) (f : Flag) (value : Option String)
  | unknown
  | ambiguous

/-- The text before the first equals sign and the text after it. -/
def splitValue (s : String) : String × Option String :=
  let cs := s.toList
  match cs.dropWhile (· != '=') with
  | [] => (s, none)
  | _ :: rest => (String.ofList (cs.takeWhile (· != '=')), some (String.ofList rest))

/-- Whether a text is a negative number in plain decimals; a line feed may end it. -/
def isNegativeNumber (cs : List Char) : Bool :=
  let cs := if cs.getLast? = some '\n' then cs.dropLast else cs
  match cs with
  | '-' :: rest =>
    let whole := rest.takeWhile Text.isDigit
    match rest.dropWhile Text.isDigit with
    | [] => !whole.isEmpty
    | '.' :: fraction => !fraction.isEmpty && fraction.all Text.isDigit
    | _ => false
  | _ => false

/-- The flags that an argument may stand for: after two dashes those that begin with it, and
after one dash the one whose letter it begins with. -/
def candidates (s : String) : List (String × Flag × Option String) :=
  match s.toList with
  | '-' :: '-' :: _ =>
    let (name, value) := splitValue s
    (Flag.spellings.filter fun (spelling, _) => name.toList.isPrefixOf spelling.toList).map
      fun (spelling, f) => (spelling, f, value)
  | '-' :: c :: rest =>
    Flag.spellings.filterMap fun (spelling, f) =>
      if spelling.toList = ['-', c] then some (spelling, f, some (String.ofList rest))
      else if ('-' :: c :: rest).isPrefixOf spelling.toList then some (spelling, f, none)
      else none
  | _ => []

/-- What an argument is. -/
def classify (s : String) : Word :=
  match s.toList with
  | [] => .plain
  | ['-'] => .plain
  | c :: _ =>
    if c ≠ '-' then .plain
    else
      match Flag.spellings.lookup s with
      | some f => .flag s f none
      | none =>
        let (name, value) := splitValue s
        match value, Flag.spellings.lookup name with
        | some v, some f => if f.takesValue then .flag name f (some v) else .unknown
        | _, _ =>
          match candidates s with
          | [(spelling, f, value)] => .flag spelling f value
          | _ :: _ :: _ => .ambiguous
          | [] =>
            if isNegativeNumber s.toList ∨ s.toList.contains ' ' then .plain else .unknown

/-- The flags with the values they were given, in order, and the plain arguments. -/
structure Parsed where
  flags : List (Flag × Option String)
  plain : List String

/-- The flags in an argument: a letter without a value may be followed by further letters. -/
def letters (spelling : String) (f : Flag) :
    (fuel : Nat) → (value : Option String) → Option (List (Flag × Option String))
  | 0, _ => none
  | _, none => if f.takesValue then none else some [(f, none)]
  | fuel + 1, some v =>
    if f.takesValue then some [(f, some v)]
    else
      match spelling.toList, v.toList with
      | ['-', _], c :: rest =>
        match Flag.spellings.lookup (String.ofList ['-', c]) with
        | some g =>
          let more := if rest.isEmpty then none else some (String.ofList rest)
          (letters (String.ofList ['-', c]) g fuel more).map ((f, none) :: ·)
        | none => none
      | _, _ => none

/-- Whether an argument can be the value of a flag before it. -/
def isValue (s : String) : Bool :=
  s ≠ "--" && match classify s with
    | .plain => true
    | _ => false

/-- All arguments, if each of them is accepted. After two dashes alone every argument is plain;
as the last argument they must follow a plain one. -/
def scan : List String → Option Parsed
  | [] => some ⟨[], []⟩
  | s :: rest =>
    if s = "--" then if rest.isEmpty then none else some ⟨[], rest⟩
    else
      match classify s with
      | .plain =>
        if rest = ["--"] then some ⟨[], [s]⟩
        else (scan rest).map fun p => ⟨p.flags, s :: p.plain⟩
      | .unknown | .ambiguous => none
      | .flag _ .context none =>
        match rest with
        | v :: rest =>
          if isValue v then (scan rest).map fun p => ⟨(.context, some v) :: p.flags, p.plain⟩
          else none
        | [] => none
      | .flag spelling f value =>
        match letters spelling f (s.length + 1) value with
        | some fs => (scan rest).map fun p => ⟨fs ++ p.flags, p.plain⟩
        | none => none

/-- The options of a list of arguments; none if the arguments are refused. -/
def ofArguments? (arguments : List String) : Option Options := do
  let p ← scan arguments
  match p.plain with
  | [expression] =>
    if p.flags.any (·.1 == .help) then none
    else
      let contexts := p.flags.filterMap fun (f, v) => if f = .context then v else none
      some {
        verbosity := (p.flags.filter (·.1 == .verbose)).length
        unary := p.flags.any (·.1 == .unary)
        context := contexts.getLast?
        emitTree := p.flags.any (·.1 == .emitTree)
        expression }
  | _ => none

end Options

/-! ## Running -/

namespace CommandLine

/-- What a run leaves: its exit code, what it prints, and the text of its trace if it kept
one. -/
structure Output where
  code : Nat
  stdout : String
  stderr : String
  trace : Option String
deriving DecidableEq

/-- The lines of a trace. -/
def traceText (events : List Event) : String :=
  String.join (events.filterMap fun e => match e with
    | .line text => some (text ++ "\n")
    | .call _ => none)

/-- A text with every line end as a line feed. -/
def unifyLineEnds : List Char → List Char
  | [] => []
  | '\r' :: '\n' :: rest => '\n' :: unifyLineEnds rest
  | c :: rest => (if c = '\r' then '\n' else c) :: unifyLineEnds rest

/-- The path that a file is named by: without empty and `.` parts. -/
def normalizePath (path : String) : String :=
  let parts := (pieces path.toList).filter fun p => p ≠ [] ∧ p ≠ ['.']
  let root := match path.toList with
    | '/' :: '/' :: '/' :: _ => "/"
    | '/' :: '/' :: _ => "//"
    | '/' :: _ => "/"
    | _ => ""
  let body := root ++ String.ofList (['/'].intercalate parts)
  if body.isEmpty then "." else body
where
  /-- The parts between the slashes. -/
  pieces : List Char → List (List Char)
    | [] => [[]]
    | c :: rest =>
      if c = '/' then [] :: pieces rest
      else match pieces rest with
        | [] => [[c]]
        | part :: parts => (c :: part) :: parts

/-- The file that a context argument names. -/
def contextFile? (argument : String) : Option String :=
  match argument.toList with
  | '@' :: rest => some (normalizePath (String.ofList rest))
  | _ => none

/-- Why a context cannot be used. -/
inductive ContextFault where
  | reported (message : String)
  | failed (f : Failure)

/-- The variables of a context argument. -/
def context (files : String → Option String) (argument : String) : Except ContextFault Fields := do
  let text ← match contextFile? argument with
    | none => pure argument
    | some name =>
      match files name with
      | some text => pure (String.ofList (unifyLineEnds text.toList))
      | none => throw (.reported ("Error: file " ++ name ++ " not found"))
  match Json.read text with
  | .ok (.object fields) => return .ofPairs (Value.fieldsOfJson fields)
  | .ok _ => throw (.reported "Error: context must be a JSON object")
  | .error .tooManyDigits => throw (.failed .tooManyDigits)
  | .error (.malformed message position) =>
    throw (.reported ("Error: invalid context JSON: " ++ Json.placeText text message position))

/-- The JSON text that a run prints. -/
def printed (o : Options) (settings : Settings) (bindings : Fields) : Action String := do
  if o.emitTree then
    let tree ← Run.ofExcept (parse o.unary o.expression)
    Run.ofExcept ((tree.toJson o.expression).indented 0)
  else
    let v ←
      if o.unary then respondUnary settings o.expression bindings false
      else respond settings o.expression bindings
    let json ← Run.ofExcept v.toJson
    Run.ofExcept json.compact

/-- A run with given options. A failure without an announcement stays a failure. -/
def runWith (files : String → Option String) (o : Options) : Except Failure Output :=
  let bindings : Except ContextFault Fields := match o.context with
    | some argument => if argument.isEmpty then .ok [] else context files argument
    | none => .ok []
  match bindings with
  | .error (.reported message) => .ok ⟨1, "", message ++ "\n", none⟩
  | .error (.failed f) => .error f
  | .ok bindings =>
    let action := printed o ⟨standardRegistry, o.verbosity⟩ bindings
    let trace := if o.verbosity = 0 then none else some (traceText action.events)
    match action.outcome with
    | .ok text => .ok ⟨0, text ++ "\n", "", trace⟩
    | .error f =>
      match f.report? with
      | some r => .ok ⟨1, "", "Runtime error: " ++ r.name ++ ": " ++ r.message ++ "\n", trace⟩
      | none => .error f

/-- A run of a command line. Arguments that are refused give the code 2. -/
def run (files : String → Option String) (arguments : List String) : Except Failure Output :=
  match Options.ofArguments? arguments with
  | some o => runWith files o
  | none => .ok ⟨2, "", "", none⟩

end CommandLine

end Criterion
