import Criterion.Text.Quoted

/-!
# Failures

Null is an ordinary answer; a failure ends an evaluation. Each constructor is a cause. The
first four families are announced to the user under a name with a message (`Failure.report?`);
the others are limits of numbers, misuse of the values' own functions, and what an evaluation by
values cannot tell.
-/

namespace Criterion

inductive Failure where
  /-- The source cannot be read past `start`; a tree that is no source's has no source to show. -/
  | unparseable (start stop : Nat) (source : Option String)
  /-- The bounds of a range, as shown, are not both whole numbers. -/
  | unsupportedRange (low high : String)
  /-- The target of a call, as written, is not a function. -/
  | notAFunction (call : String)
  | argumentCount (name : String) (expected given : Nat)
  | tooFewArguments (name : String) (least given : Nat)
  | tooManyArguments (name : String) (most given : Nat)
  | dateArguments (given : Nat)
  /-- A loop over a value, of the given kind and as shown, that is not a list. -/
  | notAList (name kind shown : String)
  /-- A number is too large for a conversion. -/
  | overflow
  /-- Not a number has no integer. -/
  | notANumber
  /-- An integer has too many digits to be converted to or from text. -/
  | tooManyDigits
  /-- A test or a value's own function is called with arguments that it does not take. -/
  | misusedCall
  /-- A list has no element at the place that one of its functions is asked for. -/
  | absentPlace
  /-- A list has no element that equals the one that one of its functions is asked for. -/
  | absentItem
  /-- What is told here ends: a value's own function is called whose answer values do not tell, as it
  changes a list or asks for the time of the day, or a list lies inside itself. -/
  | beyond
  /-- A tree names a rule that the language does not have. -/
  | unknownRule (name : String)
  /-- A tree has a node whose children do not fit its rule. -/
  | misshapenNode (rule : String)
  | absentKey (name : String)
deriving DecidableEq

namespace Failure

/-- How a failure is announced: a name and a message. -/
structure Report where
  name : String
  message : String
deriving DecidableEq

/-- The announcement of a failure; limits and misuse have none. -/
def report? : Failure → Option Report
  | unparseable start stop source =>
    let place := s!"Statement unparseable at [{start}, {stop}]"
    some ⟨"ParseFailure", match source with
      | some s => place ++ ": " ++ Text.quoted s
      | none => place⟩
  | unsupportedRange low high =>
    some ⟨"RangeConstructionFailure", s!"unsupported range {low}..{high}"⟩
  | notAFunction call =>
    some ⟨"InvocationFailure", s!"Failed to evaluate {call}: Target is not a function"⟩
  | argumentCount name expected given =>
    some ⟨"InvocationFailure", s!"{name} expects {expected} arguments, got {given}"⟩
  | tooFewArguments name least given =>
    some ⟨"InvocationFailure", s!"{name} expects at least {least} arguments, got {given}"⟩
  | tooManyArguments name most given =>
    some ⟨"InvocationFailure", s!"{name} expects at most {most} arguments, got {given}"⟩
  | dateArguments given =>
    some ⟨"InvocationFailure", s!"date expects 1 or 3 arguments, got {given}"⟩
  | notAList name kind shown =>
    some ⟨"ExtractionTypeFailure", s!"Cannot extract {name} from {kind} {shown}"⟩
  | _ => none

end Failure

end Criterion
