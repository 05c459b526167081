import Criterion.CommandLine

/-!
# The program

Runs a command line: reads the file that the context names, prints, and writes the trace.
-/

open Criterion

/-- The name and text of the file that some arguments need, if it can be read. -/
def neededFile (arguments : List String) : IO (Option (String × String)) := do
  match (Options.ofArguments? arguments).bind fun o => o.context.bind CommandLine.contextFile? with
  | none => return none
  | some name =>
    try
      let text ← IO.FS.readFile name
      return some (name, text)
    catch _ => return none

def main (arguments : List String) : IO UInt32 := do
  let file ← neededFile arguments
  let files := fun name => file.bind fun (n, text) => if n = name then some text else none
  match CommandLine.run files arguments with
  | .ok output =>
    IO.print output.stdout
    IO.eprint output.stderr
    match output.trace with
    | some text => IO.FS.writeFile "debug.txt" text
    | none => pure ()
    return UInt32.ofNat output.code
  | .error _ =>
    IO.eprintln "a number is out of range"
    return 1
