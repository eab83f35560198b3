import EditableLisp.Interpreter
import EditableLisp.Json.Encode
import EditableLisp.Files

/-!
# The command line

A command evaluates a source text or a program file and prints the value, as JSON if asked to, or instead
what each form of the program was expanded to (`Cli`, `run`, `expand_command`). A failure goes to the error output in
red. The interactive `repl` is left out.
-/

namespace EditableLisp

/-- A command. -/
structure Command where
  source : Option String
  file : Option String
  json : Bool
  expand : Bool
deriving DecidableEq, Repr

/-- Why a command fails. -/
inductive CommandFailure where
  /-- The program file cannot be read. -/
  | file (path : String) (problem : FileProblem)
  | program (f : Failure)

/-- What a command shows when it has ended. -/
structure Reply where
  code : Nat
  output : String
  errors : String
deriving DecidableEq, Repr

/-- A failure in words. -/
def Failure.text : Failure → String
  | .read e => e.text
  | .halt (.fault f) => f.text
  | .halt .crash => "crash"
  | .halt .exhausted => "exhausted"

namespace CommandFailure

/-- A failure of a command in words. -/
def text : CommandFailure → String
  | file path problem => (Fault.file path problem).message
  | program f => f.text

/-- The path whose file was missing, if the command failed for that. -/
def missingFile? : CommandFailure → Option String
  | file path .missing => some path
  | program (.halt (.fault f)) => f.missingFile?
  | _ => none

end CommandFailure

/-- An error message in red. -/
def red (text : String) : String := "\x1b[38;5;9m" ++ text ++ "\x1b[39m\n"

/-- The reply of a command that ended in a world, with or without a failure. -/
def Reply.ofEnd (failure : Option CommandFailure) (w : World) : Reply :=
  match failure with
  | none => ⟨0, w.output, ""⟩
  | some f => ⟨1, w.output, red f.text⟩

namespace Command

/-- Reads arguments; those that follow a mark for a source are taken as they are. -/
def parse (c : Command) : List String → Command
  | [] => c
  | arg :: rest =>
    if arg == "-e" || arg == "--eval" then
      match rest with
      | source :: rest => parse { c with source := some source } rest
      | [] => c
    else if arg == "--json" then parse { c with json := true } rest
    else if arg == "--expand" then parse { c with expand := true } rest
    else parse { c with file := some arg } rest

/-- The command of some arguments. -/
def ofArguments (args : List String) : Command := parse ⟨none, none, false, false⟩ args

/-- Prints a value as a line. -/
def printResult (json : Bool) (v : Value) : Act Unit := do
  let text ← if json then encodeJson v else print v
  printLine text

/-- Prints what forms were expanded to. -/
def printExpansions (json : Bool) : List Value → Act Unit
  | [] => pure ()
  | form :: rest => do
    printResult json (← expandedForm form)
    printExpansions json rest

/-- Evaluates a program and prints what was asked for. -/
def runProgram (fuel : Nat) (c : Command) (program : Value) : Act Unit := do
  let v ← evalForm fuel program
  match program, c.expand with
  | .seq _ _ forms, true => printExpansions c.json forms
  | _, _ => printResult c.json v

/-- Evaluates a source text and prints what was asked for. -/
def runSource (fuel : Nat) (c : Command) (src : String) : Change (Option Failure) := do
  match ← readProgram src with
  | .error e => return some (.read e)
  | .ok program =>
    match ← attempt (runProgram fuel c program) with
    | .ok () => return none
    | .error h => return some (.halt h)

/-- Runs a command. A source text goes before a program file. -/
def run (fuel : Nat) (c : Command) : Change (Option CommandFailure) := do
  match c.source, c.file with
  | some src, _ => return (← runSource fuel c src).map .program
  | none, some path =>
    match (← get).readFile path with
    | .ok src => return (← runSource fuel c src).map .program
    | .error problem => return some (.file path problem)
  | none, none => return none

end Command

end EditableLisp
