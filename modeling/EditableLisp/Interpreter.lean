import EditableLisp.Machine.Step

/-!
# The interpreter

What a host does with a world: read, evaluate, apply and expand (`Interpreter`: `read`, `eval`, `eval_in`,
`read_eval`, `apply`, `macroexpand`, `expand`). Every evaluation takes at most `fuel` steps (`run`, `drive`). A run that
fails drops the recordings of expansions that were started in it. `World.full` is the world of `new`, `World.initial`
that of `bare`.
-/

namespace EditableLisp

/-- An act after whose failure no recording is left open. -/
def balanced {α : Type} (act : Act α) : Act α := fun w =>
  match act w with
  | .ok a w' => .ok a w'
  | .error (.fault f) w' => .error (.fault f) (w'.abandon w.recordings.length)
  | .error h w' => .error h w'

/-! ## Worlds -/

/-- Binds built-in functions at the root. -/
def installAll : List Builtin → Change Unit
  | [] => pure ()
  | b :: rest => do
    define .global b.name (.builtin (← freshId) b .nil)
    installAll rest

/-- The ratio of a circle's circumference to its diameter. -/
def pi : Number := 3.141592653589793115997963

/-- A world with all built-in functions and `PI` at its root. -/
def World.full : World :=
  let install : Change Unit := do
    installAll (Builtin.functions ++ Builtin.expanders)
    define .global "PI" (.num pi)
  (install World.initial).2

/-! ## Evaluation -/

/-- Runs the machine from a state. -/
def runFrom (fuel : Nat) (s : State) : Act Value := balanced (Machine.drive fuel s)

/-- Evaluates a form in a chain of frames. -/
def evalIn (fuel : Nat) (form : Value) (env : Env) : Act Value := runFrom fuel ⟨.eval form env, []⟩

/-- Evaluates a form at the root. -/
def evalForm (fuel : Nat) (form : Value) : Act Value := evalIn fuel form .global

/-- Calls a function on values. -/
def applyValue (fuel : Nat) (f : Value) (args : List Value) : Act Value :=
  runFrom fuel ⟨.call f args, []⟩

/-- Expands a form once at the root, if it is the call of an expander, without evaluating it. The first
step is taken before the run, so a recording that it starts is around the run and stays open if the run
fails. -/
def expandForm (fuel : Nat) (form : Value) : Act Value := do
  runFrom fuel (← Machine.expandOnce form .global [])

/-- Why a text has no value. -/
inductive Failure where
  | read (e : ReadError)
  | halt (h : Halt)

/-- Reads a text as a program and evaluates it. -/
def readEval (fuel : Nat) (src : String) : Change (Except Failure Value) := do
  match ← readProgram src with
  | .error e => return .error (.read e)
  | .ok program =>
    match ← attempt (evalForm fuel program) with
    | .ok v => return .ok v
    | .error h => return .error (.halt h)

end EditableLisp
