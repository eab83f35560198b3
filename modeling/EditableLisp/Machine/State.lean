import EditableLisp.Builtin.Run

/-!
# States of the evaluator

Evaluation is a run of a machine. Its `State` is what it does now, the `Control` (`Trampoline`), and a stack of what is
still pending, innermost first (`Cont`). `State.describe` is the text of a state for inspection: it shows the value
or form in control and, of each pending step, its kind and how far it got.
-/

namespace EditableLisp

/-- A list that is evaluated as a call or a special form. -/
structure Call where
  node : Node
  items : List Value

namespace Call

/-- The list of a call. -/
def toValue (c : Call) : Value := .seq .list c.node c.items

/-- The name of the symbol at the head, for inspection. -/
def headText (c : Call) : String := (Value.headName? c.items).getD "?"

end Call

/-- What the machine does when the value that it waits for arrives. Where a sequence is worked through,
`total` is its length and `rest` what is left of it. -/
inductive Pending where
  /-- Evaluates the rest of a body. -/
  | body (total : Nat) (rest : List Value) (env : Env)
  /-- Calls what the head of a call evaluates to. -/
  | head (call : Call) (env : Env)
  /-- Evaluates the rest of the arguments of a call. -/
  | args (f : Value) (call : Call) (rest : List Value) (done : Array Value) (env : Env)
  /-- Chooses a branch. -/
  | branch (yes : Value) (no : Option Value) (env : Env)
  /-- Defines a name; the call is the site of the definition. -/
  | definition (name : String) (call : Call) (env : Env)
  /-- Binds a pattern of a `let`, which is at `index` among its bindings. -/
  | binding (index : Nat) (pattern : Value) (rest : List Value) (call : Call) (env : Env)
  /-- Adds an element, or the elements of a sequence, to what is quasiquoted. -/
  | quasi (shape : Shape) (total : Nat) (rest : List Value) (done : Array Value) (splice : Bool)
      (env : Env)
  /-- Keeps an expansion, with the lookups recorded since `depth`; goes on to evaluate it in `target` if
  there is one. -/
  | expansion (call : Call) (maker : Value) (depth : Nat) (target : Option Env)
  /-- Evaluates the value as a form at the root. -/
  | evaluate (env : Env)
  /-- Goes on with the forms of an `and`. -/
  | conjunction (total : Nat) (rest : List Value) (env : Env)
  /-- Goes on with the forms of an `or`. -/
  | disjunction (total : Nat) (rest : List Value) (env : Env)
  /-- Evaluates the rest of a vector. -/
  | vector (total : Nat) (rest : List Value) (done : Array Value) (env : Env)
  /-- Evaluates the rest of a map, after the value of `key`. -/
  | map (total : Nat) (key : Key) (rest : Entries) (done : Array (Key × Value)) (env : Env)
  /-- Keeps the value as the last one of these nodes. -/
  | memo (nodes : List Value)
  /-- Returns to a built-in function. -/
  | job (job : Job)

/-- What the machine does now. -/
inductive Control where
  | eval (form : Value) (env : Env)
  | quasi (form : Value) (env : Env)
  | ret (v : Value)
  | call (f : Value) (args : List Value)
  | landed (v : Value)

/-- A state of the machine. -/
structure State where
  control : Control
  stack : List Pending

namespace Pending

/-- The text of a pending step around the text of those below it. -/
def describe (below : String) : Pending → String
  | body total rest _ =>
    "<EvalDo " ++ toString (total - rest.length) ++ "/" ++ toString total ++ " " ++ below ++ ">"
  | head call _ => "<BeginFunc " ++ call.headText ++ " " ++ below ++ ">"
  | args _ call rest _ _ =>
    "<EvalFunc " ++ call.headText ++ " " ++ toString (call.items.length - rest.length) ++ "/" ++
      toString call.items.length ++ " " ++ below ++ ">"
  | branch .. => "<EvalIf " ++ below ++ ">"
  | definition name _ _ => "<EvalDef " ++ name ++ " " ++ below ++ ">"
  | binding index _ _ _ _ => "<EvalLet " ++ toString index ++ " " ++ below ++ ">"
  | quasi _ total rest _ splice _ =>
    "<ContinueQuasiquote " ++ toString (total - rest.length) ++ " splice=" ++
      (if splice then "true" else "false") ++ " " ++ below ++ ">"
  | expansion call _ _ _ => "<Expand " ++ call.headText ++ " " ++ below ++ ">"
  | evaluate _ => "<Eval " ++ below ++ ">"
  | conjunction total rest _ =>
    "<EvalAnd " ++ toString (total - rest.length) ++ " " ++ below ++ ">"
  | disjunction total rest _ =>
    "<EvalOr " ++ toString (total - rest.length) ++ " " ++ below ++ ">"
  | vector total rest _ _ =>
    "<EvalVector " ++ toString (total - rest.length) ++ " " ++ below ++ ">"
  | map total _ rest _ _ => "<EvalMap " ++ toString (total - rest.length) ++ " " ++ below ++ ">"
  | memo nodes => "<Memo " ++ toString nodes.length ++ " " ++ below ++ ">"
  | job _ => below

/-- A pending step belongs to a built-in function. -/
def isJob : Pending → Bool
  | job _ => true
  | _ => false

end Pending

namespace State

/-- The text of a stack. -/
def describeStack (stack : List Pending) : String :=
  stack.foldr (fun p below => p.describe below) "<Return>"

/-- The text of a state. -/
def describe (s : State) : Change String := do
  let below := describeStack s.stack
  match s.control with
  | .eval form _ => return "Bounce(" ++ (← print form) ++ ", env, " ++ below ++ ")"
  | .quasi form _ => return "QuasiquoteBounce(" ++ (← print form) ++ ", env, " ++ below ++ ")"
  | .ret v => return "Run(" ++ (← print v) ++ ", " ++ below ++ ")"
  | .call f _ => return "Run(" ++ (← print f) ++ ", " ++ below ++ ")"
  | .landed v => return "Land(" ++ (← print v) ++ ")"

/-- The machine is inside a call that a built-in function asked for. -/
def isInside (s : State) : Bool := s.stack.any Pending.isJob

end State

end EditableLisp
