import EditableLisp.Machine.State
import EditableLisp.Expansion
import EditableLisp.Pattern

/-!
# Calls

What the machine does with bodies (`eval_body`), functions (`begin_func`, `eval_args`, `apply`) and expanders
(`expand_call`, `finish_expansion`, `macroexpand`). A closure gets a new frame for each call, so a call never writes a
frame that was there before. The call of an expander is served from the expansion kept on it while that is still good.
`memo` keeps the value of a node.
-/

namespace EditableLisp.Machine

/-- Evaluates the forms of a body in order, the last one in place of the body. -/
def evalBody (total : Nat) (rest : List Value) (env : Env) (stack : List Pending) : State :=
  match rest with
  | [] => ⟨.ret .nil, stack⟩
  | [form] => ⟨.eval form env, stack⟩
  | form :: rest => ⟨.eval form env, .body total rest env :: stack⟩

/-- Pends to keep the value of a node. A node that is evaluated in place of another shares its pending
step, and one that is already there is not added. -/
def memo (node : Value) (stack : List Pending) : List Pending :=
  match stack with
  | .memo nodes :: below =>
    if nodes.any fun n => n.identical node then .memo nodes :: below
    else .memo (nodes ++ [node]) :: below
  | stack => .memo [node] :: stack

/-- Goes on with the outcome of a built-in function. -/
def afterOutcome (outcome : Outcome) (stack : List Pending) : State :=
  match outcome with
  | .value v => ⟨.ret v, stack⟩
  | .call job f args => ⟨.call f args, .job job :: stack⟩

/-- A new frame in which parameters are bound to arguments. -/
def enter (env : Env) (params : Value) (args : List Value) : Act Env := do
  let frame ← newChild env
  Pattern.destructure frame params (← newVector args)
  return frame

/-- Calls a function on values. An expander, too, is called like a function. -/
def apply (f : Value) (args : List Value) (stack : List Pending) : Act State :=
  match f with
  | .builtin _ code _ => do return afterOutcome (← code.run args) stack
  | .closure _ _ params body env _ => do return ⟨.eval body (← enter env params args), stack⟩
  | f => do fail (.notApplicable (← print f))

/-- Evaluates the rest of the arguments of a call, then calls the function. -/
def evalArgs (f : Value) (call : Call) (rest : List Value) (done : Array Value) (env : Env)
    (stack : List Pending) : Act State :=
  match rest with
  | arg :: rest => return ⟨.eval arg env, .args f call rest done env :: stack⟩
  | [] => apply f done.toList stack

/-! ## Expanders -/

/-- Evaluates an expansion, or hands it on. -/
def finishExpansion (form : Value) (target : Option Env) (stack : List Pending) : State :=
  match target with
  | some env => ⟨.eval form env, stack⟩
  | none => ⟨.ret form, stack⟩

/-- The form that a kept expansion serves for a call of an expander. -/
def servedForm? (call : Call) (f : Value) : Change (Option Value) := do
  let w ← get
  match w.expansions.get? call.node.id with
  | some e =>
    if e.servesFor w f then
      match e with
      | .constant _ form reads => do
        recordAll reads
        return some form
      | .bound _ template env => return some (← instantiate template env)
      | .unchanged => return none
    else return none
  | none => return none

/-- Expands the call of an expander anew. -/
def expandAnew (call : Call) (f : Value) (target : Option Env) (stack : List Pending) : Act State :=
  let args := call.items.tail
  match f with
  | .builtin _ code _ => do
    let (form, reads) ← recorded (code.evaluate args)
    setExpansion call.node.id (.constant f form reads)
    return finishExpansion form target stack
  | .closure _ kind params body env _ => do
    let frame ← enter env params args
    if kind = .template then
      let form ← instantiate body frame
      setExpansion call.node.id (.bound f body frame)
      return finishExpansion form target stack
    else
      let depth ← startRecording
      return ⟨.eval body frame, .expansion call f depth target :: stack⟩
  | f => do fail (.notFunction (← print f))

/-- Expands the call of an expander and goes on to evaluate the expansion in `target`, if there is one. -/
def expandCall (call : Call) (f : Value) (target : Option Env) (stack : List Pending) : Act State := do
  match ← servedForm? call f with
  | some form => return finishExpansion form target stack
  | none => expandAnew call f target stack

/-- Expands a form once if it is the call of an expander. -/
def expandOnce (form : Value) (env : Env) (stack : List Pending) : Act State := do
  match form with
  | .seq .list node items =>
    match Value.headName? items with
    | some name =>
      match (← get).lookup? env name with
      | some f =>
        if f.isExpander then expandCall ⟨node, items⟩ f none stack else return ⟨.ret form, stack⟩
      | none => return ⟨.ret form, stack⟩
    | none => return ⟨.ret form, stack⟩
  | form => return ⟨.ret form, stack⟩

/-- Marks a call as an ordinary one, unless it is already. -/
def markOrdinary (call : Call) : Change Unit := do
  match (← get).expansions.get? call.node.id with
  | some .unchanged => return ()
  | _ => setExpansion call.node.id .unchanged

/-- Calls what the head of a call evaluated to. -/
def begin (f : Value) (call : Call) (env : Env) (stack : List Pending) : Act State := do
  if f.functionId?.isNone then fail (.notFunction (← print f))
  else if f.isExpander then expandCall call f (some env) stack
  else
    markOrdinary call
    evalArgs f call call.items.tail #[] env stack

end EditableLisp.Machine
