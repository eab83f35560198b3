import EditableLisp.Interpreter

/-!
# The machine with positions

The machine keeps of a sequence that it works through what is left of it. Here is the machine that keeps the node
and a position in it, counts the elements that it has worked through, and takes elements out of nodes by
position.

An access that is out of range has no result, and neither has a map that is rebuilt from keys of which one is no
key or two are the same: a `Checked` act comes to `none` then. `Frame.erase` forgets the positions again. What is
pending is `Frame.WellFormed` if its position is one in its node. Some frames keep the position of the next element
and some that of the one at hand, so each has a bound of its own.

The steps that take nothing out of a node are those of the machine; what they go on with is pending here in
another form.
-/

namespace EditableLisp.Indexed

/-! ## Accesses -/

/-- An act that may be stuck at an access that is out of range. -/
abbrev Checked := OptionT Act

variable {α : Type}

/-- Goes on with what an access found. -/
def access (found : Option α) : Checked α := OptionT.mk (pure found)

/-- The elements from a position on. -/
def slice? (items : List α) (start : Nat) : Option (List α) :=
  if start ≤ items.length then some (items.drop start) else none

/-- The difference of two numbers. -/
def difference? (m n : Nat) : Option Nat := if n ≤ m then some (m - n) else none

/-- An entry of a key and a value, if the key is one. -/
def entry? (e : Value × Value) : Option (Key × Value) := e.1.key?.map (·, e.2)

/-- The entries of a map from its keys and values, if each key is one and no two are the same. -/
def rebuild? (pairs : List (Value × Value)) : Option Entries := do
  let entries ← pairs.mapM entry?
  if (Entries.names entries).Nodup then some entries else none

/-! ## States -/

/-- What the machine does when the value that it waits for arrives, with the node that it works through and its
position there. -/
inductive Frame where
  /-- The position of the next form of a body. -/
  | body (call : Call) (next : Nat) (env : Env)
  | head (call : Call) (env : Env)
  /-- The position of the next argument. -/
  | args (f : Value) (call : Call) (next : Nat) (done : Array Value) (env : Env)
  | branch (call : Call) (env : Env)
  | definition (name : String) (call : Call) (env : Env)
  /-- The position of the pattern that is being bound. -/
  | binding (bindings : List Value) (index : Nat) (call : Call) (env : Env)
  /-- The position of the next element of a template. -/
  | quasi (template : Value) (next : Nat) (done : Array Value) (splice : Bool) (env : Env)
  | expansion (call : Call) (maker : Value) (depth : Nat) (target : Option Env)
  | evaluate (env : Env)
  /-- The position of the next form. -/
  | conjunction (call : Call) (next : Nat) (env : Env)
  | disjunction (call : Call) (next : Nat) (env : Env)
  /-- The position of the next element. -/
  | vector (items : List Value) (next : Nat) (done : Array Value) (env : Env)
  /-- The position of the next entry. -/
  | map (entries : Entries) (next : Nat) (done : Array (Value × Value)) (env : Env)
  | memo (nodes : List Value)
  | job (job : Job)

/-- A state of the machine with positions. -/
structure State where
  control : Control
  stack : List Frame

/-! ## Bodies and calls -/

/-- Evaluates the form at a position, the last one in place of the others. -/
def evalAt (pend : Nat → Frame) (items : List Value) (index : Nat) (env : Env) (stack : List Frame) :
    Checked State := do
  let form ← access items[index]?
  if index + 1 = items.length then return ⟨.eval form env, stack⟩
  else return ⟨.eval form env, pend (index + 1) :: stack⟩

/-- Evaluates the forms of a body from a position on. -/
def evalBody (call : Call) (start : Nat) (env : Env) (stack : List Frame) : Checked State :=
  if call.items.length ≤ start then return ⟨.ret .nil, stack⟩
  else evalAt (.body call · env) call.items start env stack

/-- Pends to keep the value of a node. -/
def memo (node : Value) (stack : List Frame) : List Frame :=
  match stack with
  | .memo nodes :: below =>
    if nodes.any fun n => n.identical node then .memo nodes :: below
    else .memo (nodes ++ [node]) :: below
  | stack => .memo [node] :: stack

/-- Goes on with the outcome of a built-in function. -/
def afterOutcome (outcome : Outcome) (stack : List Frame) : State :=
  match outcome with
  | .value v => ⟨.ret v, stack⟩
  | .call job f args => ⟨.call f args, .job job :: stack⟩

/-- Calls a function on values. -/
def apply (f : Value) (args : List Value) (stack : List Frame) : Checked State :=
  match f with
  | .builtin _ code _ => do return afterOutcome (← code.run args) stack
  | .closure _ _ params body env _ => do return ⟨.eval body (← Machine.enter env params args), stack⟩
  | f => do
    let text ← (print f : Act String)
    (fail (.notApplicable text) : Act State)

/-- Evaluates the arguments of a call from a position on, then calls the function. -/
def evalArgs (f : Value) (call : Call) (next : Nat) (done : Array Value) (env : Env) (stack : List Frame) :
    Checked State :=
  match call.items[next]? with
  | some arg => return ⟨.eval arg env, .args f call (next + 1) done env :: stack⟩
  | none => apply f done.toList stack

/-- Evaluates an expansion, or hands it on. -/
def finishExpansion (form : Value) (target : Option Env) (stack : List Frame) : State :=
  match target with
  | some env => ⟨.eval form env, stack⟩
  | none => ⟨.ret form, stack⟩

/-- Expands the call of an expander anew. -/
def expandAnew (call : Call) (f : Value) (target : Option Env) (stack : List Frame) : Checked State := do
  let args ← access (slice? call.items 1)
  match f with
  | .builtin _ code _ => do
    let (form, reads) ← recorded (code.evaluate args)
    setExpansion call.node.id (.constant f form reads)
    return finishExpansion form target stack
  | .closure _ kind params body env _ => do
    let frame ← Machine.enter env params args
    if kind = .template then
      let form ← instantiate body frame
      setExpansion call.node.id (.bound f body frame)
      return finishExpansion form target stack
    else
      let depth ← startRecording
      return ⟨.eval body frame, .expansion call f depth target :: stack⟩
  | f => do
    let text ← (print f : Act String)
    (fail (.notFunction text) : Act State)

/-- Expands the call of an expander, and goes on to evaluate the expansion in `target` if there is one. -/
def expandCall (call : Call) (f : Value) (target : Option Env) (stack : List Frame) : Checked State := do
  match ← OptionT.lift (liftM (Machine.servedForm? call f)) with
  | some form => return finishExpansion form target stack
  | none => expandAnew call f target stack

/-- Expands a form once if it is the call of an expander. -/
def expandOnce (form : Value) (env : Env) (stack : List Frame) : Checked State :=
  match form with
  | .seq .list node items =>
    match Value.headName? items with
    | some name => do
      let w ← (get : Act World)
      match w.lookup? env name with
      | some f =>
        if f.isExpander then expandCall ⟨node, items⟩ f none stack else return ⟨.ret form, stack⟩
      | none => return ⟨.ret form, stack⟩
    | none => return ⟨.ret form, stack⟩
  | form => return ⟨.ret form, stack⟩

/-- Calls what the head of a call evaluated to; room is made for one argument less than the call has elements. -/
def begin (f : Value) (call : Call) (env : Env) (stack : List Frame) : Checked State := do
  if f.functionId?.isNone then
    let text ← (print f : Act String)
    (fail (.notFunction text) : Act State)
  else if f.isExpander then expandCall call f (some env) stack
  else
    Machine.markOrdinary call
    let _room ← access (difference? call.items.length 1)
    evalArgs f call 1 #[] env stack

/-! ## Patterns -/

mutual

/-- A value is a pattern. -/
def validate (pattern : Value) : Checked Unit :=
  match pattern with
  | .symbol _ name => if name == "&" then (fail .restAsName : Act Unit) else pure ()
  | .seq .vector node items => validateFrom (.seq .vector node items) items 0
  | v => do
    let text ← (print v : Act String)
    (fail (.badPattern text) : Act Unit)
termination_by (sizeOf pattern, 0)

/-- The elements of a vector from a position on are those of a pattern. -/
def validateFrom (whole : Value) (items : List Value) (i : Nat) : Checked Unit :=
  match hi : items[i]? with
  | none => pure ()
  | some item =>
    if Pattern.isRest item then
      if i + 2 ≠ items.length then do
        let text ← (print whole : Act String)
        (fail (.restPlacement text) : Act Unit)
      else
        match _hl : items[i + 1]? with
        | some last => validate last
        | none => access none
    else do
      validate item
      validateFrom whole items (i + 1)
termination_by (sizeOf items, items.length + 1 - i)
decreasing_by
  · have hm := List.sizeOf_lt_of_mem (List.mem_of_getElem? _hl)
    exact Prod.Lex.left _ _ hm
  · have hm := List.sizeOf_lt_of_mem (List.mem_of_getElem? hi)
    exact Prod.Lex.left _ _ hm
  · have hlt := (List.getElem?_eq_some_iff.mp hi).1
    exact Prod.Lex.right _ (by omega)

end

/-! ## Special forms -/

/-- A closure of parameters and a body in a chain of frames. -/
def makeClosure (params : Value) (body : List Value) (env : Env) (kind : ClosureKind) : Checked Value := do
  if !(params matches .seq .vector _ _) then
    let text ← (print params : Act String)
    (fail (.paramsNotVector text) : Act Value)
  else
    validate params
    let form ← (Machine.joinBody body : Act Value)
    let id ← (freshId : Act NodeId)
    return .closure id kind params form env .nil

def evalDefinition (call : Call) (env : Env) (stack : List Frame) : Checked State :=
  match call.items with
  | [_, .symbol _ name, form] => return ⟨.eval form env, .definition name call env :: stack⟩
  | _ => do
    let text ← (print call.toValue : Act String)
    (fail (.defShape text) : Act State)

def evalNamed (kind : ClosureKind) (call : Call) (env : Env) (stack : List Frame) : Checked State :=
  if kind = .template ∧ call.items.length ≠ 4 then (fail .templateShape : Act State)
  else
    match call.items with
    | _ :: .symbol _ name :: params :: body => do
      let f ← makeClosure params body env kind
      defineAt env name f call.toValue
      return ⟨.ret f, stack⟩
    | _ => do
      let text ← (print call.toValue : Act String)
      (fail (.namedShape text) : Act State)

def evalAnonymous (kind : ClosureKind) (call : Call) (env : Env) (stack : List Frame) : Checked State :=
  match call.items with
  | _ :: params :: body => do return ⟨.ret (← makeClosure params body env kind), stack⟩
  | _ => do
    let text ← (print call.toValue : Act String)
    (fail (.anonymousShape text) : Act State)

/-- Evaluates the form of the binding at a position. -/
def evalBinding (bindings : List Value) (index : Nat) (call : Call) (env : Env) (stack : List Frame) :
    Checked State := do
  let form ← access bindings[index + 1]?
  return ⟨.eval form env, .binding bindings index call env :: stack⟩

def evalLet (call : Call) (env : Env) (stack : List Frame) : Checked State :=
  match call.items with
  | _ :: .seq .vector _ bindings :: _ => do
    if bindings.length % 2 ≠ 0 then (fail (.letPairs bindings.length) : Act State)
    else
      let frame ← (newChild env : Act Env)
      if bindings.isEmpty then evalBody call 2 frame stack else evalBinding bindings 0 call frame stack
  | _ => do
    let text ← (print call.toValue : Act String)
    (fail (.letShape text) : Act State)

/-- Binds the pattern at a position, and goes on with the next binding or the body. -/
def bindAt (v : Value) (bindings : List Value) (index : Nat) (call : Call) (env : Env) (stack : List Frame) :
    Checked State := do
  let pattern ← access bindings[index]?
  Pattern.destructure env pattern v
  let next := index + 2
  if bindings.length ≤ next then evalBody call 2 env stack else evalBinding bindings next call env stack

def evalConditional (call : Call) (env : Env) (stack : List Frame) : Checked State :=
  match call.items with
  | [_, test, _] => return ⟨.eval test env, .branch call env :: stack⟩
  | [_, test, _, _] => return ⟨.eval test env, .branch call env :: stack⟩
  | _ => do
    let text ← (print call.toValue : Act String)
    (fail (.ifShape text) : Act State)

/-- Evaluates the branch that a test chose. -/
def evalBranch (v : Value) (call : Call) (env : Env) (stack : List Frame) : State :=
  match v.isTruthy, call.items with
  | true, _ :: _ :: yes :: _ => ⟨.eval yes env, stack⟩
  | false, [_, _, _, no] => ⟨.eval no env, stack⟩
  | _, _ => ⟨.ret .nil, stack⟩

/-- Goes on with the elements of a template from a position on. -/
def quasiAt (template : Value) (index : Nat) (done : Array Value) (env : Env) (stack : List Frame) :
    Checked State :=
  match template with
  | .seq shape _ items =>
    match items[index]? with
    | some item => do
      match ← OptionT.lift (Machine.spliced? item) with
      | some form => return ⟨.eval form env, .quasi template (index + 1) done true env :: stack⟩
      | none => return ⟨.quasi item env, .quasi template (index + 1) done false env :: stack⟩
    | none => do return ⟨.ret (← (newSeq shape done.toList : Act Value)), stack⟩
  | _ => return ⟨.ret template, stack⟩

/-- Applies the rule of a special form. -/
def evalSpecial (special : Special) (call : Call) (env : Env) (stack : List Frame) : Checked State :=
  match special with
  | .definition => evalDefinition call env stack
  | .named kind => evalNamed kind call env stack
  | .anonymous kind => evalAnonymous kind call env stack
  | .bindings => evalLet call env stack
  | .body => evalBody call 1 env stack
  | .conditional => evalConditional call env stack
  | .quote => do return ⟨.ret (← Machine.onlyArgument "quote" call), stack⟩
  | .quasiquote => do return ⟨.quasi (← Machine.onlyArgument "quasiquote" call) env, stack⟩
  | .macroexpand => do expandOnce (← Machine.onlyArgument "macroexpand" call) env stack
  | .evaluate => do return ⟨.eval (← Machine.onlyArgument "eval" call) env, .evaluate env :: stack⟩
  | .conjunction =>
    if call.items.length = 1 then return ⟨.ret (.bool true), stack⟩
    else evalAt (.conjunction call · env) call.items 1 env stack
  | .disjunction =>
    if call.items.length = 1 then return ⟨.ret .nil, stack⟩
    else evalAt (.disjunction call · env) call.items 1 env stack

/-! ## Steps -/

/-- Evaluates the elements of a vector from a position on. -/
def evalVector (items : List Value) (next : Nat) (done : Array Value) (env : Env) (stack : List Frame) :
    Checked State :=
  match items[next]? with
  | some form => return ⟨.eval form env, .vector items (next + 1) done env :: stack⟩
  | none => do return ⟨.ret (← (newVector done.toList : Act Value)), stack⟩

/-- Evaluates the entries of a map from a position on, then rebuilds the map. -/
def evalMap (entries : Entries) (next : Nat) (done : Array (Value × Value)) (env : Env) (stack : List Frame) :
    Checked State :=
  match entries[next]? with
  | some (_, form) => return ⟨.eval form env, .map entries (next + 1) done env :: stack⟩
  | none => do
    let rebuilt ← access (rebuild? done.toList)
    return ⟨.ret (← (newMap rebuilt : Act Value)), stack⟩

/-- Goes on with what is pending when a value arrives. -/
def resume (v : Value) (stack : List Frame) : Checked State :=
  match stack with
  | [] => return ⟨.landed v, []⟩
  | .body call next env :: stack => evalBody call next env stack
  | .head call env :: stack => begin v call env stack
  | .args f call next done env :: stack => evalArgs f call next (done.push v) env stack
  | .branch call env :: stack => return evalBranch v call env stack
  | .definition name call env :: stack => do
    defineAt env name v call.toValue
    return ⟨.ret v, stack⟩
  | .binding bindings index call env :: stack => bindAt v bindings index call env stack
  | .quasi template next done splice env :: stack => do
    quasiAt template next (← Machine.addQuasi splice done v) env stack
  | .expansion call maker depth target :: stack => do
    let reads ← (finishRecording depth : Act (List Lookup))
    setExpansion call.node.id (.constant maker v reads)
    return finishExpansion v target stack
  | .evaluate env :: stack => return ⟨.eval v env.root, stack⟩
  | .conjunction call next env :: stack =>
    if v.isTruthy then evalAt (.conjunction call · env) call.items next env stack else return ⟨.ret v, stack⟩
  | .disjunction call next env :: stack =>
    if v.isTruthy then return ⟨.ret v, stack⟩ else evalAt (.disjunction call · env) call.items next env stack
  | .vector items next done env :: stack => evalVector items next (done.push v) env stack
  | .map entries next done env :: stack => do
    let previous ← access (difference? next 1)
    let entry ← access entries[previous]?
    evalMap entries next (done.push (entry.1.toValue, v)) env stack
  | .memo nodes :: stack => do
    Machine.keepResults v nodes
    return ⟨.ret v, stack⟩
  | .job job :: stack => do return afterOutcome (← (job.resume v : Act Outcome)) stack

/-- Evaluates a symbol. -/
def evalSymbol (id : NodeId) (name : String) (env : Env) (stack : List Frame) : Checked State := do
  let v ← lookup env name
  record env name v
  setResult (.symbol id name) v
  let w ← (get : Act World)
  match w.site? env name with
  | some site => setSite id site
  | none => pure ()
  resume v stack

/-- Evaluates a list. -/
def evalList (node : Node) (items : List Value) (env : Env) (stack : List Frame) : Checked State :=
  let call : Call := ⟨node, items⟩
  if node.style = .program then evalBody call 0 env (memo call.toValue stack)
  else if items.isEmpty then resume call.toValue stack
  else
    let stack := memo call.toValue stack
    match (Value.headName? items).bind Special.ofName? with
    | some special => evalSpecial special call env stack
    | none => do
      let head ← access items[0]?
      return ⟨.eval head env, .head call env :: stack⟩

/-- Evaluates a form. -/
def eval (form : Value) (env : Env) (stack : List Frame) : Checked State :=
  match form with
  | .seq .list node items => evalList node items env stack
  | .symbol id name => evalSymbol id name env stack
  | .seq .vector node items =>
    if items.isEmpty then resume form stack
    else evalVector items 0 #[] env (memo (.seq .vector node items) stack)
  | .map node entries =>
    if entries.isEmpty then resume form stack else evalMap entries 0 #[] env (memo (.map node entries) stack)
  | form => resume form stack

/-- Copies a form of a template. -/
def quasi (form : Value) (env : Env) (stack : List Frame) : Checked State :=
  match form with
  | .seq shape _ items =>
    if shape = .list ∧ Value.headName? items = some "unquote" then
      match items with
      | [_, form] => return ⟨.eval form env, stack⟩
      | _ => (fail (.oneForm "unquote") : Act State)
    else if items.isEmpty then resume form stack
    else quasiAt form 0 #[] env stack
  | form => resume form stack

/-- Takes one step. -/
def step (s : State) : Checked State :=
  match s.control with
  | .eval form env => eval form env s.stack
  | .quasi form env => quasi form env s.stack
  | .ret v => resume v s.stack
  | .call f args => apply f args s.stack
  | .landed _ => return s

/-- The state after some number of steps. -/
def steps : Nat → State → Checked State
  | 0, s => pure s
  | n + 1, s => do steps n (← step s)

/-! ## Positions that are forgotten -/

namespace Frame

/-- The key of the entry before a position. -/
def keyBefore (entries : Entries) (next : Nat) : Key :=
  match entries[next - 1]? with
  | some entry => entry.1
  | none => .text ""

/-- What is pending, without the position. -/
def erase : Frame → Pending
  | body call next env => .body call.items.length (call.items.drop next) env
  | head call env => .head call env
  | args f call next done env => .args f call (call.items.drop next) done env
  | branch call env => .branch (call.items.getD 2 .nil) call.items[3]? env
  | definition name call env => .definition name call env
  | binding bindings index call env =>
    .binding index (bindings.getD index .nil) (bindings.drop (index + 2)) call env
  | quasi template next done splice env =>
    match template with
    | .seq shape _ items => .quasi shape items.length (items.drop next) done splice env
    | _ => .quasi .list 0 [] done splice env
  | expansion call maker depth target => .expansion call maker depth target
  | evaluate env => .evaluate env
  | conjunction call next env => .conjunction call.items.length (call.items.drop next) env
  | disjunction call next env => .disjunction call.items.length (call.items.drop next) env
  | vector items next done env => .vector items.length (items.drop next) done env
  | map entries next done env =>
    .map entries.length (keyBefore entries next) (entries.drop next) (done.filterMap entry?) env
  | memo nodes => .memo nodes
  | job pending => .job pending

/-- What is pending has its position in its node, and has worked through the elements before it. -/
def WellFormed : Frame → Prop
  | body call next _ => next < call.items.length
  | head call _ => call.items ≠ []
  | args _ call next done _ => next = done.size + 2 ∧ next ≤ call.items.length
  | branch call _ => call.items.length = 3 ∨ call.items.length = 4
  | definition _ call _ => call.items.length = 3
  | binding bindings index call _ =>
    bindings.length % 2 = 0 ∧ index % 2 = 0 ∧ index < bindings.length ∧ 2 ≤ call.items.length
  | quasi template next _ _ _ =>
    ∃ shape node items, template = .seq shape node items ∧ items ≠ [] ∧ 1 ≤ next ∧ next ≤ items.length
  | expansion call _ _ _ => call.items ≠ []
  | evaluate _ => True
  | conjunction call next _ => next < call.items.length
  | disjunction call next _ => next < call.items.length
  | vector items next done _ => next = done.size + 1 ∧ next ≤ items.length
  | map entries next done _ => next = done.size + 1 ∧ next ≤ entries.length ∧ (Entries.names entries).Nodup ∧
      done.toList.map Prod.fst = (entries.take done.size).map fun e => e.1.toValue
  | memo nodes => nodes ≠ []
  | job _ => True

end Frame

namespace State

/-- A state without positions. -/
def erase (s : State) : EditableLisp.State := ⟨s.control, s.stack.map Frame.erase⟩

/-- All that is pending is well formed. -/
def WellFormed (s : State) : Prop := ∀ frame ∈ s.stack, frame.WellFormed

end State

end EditableLisp.Indexed
