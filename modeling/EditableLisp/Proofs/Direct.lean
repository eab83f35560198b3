import EditableLisp.Machine.Special

/-!
# Direct evaluation

The rules of the language as one recursive evaluator: the value of a form is computed from the values of
its parts, and what is still to be done stands in the text of the rule and not on a stack. `Parts` are the
evaluators of what a rule asks for; each rule is a function of them. `Direct.eval` ties the rules together,
with a bound on the depth of the recursion.

* A symbol is looked up along the chain. A vector evaluates its elements from left to right and a map its
  values; a list is a special form or a call (`evalForm`).
* A call evaluates its head, then its arguments from left to right and once each, then calls the function.
  If the head is an expander, the call is expanded and the expansion is evaluated in the frame of the call
  (`evalCall`).
* A closure evaluates its body in a new frame; a built-in function that takes a function calls it on its
  own (`callFunction`).
* A node keeps the value that its evaluation ends with (`remember`).
-/

namespace EditableLisp.Direct

/-- The evaluators of the parts of a form: the value of a form, the copy of a template, and the call of a
function on values. -/
structure Parts where
  eval : Value → Env → Act Value
  quasi : Value → Env → Act Value
  call : Value → List Value → Act Value

/-- Keeps the value of a node. -/
def remember (node : Value) (act : Act Value) : Act Value := do
  let v ← act
  setResult node v
  return v

section Rules

variable (p : Parts)

/-! ## Sequences of forms -/

/-- The values of forms, from left to right. -/
def evalEach (env : Env) : List Value → Act (List Value)
  | [] => pure []
  | form :: rest => do
    let v ← p.eval form env
    let vs ← evalEach env rest
    return v :: vs

/-- The entries with the values of their forms, from left to right. -/
def evalEntries (env : Env) : Entries → Act Entries
  | [] => pure []
  | (key, form) :: rest => do
    let v ← p.eval form env
    let vs ← evalEntries env rest
    return (key, v) :: vs

/-- The value of the last of some forms; the others are evaluated before it. -/
def evalBody (env : Env) : List Value → Act Value
  | [] => pure .nil
  | [form] => p.eval form env
  | form :: rest => do
    let _ ← p.eval form env
    evalBody env rest

/-- The first value that does not count as true, or the last one. -/
def evalConjunction (env : Env) : List Value → Act Value
  | [] => pure (.bool true)
  | [form] => p.eval form env
  | form :: rest => do
    let v ← p.eval form env
    if v.isTruthy then evalConjunction env rest else return v

/-- The first value that counts as true, or the last one. -/
def evalDisjunction (env : Env) : List Value → Act Value
  | [] => pure .nil
  | [form] => p.eval form env
  | form :: rest => do
    let v ← p.eval form env
    if v.isTruthy then return v else evalDisjunction env rest

/-- Binds patterns to the values of forms in turn; each form sees the names before it. -/
def bindEach (env : Env) : List Value → Act Unit
  | pattern :: form :: rest => do
    let v ← p.eval form env
    Pattern.destructure env pattern v
    bindEach env rest
  | _ => pure ()

/-! ## Functions -/

/-- The results of calls on each of some values, with their positions if there is a first one. -/
def collect (f : Value) (index : Option Nat) : List Value → Act (List Value)
  | [] => pure []
  | v :: rest => do
    let r ← p.call f (Job.arguments index v)
    let rs ← collect f (index.map (· + 1)) rest
    return r :: rs

/-- The values on which a call is true or false as `wanted`. -/
def keep (f : Value) (wanted : Bool) : List Value → Act (List Value)
  | [] => pure []
  | v :: rest => do
    let r ← p.call f [v]
    let vs ← keep f wanted rest
    return if r.isTruthy == wanted then v :: vs else vs

/-- Calls a function on some values and the elements of the last one. -/
def spread (name : String) : List Value → Act Value
  | f :: arg :: args => do
    let more ← Argument.items ((arg :: args).getLastD .nil)
    p.call f ((arg :: args).dropLast ++ more)
  | args => Argument.wrongArity name args

/-- Puts into an atom what a function makes of its content and some values. -/
def swap (name : String) : List Value → Act Value
  | a :: f :: extra => do
    let id ← Argument.cell a
    let old ← readContent id
    let v ← p.call f (old :: extra)
    setContent id v
    return v
  | args => Argument.wrongArity name args

/-- Calls a built-in function. -/
def callBuiltin (b : Builtin) (args : List Value) : Act Value :=
  match b with
  | .map => Argument.two b.name
    (fun f coll => do newVector (← collect p f none (← Argument.items coll))) args
  | .mapIndexed => Argument.two b.name
    (fun f coll => do newVector (← collect p f (some 0) (← Argument.items coll))) args
  | .filter => Argument.two b.name
    (fun f coll => do newVector (← keep p f true (← Argument.items coll))) args
  | .remove => Argument.two b.name
    (fun f coll => do newVector (← keep p f false (← Argument.items coll))) args
  | .apply => spread p b.name args
  | .swap => swap p b.name args
  | b => b.evaluate args

/-- Calls a function: a closure evaluates its body in a new frame with its parameters bound. -/
def callFunction (f : Value) (args : List Value) : Act Value :=
  match f with
  | .builtin _ b _ => callBuiltin p b args
  | .closure _ _ params body env _ => do p.eval body (← Machine.enter env params args)
  | f => do fail (.notApplicable (← print f))

/-! ## Expanders -/

/-- The expansion of the call of an expander by the expander itself, kept on the call. -/
def expandAnew (call : Call) (f : Value) : Act Value :=
  let args := call.items.tail
  match f with
  | .builtin _ b _ => do
    let (form, reads) ← recorded (b.evaluate args)
    setExpansion call.node.id (.constant f form reads)
    return form
  | .closure _ kind params body env _ => do
    let frame ← Machine.enter env params args
    if kind = .template then
      let form ← instantiate body frame
      setExpansion call.node.id (.bound f body frame)
      return form
    else
      let depth ← startRecording
      let form ← p.eval body frame
      let reads ← finishRecording depth
      setExpansion call.node.id (.constant f form reads)
      return form
  | f => do fail (.notFunction (← print f))

/-- The expansion of the call of an expander: the one kept on the call while it is good, else a new one. -/
def expand (call : Call) (f : Value) : Act Value := do
  match ← Machine.servedForm? call f with
  | some form => return form
  | none => expandAnew p call f

/-- The expansion of a form if it is the call of an expander, else the form. -/
def expandOnce (form : Value) (env : Env) : Act Value := do
  match form with
  | .seq .list node items =>
    match Value.headName? items with
    | some name =>
      match (← get).lookup? env name with
      | some f => if f.isExpander then expand p ⟨node, items⟩ f else return form
      | none => return form
    | none => return form
  | form => return form

/-! ## Quasiquotation -/

/-- The elements that a spliced value stands for. -/
def splicedItems : Value → Act (List Value)
  | .seq _ _ items => pure items
  | .nil => pure []
  | v => do fail (.notSpliced (← print v))

/-- The elements of the copy of a template, from left to right. -/
def quasiEach (env : Env) : List Value → Act (List Value)
  | [] => pure []
  | item :: rest => do
    match ← Machine.spliced? item with
    | some form =>
      let v ← p.eval form env
      let vs ← splicedItems v
      let more ← quasiEach env rest
      return vs ++ more
    | none =>
      let v ← p.quasi item env
      let more ← quasiEach env rest
      return v :: more

/-- The copy of a template: the value of what is headed by `unquote`, a new sequence of the copied
elements, and everything else as it is. -/
def quasiForm (form : Value) (env : Env) : Act Value :=
  match form with
  | .seq shape _ items =>
    if shape = .list ∧ Value.headName? items = some "unquote" then
      match items with
      | [_, form] => p.eval form env
      | _ => fail (.oneForm "unquote")
    else if items.isEmpty then return form
    else do newSeq shape (← quasiEach p env items)
  | form => return form

/-! ## Forms -/

/-- The rules of the special forms. -/
def evalSpecial (special : Special) (call : Call) (env : Env) : Act Value :=
  match special with
  | .definition =>
    match call.items with
    | [_, .symbol _ name, form] => do
      let v ← p.eval form env
      defineAt env name v call.toValue
      return v
    | _ => do fail (.defShape (← print call.toValue))
  | .named kind =>
    if kind = .template ∧ call.items.length ≠ 4 then fail .templateShape
    else
      match call.items with
      | _ :: .symbol _ name :: params :: body => do
        let f ← Machine.makeClosure params body env kind
        defineAt env name f call.toValue
        return f
      | _ => do fail (.namedShape (← print call.toValue))
  | .anonymous kind =>
    match call.items with
    | _ :: params :: body => Machine.makeClosure params body env kind
    | _ => do fail (.anonymousShape (← print call.toValue))
  | .bindings =>
    match call.items with
    | _ :: .seq .vector _ bindings :: body => do
      if bindings.length % 2 = 1 then fail (.letPairs bindings.length)
      else
        let frame ← newChild env
        bindEach p frame bindings
        evalBody p frame body
    | _ => do fail (.letShape (← print call.toValue))
  | .body => evalBody p env call.items.tail
  | .conditional =>
    match call.items with
    | [_, test, yes] => do
      let v ← p.eval test env
      if v.isTruthy then p.eval yes env else return .nil
    | [_, test, yes, no] => do
      let v ← p.eval test env
      if v.isTruthy then p.eval yes env else p.eval no env
    | _ => do fail (.ifShape (← print call.toValue))
  | .quote => Machine.onlyArgument "quote" call
  | .quasiquote => do p.quasi (← Machine.onlyArgument "quasiquote" call) env
  | .macroexpand => do expandOnce p (← Machine.onlyArgument "macroexpand" call) env
  | .evaluate => do
    let form ← p.eval (← Machine.onlyArgument "eval" call) env
    p.eval form env.root
  | .conjunction => evalConjunction p env call.items.tail
  | .disjunction => evalDisjunction p env call.items.tail

/-- The rule of calls. -/
def evalCall (head : Value) (call : Call) (env : Env) : Act Value := do
  let f ← p.eval head env
  if f.functionId?.isNone then fail (.notFunction (← print f))
  else if f.isExpander then
    let form ← expand p call f
    p.eval form env
  else
    Machine.markOrdinary call
    let args ← evalEach p env call.items.tail
    callFunction p f args

/-- The rule of symbols. -/
def evalSymbol (id : NodeId) (name : String) (env : Env) : Act Value := do
  let v ← lookup env name
  record env name v
  setResult (.symbol id name) v
  match (← get).site? env name with
  | some site => setSite id site
  | none => pure ()
  return v

/-- The rule of every form. Programs, calls, special forms, and vectors and maps that are not empty keep
their value. -/
def evalForm (form : Value) (env : Env) : Act Value :=
  match form with
  | .seq .list node items =>
    if node.style = .program then remember form (evalBody p env items)
    else
      match items with
      | [] => return form
      | head :: _ =>
        remember form <|
          match (Value.headName? items).bind Special.ofName? with
          | some special => evalSpecial p special ⟨node, items⟩ env
          | none => evalCall p head ⟨node, items⟩ env
  | .symbol id name => evalSymbol id name env
  | .seq .vector _ items =>
    if items.isEmpty then return form
    else remember form do newVector (← evalEach p env items)
  | .map _ entries =>
    if entries.isEmpty then return form
    else remember form do newMap (Entries.ofPairs (← evalEntries p env entries))
  | form => return form

end Rules

/-! ## The evaluator -/

/-- The rules, with parts of parts at most so many levels down. -/
def parts : Nat → Parts
  | 0 => ⟨fun _ _ => throw .exhausted, fun _ _ => throw .exhausted, fun _ _ => throw .exhausted⟩
  | depth + 1 => ⟨evalForm (parts depth), quasiForm (parts depth), callFunction (parts depth)⟩

/-- The value of a form in a chain of frames, by a recursion of at most so many levels. -/
def eval (depth : Nat) (form : Value) (env : Env) : Act Value := (parts depth).eval form env

end EditableLisp.Direct
