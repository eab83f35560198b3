import EditableLisp.Machine.Call

/-!
# Special forms

A list headed by one of fifteen symbols (`SpecialForm`) is evaluated by a rule of its own, whatever the symbol is bound
to (`cont_special`, with `cont_special_def`, `cont_special_defn`, `cont_special_fn`, `cont_special_let`,
`cont_special_if`, `and_step`, `or_step`). A form that does not have the shape that its rule demands fails.
-/

namespace EditableLisp

/-- The rules of the special forms. -/
inductive Special where
  /-- `(def name form)` -/
  | definition
  /-- `(defn name [params] body …)`, also for expanders -/
  | named (kind : ClosureKind)
  /-- `(fn [params] body …)`, also for expanders -/
  | anonymous (kind : ClosureKind)
  /-- `(let [pattern form …] body …)` -/
  | bindings
  /-- `(do body …)` -/
  | body
  /-- `(if test form)` and `(if test form form)` -/
  | conditional
  | quote
  | quasiquote
  | macroexpand
  | evaluate
  | conjunction
  | disjunction
deriving DecidableEq, Repr

/-- The rule of a symbol. -/
def Special.ofName? (name : String) : Option Special :=
  match name with
  | "def" => some .definition
  | "defn" => some (.named .function)
  | "defmacro" => some (.named .procedure)
  | "defsyntax" => some (.named .template)
  | "fn" => some (.anonymous .function)
  | "macro" => some (.anonymous .procedure)
  | "let" => some .bindings
  | "do" => some .body
  | "if" => some .conditional
  | "quote" => some .quote
  | "quasiquote" => some .quasiquote
  | "macroexpand" => some .macroexpand
  | "eval" => some .evaluate
  | "and" => some .conjunction
  | "or" => some .disjunction
  | _ => none

namespace Machine

/-! ## Closures and definitions -/

/-- One form of several. -/
def joinBody : List Value → Change Value
  | [] => return .nil
  | [form] => return form
  | forms => do newList ((← newSymbol "do") :: forms)

/-- A closure of parameters and a body in a chain of frames. -/
def makeClosure (params : Value) (body : List Value) (env : Env) (kind : ClosureKind) : Act Value := do
  if !(params matches .seq .vector _ _) then fail (.paramsNotVector (← print params))
  else
    Pattern.validate params
    let form ← joinBody body
    return .closure (← freshId) kind params form env .nil

/-- `(def name form)` evaluates the form and binds the name in the frame at hand. -/
def evalDefinition (call : Call) (env : Env) (stack : List Pending) : Act State :=
  match call.items with
  | [_, .symbol _ name, form] => return ⟨.eval form env, .definition name call env :: stack⟩
  | _ => do fail (.defShape (← print call.toValue))

/-- `(defn name [params] body …)` binds the name to a closure. -/
def evalNamed (kind : ClosureKind) (call : Call) (env : Env) (stack : List Pending) : Act State :=
  if kind = .template ∧ call.items.length ≠ 4 then fail .templateShape
  else
    match call.items with
    | _ :: .symbol _ name :: params :: body => do
      let f ← makeClosure params body env kind
      defineAt env name f call.toValue
      return ⟨.ret f, stack⟩
    | _ => do fail (.namedShape (← print call.toValue))

/-- `(fn [params] body …)` is a closure. -/
def evalAnonymous (kind : ClosureKind) (call : Call) (env : Env) (stack : List Pending) : Act State :=
  match call.items with
  | _ :: params :: body => do return ⟨.ret (← makeClosure params body env kind), stack⟩
  | _ => do fail (.anonymousShape (← print call.toValue))

/-! ## Bindings -/

/-- Evaluates the form of the next binding of a `let`, or its body. -/
def evalBindings (index : Nat) (rest : List Value) (call : Call) (env : Env) (stack : List Pending) :
    State :=
  match rest with
  | pattern :: form :: rest => ⟨.eval form env, .binding index pattern rest call env :: stack⟩
  | _ => evalBody call.items.length (call.items.drop 2) env stack

/-- `(let [pattern form …] body …)` binds in a new frame; each form sees the names before it. -/
def evalLet (call : Call) (env : Env) (stack : List Pending) : Act State :=
  match call.items with
  | _ :: .seq .vector _ bindings :: _ => do
    if bindings.length % 2 = 1 then fail (.letPairs bindings.length)
    else return evalBindings 0 bindings call (← newChild env) stack
  | _ => do fail (.letShape (← print call.toValue))

/-! ## Control -/

/-- `(if test form)` and `(if test form form)`. -/
def evalConditional (call : Call) (env : Env) (stack : List Pending) : Act State :=
  match call.items with
  | [_, test, yes] => return ⟨.eval test env, .branch yes none env :: stack⟩
  | [_, test, yes, no] => return ⟨.eval test env, .branch yes (some no) env :: stack⟩
  | _ => do fail (.ifShape (← print call.toValue))

/-- Evaluates the next form of an `and`, the last one in place of it. -/
def evalConjunction (total : Nat) (rest : List Value) (env : Env) (stack : List Pending) : State :=
  match rest with
  | [] => ⟨.ret (.bool true), stack⟩
  | [form] => ⟨.eval form env, stack⟩
  | form :: rest => ⟨.eval form env, .conjunction total rest env :: stack⟩

/-- Evaluates the next form of an `or`, the last one in place of it. -/
def evalDisjunction (total : Nat) (rest : List Value) (env : Env) (stack : List Pending) : State :=
  match rest with
  | [] => ⟨.ret .nil, stack⟩
  | [form] => ⟨.eval form env, stack⟩
  | form :: rest => ⟨.eval form env, .disjunction total rest env :: stack⟩

/-- The only argument of a special form. -/
def onlyArgument (name : String) (call : Call) : Act Value :=
  match call.items with
  | [_, form] => pure form
  | items => fail (.oneArgument name (items.length - 1))

/-! ## Quasiquotation -/

/-- The form to be spliced, if an element of a template is headed by `splice-unquote`. -/
def spliced? (item : Value) : Act (Option Value) :=
  match item with
  | .seq .list _ items =>
    if Value.headName? items = some "splice-unquote" then
      match items with
      | [_, form] => pure (some form)
      | _ => fail (.oneForm "splice-unquote")
    else pure none
  | _ => pure none

/-- Goes on with the elements of a template. -/
def quasiItems (shape : Shape) (total : Nat) (rest : List Value) (done : Array Value) (env : Env)
    (stack : List Pending) : Act State := do
  match rest with
  | [] => return ⟨.ret (← newSeq shape done.toList), stack⟩
  | item :: rest =>
    match ← spliced? item with
    | some form => return ⟨.eval form env, .quasi shape total rest done true env :: stack⟩
    | none => return ⟨.quasi item env, .quasi shape total rest done false env :: stack⟩

/-- Adds a value to the elements of a template: itself, or its elements. -/
def addQuasi (splice : Bool) (done : Array Value) (v : Value) : Act (Array Value) :=
  if splice then
    match v with
    | .seq _ _ items => pure (done ++ items)
    | .nil => pure done
    | v => do fail (.notSpliced (← print v))
  else pure (done.push v)

/-! ## All rules -/

/-- Applies the rule of a special form. -/
def evalSpecial (special : Special) (call : Call) (env : Env) (stack : List Pending) : Act State :=
  match special with
  | .definition => evalDefinition call env stack
  | .named kind => evalNamed kind call env stack
  | .anonymous kind => evalAnonymous kind call env stack
  | .bindings => evalLet call env stack
  | .body => return evalBody call.items.length call.items.tail env stack
  | .conditional => evalConditional call env stack
  | .quote => do return ⟨.ret (← onlyArgument "quote" call), stack⟩
  | .quasiquote => do return ⟨.quasi (← onlyArgument "quasiquote" call) env, stack⟩
  | .macroexpand => do expandOnce (← onlyArgument "macroexpand" call) env stack
  | .evaluate => do return ⟨.eval (← onlyArgument "eval" call) env, .evaluate env :: stack⟩
  | .conjunction => return evalConjunction call.items.length call.items.tail env stack
  | .disjunction => return evalDisjunction call.items.length call.items.tail env stack

end Machine

end EditableLisp
