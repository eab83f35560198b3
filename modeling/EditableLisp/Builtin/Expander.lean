import EditableLisp.Builtin.Argument

/-!
# Built-in expanders

`when`, `cond` and `->` (`thread_first`) take the forms of their call and return the form that stands for it. They are
the native functions that `register_macros` installs.
-/

namespace EditableLisp.Expander

/-- `(when test body …)` is `(if test (do body …))`. -/
def when : List Value → Act Value
  | test :: body => do
    let block ← newList ((← newSymbol "do") :: body)
    newList [← newSymbol "if", test, block]
  | [] => Argument.wrongArity "when" []

/-- `(if test form otherwise)`. -/
def conditional (test form otherwise : Value) : Change Value := do
  newList [← newSymbol "if", test, form, otherwise]

/-- Puts conditionals around a form, the last test and form of the reversed list outermost. -/
def conditionals (otherwise : Value) : List Value → Change Value
  | form :: test :: rest => do
    let v ← conditional test form otherwise
    conditionals v rest
  | _ => return otherwise

/-- `(cond t₁ e₁ t₂ e₂ …)` is `(if t₁ e₁ (if t₂ e₂ … nil))`. -/
def cond (args : List Value) : Act Value :=
  if args.length % 2 = 1 then fail (.condShape args.length)
  else conditionals .nil args.reverse

/-- Puts a form into a call as its first argument; a form that is no call becomes one. -/
def thread (acc form : Value) : Change Value :=
  match form with
  | .seq .list _ (head :: args) => newList (head :: acc :: args)
  | form => newList [form, acc]

/-- Threads a form through calls. -/
def threadAll (acc : Value) : List Value → Change Value
  | [] => return acc
  | form :: rest => do
    let acc ← thread acc form
    threadAll acc rest

/-- `(-> x (f a) g)` is `(g (f x a))`. -/
def threadFirst : List Value → Act Value
  | x :: forms => threadAll x forms
  | [] => Argument.wrongArity "->" []

end EditableLisp.Expander
