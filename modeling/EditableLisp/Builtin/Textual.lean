import EditableLisp.Builtin.Sequence
import EditableLisp.Source.Reader

/-!
# Built-in functions on texts

Substrings by characters (`subs`), joining (`join`), reading (`read_string`), and the keyword of a name (`keyword`).
-/

namespace EditableLisp

/-- Adds the name of a built-in function to the wording of a failure. -/
def within {α : Type} (name : String) (act : Act α) : Act α := fun w =>
  match act w with
  | .ok a w => .ok a w
  | .error h w => .error (h.within name) w

namespace Textual

/-- The keyword of a name; a keyword is its own. -/
def keyword (v : Value) : Act Value :=
  match v with
  | .keyword k => pure (.keyword k)
  | v => do return .keyword (← intern (← Argument.nameFor "keyword" v))

/-- The characters of a string from one number to another. -/
def substring (s start : Value) (stop : Option Value) : Act Value := do
  let cs := (← Argument.string s).toList
  let start ← Argument.number start
  let stop ← Argument.number? stop
  return .text (String.ofList (Sequence.slice (Sequence.sliceBounds cs.length start stop) cs))

/-- The plain texts of a collection in a row, with a separator between them if there is one. -/
def join : List Value → Act Value
  | [coll] => do return .text (String.join (← printEachPlain (← Argument.items coll)))
  | [separator, coll] => do
    let separator ← printPlain separator
    return .text (separator.intercalate (← printEachPlain (← Argument.items coll)))
  | args => Argument.wrongArity "join" args

/-- The form that a string holds. -/
def read (s : Value) : Act Value := do
  match ← readForm (← Argument.string s) with
  | .ok v => return v
  | .error e => fail (.within "read-string" (.unreadable e))

end Textual

end EditableLisp
