import EditableLisp.Source.Form
import EditableLisp.World

/-!
# Reading into the world

A form becomes a value (`read_program`, `read_form`): keywords are interned, and symbols and collections become new nodes, which keep
the layout of the form. A mark becomes a list of two elements headed by the symbol of the mark. A text
that cannot be read still leaves the keywords that were met before the error.
-/

namespace EditableLisp

/-- The spellings that a node keeps: those that are not the usual ones, if there are any. -/
def keptSpellings (spellings : List (Option String)) : Option (List (Option String)) :=
  if spellings.any Option.isSome then some spellings else none

/-- The key that a form of a key stands for. -/
def FormKey.toKey : FormKey → Change Key
  | .keyword name => do return .keyword (← intern name)
  | .text content _ => return .text content

namespace Form

/-- The spellings of the keys and forms of entries in turn. -/
def entrySpellings (entries : List (FormKey × Form)) : List (Option String) :=
  entries.flatMap fun (key, form) => [key.oddSpelling?, form.oddSpelling?]

mutual

/-- The value of a form. -/
def toValue : Form → Change Value
  | nil => return .nil
  | bool b => return .bool b
  | num x _ => return .num x
  | text content _ => return .text content
  | keyword name => do return .keyword (← intern name)
  | symbol name => newSymbol name
  | marked style gap form => do
    let head ← newSymbol style.name
    let v ← toValue form
    let node := ⟨← freshId, style, some ["", gap, ""], keptSpellings [none, form.oddSpelling?]⟩
    return .seq .list node [head, v]
  | seq shape gaps items => do
    let vs ← toValues #[] items
    let node := ⟨← freshId, .plain, some gaps, keptSpellings (items.map oddSpelling?)⟩
    return .seq shape node vs
  | map gaps entries => do
    let vs ← toEntries #[] entries
    let node := ⟨← freshId, .plain, some gaps, keptSpellings (entrySpellings entries)⟩
    return .map node vs

/-- The values of forms, after those that are done. -/
def toValues (done : Array Value) : List Form → Change (List Value)
  | [] => return done.toList
  | form :: rest => do
    let v ← toValue form
    toValues (done.push v) rest

/-- The entries of forms, after those that are done. -/
def toEntries (done : Array (Key × Value)) : List (FormKey × Form) → Change (List (Key × Value))
  | [] => return done.toList
  | (key, form) :: rest => do
    let k ← key.toKey
    let v ← toValue form
    toEntries (done.push (k, v)) rest

end

end Form

/-- The value of a program: a list of all its forms that prints without brackets. -/
def Program.toValue (p : Program) : Change Value := do
  let vs ← Form.toValues #[] p.forms
  let node := ⟨← freshId, .program, some p.gaps, keptSpellings (p.forms.map Form.oddSpelling?)⟩
  return .seq .list node vs

/-- Reads a text as a program. -/
def readProgram (src : String) : Change (Except ReadError Value) := do
  let reading := Reading.ofSource src
  internAll reading.keywords
  match reading.program with
  | .ok program => return .ok (← program.toValue)
  | .error e => return .error e

/-- Reads a text that holds exactly one form. -/
def readForm (src : String) : Change (Except ReadError Value) := do
  let reading := Reading.ofSource src
  internAll reading.keywords
  match reading.program with
  | .error e => return .error e
  | .ok program =>
    match program.forms with
    | [form] => return .ok (← form.toValue)
    | [] => return .error ⟨.noForm, src.utf8ByteSize⟩
    | forms => return .error ⟨.severalForms forms.length, 0⟩

end EditableLisp
