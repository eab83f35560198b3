import EditableLisp.Json.Token

/-!
# JSON texts

`Reading.ofText` reads a JSON text: a strict grammar with the four blank characters, at most 127 arrays
and objects inside each other, and no text after the value. `Assembly.shift` takes a token. The first
thing that does not fit ends the reading, and all that is told of it is the strings that were complete by
then.
-/

namespace EditableLisp.Json

/-- An array or object that is not closed, with what it holds so far, last first. -/
inductive Opened where
  | array (items : List Tree)
  | object (members : List (String × Tree)) (key : String)

/-- What may come next. -/
inductive Expected where
  | value | valueOrClose | separator | keyOrClose | key | colon
deriving DecidableEq

/-- What was read so far. -/
structure Assembly where
  opened : List Opened
  expected : Expected
  /-- The complete strings, last first; the key of a member is complete with its value. -/
  strings : List String

namespace Assembly

/-- The result of a step: more to come, the whole value, or a place that does not fit. -/
inductive Step where
  | more (a : Assembly)
  | done (t : Tree) (strings : List String)
  | stuck (strings : List String)

/-- Puts a complete value where it belongs. -/
def deliver (opened : List Opened) (strings : List String) (t : Tree) : Step :=
  match opened with
  | [] => .done t strings
  | .array items :: rest => .more ⟨.array (t :: items) :: rest, .separator, strings⟩
  | .object members key :: rest =>
    .more ⟨.object ((key, t) :: members) "" :: rest, .separator, key :: strings⟩

/-- Opens an array or object. -/
def push (a : Assembly) (o : Opened) (expected : Expected) : Step :=
  if a.opened.length < depthMax then .more ⟨o :: a.opened, expected, a.strings⟩ else .stuck a.strings

/-- Takes a token where a value is expected. -/
def shiftValue (a : Assembly) : Token → Step
  | .null => deliver a.opened a.strings .null
  | .bool b => deliver a.opened a.strings (.bool b)
  | .int n => deliver a.opened a.strings (.int n)
  | .num x => deliver a.opened a.strings (.num x)
  | .str s => deliver a.opened (s :: a.strings) (.str s)
  | .openArray => a.push (.array []) .valueOrClose
  | .openObject => a.push (.object [] "") .keyOrClose
  | _ => .stuck a.strings

/-- Takes a key. -/
def shiftKey (a : Assembly) : Token → Step
  | .str s =>
    match a.opened with
    | .object members _ :: rest => .more ⟨.object members s :: rest, .colon, a.strings⟩
    | _ => .stuck a.strings
  | _ => .stuck a.strings

/-- Takes a token. -/
def shift (a : Assembly) (t : Token) : Step :=
  match a.expected, t, a.opened with
  | .valueOrClose, .closeArray, .array items :: rest => deliver rest a.strings (.arr items.reverse)
  | .separator, .closeArray, .array items :: rest => deliver rest a.strings (.arr items.reverse)
  | .separator, .comma, .array _ :: _ => .more { a with expected := .value }
  | .separator, .comma, .object .. :: _ => .more { a with expected := .key }
  | .separator, .closeObject, .object members _ :: rest =>
    deliver rest a.strings (.obj members.reverse)
  | .keyOrClose, .closeObject, .object members _ :: rest =>
    deliver rest a.strings (.obj members.reverse)
  | .colon, .colon, _ => .more { a with expected := .value }
  | .value, t, _ => a.shiftValue t
  | .valueOrClose, t, _ => a.shiftValue t
  | .keyOrClose, t, _ => a.shiftKey t
  | .key, t, _ => a.shiftKey t
  | _, _, _ => .stuck a.strings

end Assembly

namespace Assembly

/-- Takes tokens up to the end of the value; none may follow. -/
def run (a : Assembly) : List Token → Reading
  | [] => ⟨a.strings.reverse, none⟩
  | t :: rest =>
    match a.shift t with
    | .more a => a.run rest
    | .done tree strings => ⟨strings.reverse, if rest.isEmpty then some tree else none⟩
    | .stuck strings => ⟨strings.reverse, none⟩

end Assembly

/-- Reads a text. -/
def Reading.ofText (text : String) : Reading := Assembly.run ⟨[], .value, []⟩ (tokens text)

end EditableLisp.Json
