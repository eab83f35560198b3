import EditableLisp.Source.Token
import EditableLisp.Number.Fixed
import EditableLisp.Number.Numeral

/-!
# Forms

A form is a tree of a source text together with its layout: the gaps of blank text around the elements
of a collection, and the spelling of numbers and strings. `Form.source` writes a form as it was read.

`Assembly.shift` takes one token: an opening bracket or a mark waits on a stack for what belongs to it,
and a finished form goes to the collection on top of the stack, through the marks before it. A text is a
program when every token can be shifted and nothing waits at the end. This is `parse`, whose `form`, `collection`,
`map` and `atom` call one another; the stack holds what their calls hold.
-/

namespace EditableLisp

/-- A key of a map in source text; a string keeps its spelling. -/
inductive FormKey where
  | keyword (name : String)
  | text (content spelling : String)

/-- The text that keys are compared by. -/
def FormKey.name : FormKey → String
  | .keyword name => name
  | .text content _ => content

/-- A tree of a source text. -/
inductive Form where
  | nil
  | bool (b : Bool)
  | num (x : Number) (spelling : String)
  | text (content spelling : String)
  | keyword (name : String)
  | symbol (name : String)
  | marked (style : Style) (gap : String) (form : Form)
  | seq (shape : Shape) (gaps : List String) (items : List Form)
  | map (gaps : List String) (entries : List (FormKey × Form))
deriving Inhabited

/-- The forms of a whole text with the gaps before, between and after them. -/
structure Program where
  gaps : List String
  forms : List Form

/-! ## Text -/

/-- The text of a key as it was read. -/
def FormKey.source : FormKey → String
  | .keyword name => ":" ++ name
  | .text _ spelling => spelling

namespace Form

mutual

/-- The text of a form as it was read. -/
def source : Form → String
  | nil => "nil"
  | bool b => if b then "true" else "false"
  | num _ spelling => spelling
  | text _ spelling => spelling
  | keyword name => ":" ++ name
  | symbol name => name
  | marked style gap form => style.mark?.getD "" ++ gap ++ source form
  | seq .list gaps items => sourceItems gaps.tail ("(" ++ gaps.headD "") items ++ ")"
  | seq .vector gaps items => sourceItems gaps.tail ("[" ++ gaps.headD "") items ++ "]"
  | map gaps entries => sourceEntries gaps.tail ("\x7b" ++ gaps.headD "") entries ++ "\x7d"

/-- Adds forms as they were read, each with the gap after it. -/
def sourceItems (gaps : List String) (done : String) : List Form → String
  | [] => done
  | form :: rest => sourceItems gaps.tail (done ++ source form ++ gaps.headD "") rest

/-- Adds entries as they were read, with the gap after each key and each form. -/
def sourceEntries (gaps : List String) (done : String) : List (FormKey × Form) → String
  | [] => done
  | (key, form) :: rest =>
    sourceEntries gaps.tail.tail
      (done ++ key.source ++ gaps.headD "" ++ source form ++ gaps.tail.headD "") rest

end

/-- The text of a form that stands alone: numbers and strings in their usual spelling. -/
def alone : Form → String
  | num x _ => Number.format x
  | text content _ => Text.quote content
  | form => form.source

/-- The spelling of a number or string that is not the usual one. -/
def oddSpelling? : Form → Option String
  | num x spelling => if Number.format x = spelling then none else some spelling
  | text content spelling => if Text.quote content = spelling then none else some spelling
  | _ => none

end Form

/-- The spelling of a key that is not the usual one. -/
def FormKey.oddSpelling? : FormKey → Option String
  | .keyword _ => none
  | .text content spelling => if Text.quote content = spelling then none else some spelling

/-- The text of a program as it was read. -/
def Program.source (p : Program) : String := Form.sourceItems p.gaps.tail (p.gaps.headD "") p.forms

/-! ## Leaves -/

/-- The form of a name or number. -/
def Form.ofAtom (text : String) : Except ReadCause Form :=
  if text = "nil" then .ok .nil
  else if text = "true" then .ok (.bool true)
  else if text = "false" then .ok (.bool false)
  else
    match text.toList with
    | ':' :: name => if name.isEmpty then .error .emptyKeyword else .ok (.keyword (String.ofList name))
    | cs =>
      if Number.looksNumeric cs then
        match Number.ofString? text with
        | some x => .ok (.num x text)
        | none => .error (.invalidNumber text)
      else .ok (.symbol text)

/-- The name of a token that is a keyword. -/
def Token.keyword? (t : Token) : Option String :=
  match t.kind, t.lexeme.toList with
  | .atom, ':' :: c :: cs => some (String.ofList (c :: cs))
  | _, _ => none

/-! ## Maps -/

/-- The key that a form is, unless its name is among `seen`. -/
def Form.asKey (seen : List String) (form : Form) : Except ReadCause FormKey :=
  match form with
  | .keyword name =>
    if seen.contains name then .error (.duplicateKey form.alone) else .ok (.keyword name)
  | .text content spelling =>
    if seen.contains content then .error (.duplicateKey form.alone) else .ok (.text content spelling)
  | _ => .error (.badKey form.alone)

/-- The entries made of keys and forms in turn; all keys differ from each other and from `seen`. -/
def Form.entriesOf (seen : List String) : List Form → Except ReadCause (List (FormKey × Form))
  | key :: form :: rest => do
    let key ← key.asKey seen
    return (key, form) :: (← entriesOf (key.name :: seen) rest)
  | _ => .ok []

/-! ## Assembly -/

/-- What waits for a form: a mark, or a collection with its gaps and forms so far, last first. Both keep
the blank text before them. -/
inductive Opened where
  | mark (style : Style) (blank : String)
  | collection (bracket : Bracket) (blank : String) (start : Nat) (gaps : List String)
      (forms : List Form)

/-- What was read so far: what is open, innermost first, and the gaps and forms outside, last first. -/
structure Assembly where
  opened : List Opened
  gaps : List String
  forms : List Form

namespace Assembly

/-- Nothing was read. -/
def initial : Assembly := ⟨[], [], []⟩

/-- Puts a finished form where it belongs: after the marks before it, into the innermost collection. -/
def place (gaps : List String) (forms : List Form) (blank : String) (form : Form) :
    List Opened → Assembly
  | [] => ⟨[], blank :: gaps, form :: forms⟩
  | .mark style blank' :: rest => place gaps forms blank' (.marked style blank form) rest
  | .collection bracket blank' start gaps' forms' :: rest =>
    ⟨.collection bracket blank' start (blank :: gaps') (form :: forms') :: rest, gaps, forms⟩

/-- The form of a collection. -/
def close (bracket : Bracket) (gaps : List String) (forms : List Form) : Except ReadCause Form :=
  match bracket with
  | .round => .ok (.seq .list gaps forms)
  | .square => .ok (.seq .vector gaps forms)
  | .curly =>
    if forms.length % 2 = 1 then .error .oddMap
    else (Form.entriesOf [] forms).map (.map gaps)

/-- Takes one token. -/
def shift (a : Assembly) (t : Token) : Except ReadError Assembly :=
  match t.kind with
  | .opening bracket =>
    .ok { a with opened := .collection bracket t.blank t.start [] [] :: a.opened }
  | .mark style => .ok { a with opened := .mark style t.blank :: a.opened }
  | .text content => .ok (place a.gaps a.forms t.blank (.text content t.lexeme) a.opened)
  | .atom =>
    match Form.ofAtom t.lexeme with
    | .ok form => .ok (place a.gaps a.forms t.blank form a.opened)
    | .error cause => .error ⟨cause, t.start⟩
  | .closing bracket =>
    match a.opened with
    | .collection bracket' blank start gaps forms :: rest =>
      if bracket = bracket' then
        match close bracket (t.blank :: gaps).reverse forms.reverse with
        | .ok form => .ok (place a.gaps a.forms blank form rest)
        | .error cause => .error ⟨cause, start⟩
      else .error ⟨.wrongClose bracket'.closing bracket.closing, t.start⟩
    | _ => .error ⟨.strayClose bracket.closing, t.start⟩

/-- An error with the tokens that were not taken. -/
structure Stuck where
  error : ReadError
  rest : List Token

/-- Takes tokens up to the first that cannot be taken. -/
def shiftAll (a : Assembly) : List Token → Except Stuck Assembly
  | [] => .ok a
  | t :: rest =>
    match a.shift t with
    | .ok a => a.shiftAll rest
    | .error e => .error ⟨e, t :: rest⟩

/-- The program that was read, if nothing is open. -/
def finish (a : Assembly) (tail : String) (size : Nat) : Except ReadError Program :=
  match a.opened with
  | [] => .ok ⟨(tail :: a.gaps).reverse, a.forms.reverse⟩
  | .mark .. :: _ => .error ⟨.endOfInput, size⟩
  | .collection bracket _ start _ _ :: _ => .error ⟨.unclosed bracket.closing, start⟩

end Assembly

/-! ## Programs -/

/-- The result of reading a text, with the names of the keywords that were met, in order. -/
structure Reading where
  keywords : List String
  program : Except ReadError Program

/-- Reads a text. -/
def Reading.ofSource (src : String) : Reading :=
  match Token.scan src with
  | .error e => ⟨[], .error e⟩
  | .ok scanned =>
    match Assembly.initial.shiftAll scanned.tokens with
    | .error stuck =>
      let taken := scanned.tokens.take (scanned.tokens.length - stuck.rest.length)
      ⟨taken.filterMap Token.keyword?, .error stuck.error⟩
    | .ok a => ⟨scanned.tokens.filterMap Token.keyword?, a.finish scanned.tail scanned.size⟩

/-- The program of a text. -/
def Program.ofSource (src : String) : Except ReadError Program := (Reading.ofSource src).program

end EditableLisp
