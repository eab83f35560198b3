import EditableLisp.World
import EditableLisp.Number.Fixed
import EditableLisp.Text.Quoted

/-!
# Printing

The *readable* text of a value (`print`) quotes strings and can be read again; the *plain* text (`print_plain`) leaves
strings as they are. A collection prints its elements with the gaps that it was read with (`delimiters_for`) and,
readably, with the spelling of strings and numbers that it was read with (`literal`), so that a program prints as it
was written (`render_seq`, `render_map`).

The readable text of a collection is kept under its node and used again. It is kept only when it is
*stable*: when no part of it is the content of an atom. A function prints its parameters and body but
counts as stable whatever they hold.

`render` follows the tree and asks for the text of atoms; `renderContent` follows atoms into their
contents, at most as many times as there are atoms. That is as far as an atom can lead that does not hold itself. An
atom that does has no text, and printing it never ends; here its text is cut off, so what is said of such atoms says
nothing about the program.
-/

namespace EditableLisp

/-! ## Leaves -/

/-- The text of a string. -/
def stringText (readably : Bool) (s : String) : String := if readably then Text.quote s else s

/-- The word that a closure's text begins with. -/
def ClosureKind.word : ClosureKind → String
  | .function => "fn"
  | .procedure => "macro"
  | .template => "syntax"

/-! ## Layout -/

/-- The gaps of a collection that was not read: nothing at the ends and a space between elements, or
nothing in a list that is written with a mark. -/
def defaultGaps (style : Style) (count : Nat) : List String :=
  if count = 0 then [""]
  else "" :: List.replicate (count - 1) (if style.mark?.isSome then "" else " ") ++ [""]

namespace World

/-- The gaps that a node holds, read or given when it was first printed. -/
def gaps? (w : World) (node : Node) (count : Nat) : Option (List String) :=
  if w.spaced.has node.id then some (defaultGaps node.style count) else node.gaps

end World

/-- The gaps to print a node with; one that does not fit the elements gives way to the default, which
the node holds from then on. -/
def layout (node : Node) (count : Nat) : Change (List String) := do
  match (← get).gaps? node count with
  | some gaps =>
    if gaps.length = count + 1 then return gaps
    setSpaced node.id
    return defaultGaps node.style count
  | none =>
    setSpaced node.id
    return defaultGaps node.style count

/-- The text of a string or number: readably, its spelling if one was kept. -/
def spelledOr (readably : Bool) (spelling : Option String) (text : String) : String :=
  if readably then spelling.getD text else text

/-- The first of the spellings that are left. -/
def firstSpelling (spellings : List (Option String)) : Option String := spellings.head?.join

/-- The text of a key that was read with a spelling. -/
def Key.print (readably : Bool) (spelling : Option String) : Key → String
  | .keyword k => ":" ++ k.name
  | .text s => spelledOr readably spelling (stringText readably s)

/-- The brackets of a sequence; a program has none. -/
def brackets (style : Style) (shape : Shape) : String × String :=
  if style = .program then ("", "")
  else match shape with
    | .list => ("(", ")")
    | .vector => ("[", "]")

/-! ## Trees -/

/-- A text, and whether it stays the same as long as the tree is the same. -/
structure Rendered where
  text : String
  stable : Bool

/-- The kept text of a node, for readable printing. -/
def keptText (readably : Bool) (id : NodeId) : Change (Option String) := do
  if readably then return (← get).texts.get? id else return none

/-- Keeps a readable and stable text. -/
def keepText (readably : Bool) (id : NodeId) (r : Rendered) : Change Rendered := do
  if readably && r.stable then setText id r.text
  return r

mutual

/-- The text of a value that was read with a spelling, given the text of atoms. -/
def render (atomText : Bool → AtomId → Change String) (readably : Bool) (spelling : Option String) :
    Value → Change Rendered
  | .nil => return ⟨"nil", true⟩
  | .bool b => return ⟨if b then "true" else "false", true⟩
  | .num x => return ⟨spelledOr readably spelling (Number.format x), true⟩
  | .text s => return ⟨spelledOr readably spelling (stringText readably s), true⟩
  | .keyword k => return ⟨":" ++ k.name, true⟩
  | .symbol _ name => return ⟨name, true⟩
  | .seq shape node items => do
    match ← keptText readably node.id with
    | some text => return ⟨text, true⟩
    | none =>
      let gaps ← layout node items.length
      let spellings := node.spellings.getD []
      match node.style.mark?, items with
      | some mark, [_, form] =>
        let r ← render atomText readably (spellings.getD 1 none) form
        keepText readably node.id ⟨mark ++ gaps.getD 1 "" ++ r.text, r.stable⟩
      | _, items =>
        let (opening, closing) := brackets node.style shape
        let r ← renderItems atomText readably gaps.tail spellings ⟨opening ++ gaps.headD "", true⟩ items
        keepText readably node.id ⟨r.text ++ closing, r.stable⟩
  | .map node entries => do
    match ← keptText readably node.id with
    | some text => return ⟨text, true⟩
    | none =>
      let gaps ← layout node (2 * entries.length)
      let r ← renderEntries atomText readably gaps.tail (node.spellings.getD [])
        ⟨"\x7b" ++ gaps.headD "", true⟩ entries
      keepText readably node.id ⟨r.text ++ "\x7d", r.stable⟩
  | .builtin _ code _ => return ⟨"#<native " ++ code.name ++ ">", true⟩
  | .closure _ kind params body _ _ => do
    let p ← render atomText true none params
    let b ← render atomText true none body
    return ⟨"(" ++ kind.word ++ " " ++ p.text ++ " " ++ b.text ++ ")", true⟩
  | .atom id => do return ⟨"(atom " ++ (← atomText readably id) ++ ")", false⟩

/-- Adds the texts of elements, each with the gap after it. -/
def renderItems (atomText : Bool → AtomId → Change String) (readably : Bool) (gaps : List String)
    (spellings : List (Option String)) (done : Rendered) : List Value → Change Rendered
  | [] => return done
  | v :: rest => do
    let r ← render atomText readably (firstSpelling spellings) v
    renderItems atomText readably gaps.tail spellings.tail
      ⟨done.text ++ r.text ++ gaps.headD "", done.stable && r.stable⟩ rest

/-- Adds the texts of entries, with the gap after each key and each value. -/
def renderEntries (atomText : Bool → AtomId → Change String) (readably : Bool) (gaps : List String)
    (spellings : List (Option String)) (done : Rendered) : List (Key × Value) → Change Rendered
  | [] => return done
  | (k, v) :: rest => do
    let r ← render atomText readably (firstSpelling spellings.tail) v
    renderEntries atomText readably gaps.tail.tail spellings.tail.tail
      ⟨done.text ++ k.print readably (firstSpelling spellings) ++ gaps.headD "" ++ r.text ++
        gaps.tail.headD "", done.stable && r.stable⟩ rest

end

/-! ## Atoms -/

/-- The text of an atom's content, through at most so many atoms. -/
def renderContent : Nat → Bool → AtomId → Change String
  | 0, _, _ => return ""
  | depth + 1, readably, id => do
    return (← render (renderContent depth) readably none ((← get).content id)).text

/-- The text of a value. -/
def printWith (readably : Bool) (v : Value) : Change String := do
  return (← render (renderContent (← get).atoms.size) readably none v).text

/-- The readable text of a value. -/
def print (v : Value) : Change String := printWith true v

/-- The plain text of a value. -/
def printPlain (v : Value) : Change String := printWith false v

/-- The readable texts of some values. -/
def printEach (vs : List Value) : Change (List String) := vs.mapM print

/-- The plain texts of some values. -/
def printEachPlain (vs : List Value) : Change (List String) := vs.mapM printPlain

/-- What a function is, for inspection. -/
def describeFunction (v : Value) : Change (Option String) := do
  match v with
  | .builtin _ code _ => return some ("#<native:" ++ code.name ++ ">")
  | .closure _ kind params _ _ _ =>
    let name := match kind with
      | .function => "Function"
      | .procedure => "Macro"
      | .template => "Template"
    return some ("#<closure:" ++ name ++ " " ++ (← print params) ++ ">")
  | _ => return none

end EditableLisp
