import EditableLisp.Table
import EditableLisp.Frame
import EditableLisp.Fault

/-!
# The world

Everything that changes while programs run: frames of bindings (`Env`), the contents of atoms, the interned keywords
(`Keywords`), what was derived from the nodes of programs (`NodeCache`), the printed output and the files. A `Change`
is an operation on the world that cannot fail, an `Act` one that can; a failing act keeps the changes made before it
failed.
-/

namespace EditableLisp

/-- A name that was looked up while an expansion was computed, with the value found. -/
structure Lookup where
  env : Env
  name : String
  value : Value

/-- How a call was expanded. -/
inductive Expansion where
  /-- The expander `maker` returned `form`, which depends on the lookups `reads`. -/
  | constant (maker : Value) (form : Value) (reads : List Lookup)
  /-- The template of `maker` stands for the call, with its parameters bound in `env`. -/
  | bound (maker : Value) (template : Value) (env : Env)
  /-- The call is an ordinary one. -/
  | unchanged

/-- The state that programs run in. -/
structure World where
  /-- The next unused identity of a node or function. -/
  nextId : NodeId
  frames : Array Tables
  atoms : Array Value
  /-- The interned keywords; the position of a name is the identity of its keyword. -/
  keywords : Array String
  /-- The nodes that were printed without a layout of their own and keep the default one. -/
  spaced : Table Unit
  /-- The printed text of nodes. -/
  texts : Table String
  /-- The last value of nodes. -/
  results : Table Value
  /-- The defining forms that symbols were last seen to refer to. A link does not own its form: whether the form is
  still there when the link is followed is left to the host. -/
  sites : Table Value
  expansions : Table Expansion
  /-- The lookups of the expansions in progress, innermost first. -/
  recordings : List (List Lookup)
  output : String
  files : List (String × String)
deriving Inhabited

/-- A world with an empty root frame. -/
def World.initial : World :=
  { nextId := 0, frames := #[.empty], atoms := #[], keywords := #[], spaced := .empty, texts := .empty,
    results := .empty, sites := .empty, expansions := .empty, recordings := [], output := "",
    files := [] }

/-- The chain that holds only the root frame. -/
def Env.global : Env := ⟨0, []⟩

/-- Why an act stops. -/
inductive Halt where
  | fault (f : Fault)
  /-- A sequence was to be cut into groups of no size. -/
  | crash
  /-- The evaluation was not given enough steps. -/
  | exhausted
deriving DecidableEq, Repr

/-- An operation on the world. -/
abbrev Change := StateM World

/-- An operation on the world that can fail. -/
abbrev Act := EStateM Halt World

instance : MonadLift Change Act where
  monadLift change world :=
    let (a, world) := change world
    .ok a world

theorem Change.get_bind {α : Type} (f : World → Change α) (w : World) : (get >>= f) w = f w w := rfl

theorem Change.modify_apply (f : World → World) (w : World) : (modify f : Change Unit) w = ((), f w) := rfl

theorem Change.modifyGet_apply {α : Type} (f : World → α × World) (w : World) :
    (modifyGet f : Change α) w = f w := rfl

theorem Act.get_bind {α : Type} (f : World → Act α) (w : World) : (get >>= f) w = f w w := rfl

/-- Fails for a cause. -/
def fail {α : Type} (f : Fault) : Act α := throw (.fault f)

/-- An act whose failure is a result. -/
def attempt {α : Type} (act : Act α) : Change (Except Halt α) := fun w =>
  match act w with
  | .ok a w => (.ok a, w)
  | .error h w => (.error h, w)

/-- Adds the name of a built-in function to the wording of a failure. -/
def Halt.within (name : String) : Halt → Halt
  | fault f => fault (.within name f)
  | crash => crash
  | exhausted => exhausted

/-! ## Identities -/

/-- An unused identity. -/
def freshId : Change NodeId := modifyGet fun w => (w.nextId, { w with nextId := w.nextId + 1 })

/-- A new symbol. -/
def newSymbol (name : String) : Change Value := do return .symbol (← freshId) name

/-- A new sequence without a layout. -/
def newSeq (shape : Shape) (items : List Value) : Change Value := do
  return .seq shape (.bare (← freshId)) items

/-- A new list. -/
def newList (items : List Value) : Change Value := newSeq .list items

/-- A new vector. -/
def newVector (items : List Value) : Change Value := newSeq .vector items

/-- A new map. -/
def newMap (entries : List (Key × Value)) : Change Value := do
  return .map (.bare (← freshId)) entries

/-! ## Atoms -/

/-- A new atom. -/
def newAtom (content : Value) : Change Value :=
  modifyGet fun w => (.atom w.atoms.size, { w with atoms := w.atoms.push content })

/-- The content of an atom. -/
def World.content (w : World) (id : AtomId) : Value := w.atoms.getD id .nil

/-- The content of an atom as it is now. -/
def readContent (id : AtomId) : Change Value := do return (← get).content id

/-- Replaces the content of an atom. -/
def setContent (id : AtomId) (content : Value) : Change Unit :=
  modify fun w => { w with atoms := w.atoms.setIfInBounds id content }

/-! ## Keywords -/

/-- The keyword of a name; the same one for the same name. -/
def intern (name : String) : Change Keyword :=
  modifyGet fun w =>
    match w.keywords.idxOf? name with
    | some id => (⟨id, name⟩, w)
    | none => (⟨w.keywords.size, name⟩, { w with keywords := w.keywords.push name })

/-- Interns each name of a list. -/
def internAll : List String → Change Unit
  | [] => pure ()
  | name :: rest => do
    let _ ← intern name
    internAll rest

/-! ## What was derived from nodes -/

/-- Keeps the printed text of a node. -/
def setText (id : NodeId) (text : String) : Change Unit :=
  modify fun w => { w with texts := w.texts.set id text }

/-- Gives a node the default layout. -/
def setSpaced (id : NodeId) : Change Unit :=
  modify fun w => { w with spaced := w.spaced.set id () }

/-- Keeps how a call was expanded. -/
def setExpansion (id : NodeId) (expansion : Expansion) : Change Unit :=
  modify fun w => { w with expansions := w.expansions.set id expansion }

/-- Keeps the value of a node; nothing to do for other values. -/
def setResult (node result : Value) : Change Unit :=
  match node.nodeId? with
  | some id => modify fun w => { w with results := w.results.set id result }
  | none => pure ()

/-- Keeps the defining form that a symbol refers to. -/
def setSite (id : NodeId) (site : Value) : Change Unit :=
  modify fun w => { w with sites := w.sites.set id site }

/-- The last value of a node, or the value itself if there is none; for an atom its content. -/
def World.evaluated (w : World) (v : Value) : Value :=
  match v with
  | .atom id => w.content id
  | _ =>
    match v.nodeId? with
    | some id => (w.results.get? id).getD v
    | none => v

/-- Drops everything that was derived from a node. -/
def invalidate (v : Value) : Change Unit :=
  match v with
  | .symbol id _ =>
    modify fun w => { w with results := w.results.erase id, sites := w.sites.erase id }
  | .seq _ node _ =>
    modify fun w =>
      { w with
        texts := w.texts.erase node.id
        results := w.results.erase node.id
        expansions := w.expansions.erase node.id }
  | .map node _ =>
    modify fun w => { w with texts := w.texts.erase node.id, results := w.results.erase node.id }
  | _ => pure ()

/-! ## Output -/

/-- Prints a line. -/
def printLine (line : String) : Change Unit :=
  modify fun w => { w with output := w.output ++ line ++ "\n" }

end EditableLisp
