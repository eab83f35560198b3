import EditableLisp.Builtin.Name
import EditableLisp.Number.Basic

/-!
# Values

Programs and data are the same trees (`Value`, with `Seq`, `Map`, `Symbol`, `Keyword`, `Function`). Lists, vectors,
maps and symbols are *nodes*: each carries an identity, under which the world keeps what was derived from it (its text,
its value, its expansion: the `NodeCache`), and the layout that it was read with. Two nodes are the same (`ptr_eq`) if
their identities are. The tree itself never changes; atoms name a cell of the world, and
closures name the frames that they were made in.
-/

namespace EditableLisp

/-- The identity of a node or function. -/
abbrev NodeId := Nat

/-- A frame of bindings in the world. -/
abbrev FrameId := Nat

/-- A mutable cell in the world. -/
abbrev AtomId := Nat

/-- An interned name. Two keywords are the same when their identities are. -/
structure Keyword where
  id : Nat
  name : String
deriving DecidableEq, Repr, Inhabited

/-- A key of a map. -/
inductive Key where
  | keyword (k : Keyword)
  | text (s : String)
deriving DecidableEq, Repr, Inhabited

/-- The text that keys are compared by. -/
def Key.name : Key → String
  | .keyword k => k.name
  | .text s => s

/-- How a list was written: in brackets, after one of the reader marks, or as a whole program without
brackets. -/
inductive Style where
  | plain | quote | quasiquote | unquote | spliceUnquote | deref | program
deriving DecidableEq, Repr, Inhabited

namespace Style

/-- The mark that stands before the form. -/
def mark? : Style → Option String
  | quote => some "'"
  | quasiquote => some "\x60"
  | unquote => some "~"
  | spliceUnquote => some "~@"
  | deref => some "@"
  | plain => none
  | program => none

/-- The name of a style; that of a mark is the symbol that heads the marked list. -/
def name : Style → String
  | plain => "plain"
  | quote => "quote"
  | quasiquote => "quasiquote"
  | unquote => "unquote"
  | spliceUnquote => "splice-unquote"
  | deref => "deref"
  | program => "program"

end Style

/-- Whether a sequence is a list or a vector. -/
inductive Shape where
  | list | vector
deriving DecidableEq, Repr, Inhabited

/-- The identity of a collection and the layout that it was read with: the text before, between and after
its elements, and the spelling of elements that would print differently. -/
structure Node where
  id : NodeId
  style : Style
  gaps : Option (List String)
  spellings : Option (List (Option String))
deriving DecidableEq, Repr, Inhabited

/-- A node without a layout of its own. -/
def Node.bare (id : NodeId) : Node := ⟨id, .plain, none, none⟩

/-- A chain of frames, innermost first; the last one is the root. -/
structure Env where
  frame : FrameId
  outer : List FrameId
deriving DecidableEq, Repr, Inhabited

namespace Env

/-- The frames of a chain, innermost first. -/
def frames (env : Env) : List FrameId := env.frame :: env.outer

/-- The frame without a parent. -/
def rootFrame (env : Env) : FrameId := env.frames.getLastD env.frame

/-- The chain that holds only the root. -/
def root (env : Env) : Env := ⟨env.rootFrame, []⟩

/-- A chain with a new innermost frame. -/
def child (env : Env) (frame : FrameId) : Env := ⟨frame, env.frames⟩

end Env

/-- What a closure is for: a function, an expander whose body computes the expansion, or an expander
whose body is a template. -/
inductive ClosureKind where
  | function | procedure | template
deriving DecidableEq, Repr, Inhabited

/-- A program or datum. -/
inductive Value where
  | nil
  | bool (b : Bool)
  | num (x : Number)
  | text (s : String)
  | keyword (k : Keyword)
  | symbol (id : NodeId) (name : String)
  | seq (shape : Shape) (node : Node) (items : List Value)
  | map (node : Node) (entries : List (Key × Value))
  | builtin (id : NodeId) (code : Builtin) (metadata : Value)
  | closure (id : NodeId) (kind : ClosureKind) (params body : Value) (env : Env) (metadata : Value)
  | atom (id : AtomId)
deriving Inhabited

/-- The kinds of values that programs can tell apart. -/
inductive Kind where
  | list | vector | map | number | string | boolean | nil | symbol | keyword | atom | function
  | expander
deriving DecidableEq, Repr

/-- The name of a kind. -/
def Kind.name : Kind → String
  | .list => "list"
  | .vector => "vector"
  | .map => "map"
  | .number => "number"
  | .string => "string"
  | .boolean => "boolean"
  | .nil => "nil"
  | .symbol => "symbol"
  | .keyword => "keyword"
  | .atom => "atom"
  | .function => "fn"
  | .expander => "macro"

/-- The value of a key. -/
def Key.toValue : Key → Value
  | .keyword k => .keyword k
  | .text s => .text s

namespace Value

/-- The kind of a value. -/
def kind : Value → Kind
  | nil => .nil
  | bool _ => .boolean
  | num _ => .number
  | text _ => .string
  | keyword _ => .keyword
  | symbol .. => .symbol
  | seq .list .. => .list
  | seq .vector .. => .vector
  | map .. => .map
  | builtin _ code _ => if code.isExpander then .expander else .function
  | closure _ kind .. => if kind = .function then .function else .expander
  | atom _ => .atom

/-- Everything but `nil` and `false` counts as true. -/
def isTruthy : Value → Bool
  | nil => false
  | bool b => b
  | _ => true

/-- The text of a string, keyword or symbol. -/
def name? : Value → Option String
  | text s => some s
  | keyword k => some k.name
  | symbol _ name => some name
  | _ => none

/-- A value as the key of a map. -/
def key? : Value → Option Key
  | keyword k => some (.keyword k)
  | text s => some (.text s)
  | _ => none

/-- The identity under which the world keeps what was derived from a node. -/
def nodeId? : Value → Option NodeId
  | symbol id _ => some id
  | seq _ node _ => some node.id
  | map node _ => some node.id
  | _ => none

/-- The identity of a function. -/
def functionId? : Value → Option NodeId
  | builtin id .. => some id
  | closure id .. => some id
  | _ => none

/-- A function takes forms and returns a form. -/
def isExpander : Value → Bool
  | builtin _ code _ => code.isExpander
  | closure _ kind .. => kind ≠ .function
  | _ => false

/-- The symbol at the head of a list of forms. -/
def headName? : List Value → Option String
  | symbol _ name :: _ => some name
  | _ => none

/-- The elements of a collection; those of a map are its keys and values in turn. -/
def children : Value → List Value
  | seq _ _ items => items
  | map _ entries => entries.flatMap fun (k, v) => [k.toValue, v]
  | _ => []

/-- Two values are the same node, keyword, function or cell. Numbers, strings and booleans have no
identity; `nil` is identical to itself. -/
def identical : Value → Value → Bool
  | nil, nil => true
  | keyword a, keyword b => a.id == b.id
  | symbol a _, symbol b _ => a == b
  | seq s a _, seq t b _ => s == t && a.id == b.id
  | map a _, map b _ => a.id == b.id
  | builtin a .., builtin b .. => a == b
  | closure a .., closure b .. => a == b
  | atom a, atom b => a == b
  | _, _ => false

/-! ## Induction -/

/-- What passes from the parts of values to values holds of every value. -/
@[elab_as_elim]
theorem ofParts {motive : Value → Prop} (nil : motive .nil) (bool : ∀ b, motive (.bool b))
    (num : ∀ x, motive (.num x)) (text : ∀ s, motive (.text s)) (keyword : ∀ k, motive (.keyword k))
    (symbol : ∀ id name, motive (.symbol id name))
    (seq : ∀ shape node items, (∀ v ∈ items, motive v) → motive (.seq shape node items))
    (map : ∀ node entries, (∀ e ∈ entries, motive e.2) → motive (.map node entries))
    (builtin : ∀ id code metadata, motive metadata → motive (.builtin id code metadata))
    (closure : ∀ id kind params body env metadata, motive params → motive body → motive metadata →
      motive (.closure id kind params body env metadata))
    (atom : ∀ id, motive (.atom id)) (v : Value) : motive v :=
  @Value.rec motive (fun items => ∀ v ∈ items, motive v) (fun entries => ∀ e ∈ entries, motive e.2)
    (fun e => motive e.2) nil bool num text keyword symbol seq map builtin closure atom
    nofun (fun _ _ hv hrest => List.forall_mem_cons.mpr ⟨hv, hrest⟩)
    nofun (fun _ _ he hrest => List.forall_mem_cons.mpr ⟨he, hrest⟩) (fun _ _ hv => hv) v

end Value

end EditableLisp
