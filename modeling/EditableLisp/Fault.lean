import EditableLisp.Source.Error
import EditableLisp.Builtin.Name

/-!
# Faults

Why an evaluation fails (`RuntimeError`). A `Fault` names the cause and holds the printed values that its wording
shows; `Fault.kind` is the class that programs and hosts tell apart (`ErrorKind`), `Fault.message` the wording.
-/

namespace EditableLisp

/-- The classes of faults. -/
inductive FaultKind where
  | unbound | binding | type | index | key | unsupported | thrown
deriving DecidableEq, Repr

/-- The name of a class. -/
def FaultKind.name : FaultKind → String
  | unbound => "UnboundSymbol"
  | binding => "BindMismatch"
  | type => "TypeMismatch"
  | index => "IndexOutOfRange"
  | key => "InvalidMapKey"
  | unsupported => "Unsupported"
  | thrown => "Thrown"

/-- Why a file cannot be read or written. -/
inductive FileProblem where
  | missing | directory | notDirectory | nameTooLong | badName
deriving DecidableEq, Repr

/-- The wording of a file problem. -/
def FileProblem.message : FileProblem → String
  | missing => "No such file or directory (os error 2)"
  | directory => "Is a directory (os error 21)"
  | notDirectory => "Not a directory (os error 20)"
  | nameTooLong => "File name too long (os error 36)"
  | badName => "file name contained an unexpected NUL byte"

/-- The operations that demand two numbers. -/
inductive Arithmetic where
  | add | subtract | multiply | divide
deriving DecidableEq, Repr

/-- The sign of an operation. -/
def Arithmetic.sign : Arithmetic → String
  | add => "+"
  | subtract => "-"
  | multiply => "*"
  | divide => "/"

/-- What a built-in function demands of an argument. -/
inductive Demand where
  | number | string | sequence | map | atom
deriving DecidableEq, Repr

/-- A demand in words. -/
def Demand.phrase : Demand → String
  | number => "a number"
  | string => "a string"
  | sequence => "a sequence"
  | map => "a map"
  | atom => "an atom"

/-- Why an evaluation fails. -/
inductive Fault where
  | unbound (name : String)
  | restAsName
  | restPlacement (pattern : String)
  | restAlone (pattern : String)
  | badPattern (pattern : String)
  | indestructible (value pattern : String)
  | argumentCount (wanted got : Nat)
  | paramsNotVector (params : String)
  | defShape (form : String)
  | namedShape (form : String)
  | anonymousShape (form : String)
  | templateShape
  | letShape (form : String)
  | letPairs (count : Nat)
  | ifShape (form : String)
  | oneArgument (form : String) (got : Nat)
  | oneForm (form : String)
  | arity (name : String) (got : Nat)
  | oddEntries (count : Nat)
  | assocShape
  | condShape (count : Nat)
  | operands (op : Arithmetic) (left right : String)
  | negated (value : String)
  | expected (demand : Demand) (value : String)
  | notFunction (value : String)
  | notApplicable (value : String)
  | notSpliced (value : String)
  | notItems (value : String)
  | notCollection (name value : String)
  | notNamed (name value : String)
  | notGrowable (value : String)
  | groupSize (size : String)
  | notDescribed (value : String)
  | invalidJson
  | nthRange (index : Int) (length : Nat)
  | elementRange (index length : Nat)
  | entryRange (index count : Nat)
  | nodeRange (id count : Nat)
  | badKey (key : String)
  | duplicateKey (key : String)
  | incomparable (c : Comparison) (left right : String)
  | unsortable
  | functionInJson
  | childless (value : String)
  | file (path : String) (problem : FileProblem)
  | unreadable (e : ReadError)
  | thrown (text : String)
  | within (name : String) (f : Fault)
deriving DecidableEq, Repr

namespace Fault

/-- The class of a fault. -/
def kind : Fault → FaultKind
  | unbound _ => .unbound
  | restAsName | restPlacement _ | restAlone _ | badPattern _ | indestructible .. | argumentCount ..
  | paramsNotVector _ | defShape _ | namedShape _ | anonymousShape _ | templateShape | letShape _
  | letPairs _ | ifShape _ | oneArgument .. | oneForm _ | arity .. | oddEntries _ | assocShape
  | condShape _ => .binding
  | operands .. | negated _ | expected .. | notFunction _ | notApplicable _ | notSpliced _ | notItems _
  | notCollection .. | notNamed .. | notGrowable _ | groupSize _ | notDescribed _ | invalidJson => .type
  | nthRange .. | elementRange .. | entryRange .. | nodeRange .. => .index
  | badKey _ | duplicateKey _ => .key
  | incomparable .. | unsortable | functionInJson | childless _ | file .. | unreadable _ => .unsupported
  | thrown _ => .thrown
  | within _ f => f.kind

/-- The wording of a fault. -/
def message : Fault → String
  | unbound name => "Symbol '" ++ name ++ "' not found"
  | restAsName => "\x60&\x60 is not a valid binding name"
  | restPlacement pattern => "\x60&\x60 must be followed by exactly one pattern in " ++ pattern
  | restAlone pattern => "\x60&\x60 must be followed by a pattern in " ++ pattern
  | badPattern pattern => "Invalid parameter pattern: " ++ pattern
  | indestructible value pattern => "Cannot destructure " ++ value ++ " with " ++ pattern
  | argumentCount wanted got =>
    "Expected " ++ toString wanted ++ " arguments but got " ++ toString got
  | paramsNotVector params => "Parameters must be a vector: " ++ params
  | defShape form => "def expects a symbol and one value: " ++ form
  | namedShape form => "Expected a name and a parameter vector: " ++ form
  | anonymousShape form => "Expected a parameter vector: " ++ form
  | templateShape => "defsyntax expects a name, a parameter vector and one template"
  | letShape form => "let expects a binding vector: " ++ form
  | letPairs count => "let bindings must come in pairs, got " ++ toString count
  | ifShape form => "if expects a condition and one or two branches: " ++ form
  | oneArgument form got => form ++ " expects exactly one argument, got " ++ toString got
  | oneForm form => form ++ " expects exactly one form"
  | arity name got => "Wrong number of arguments to " ++ name ++ ": " ++ toString got
  | oddEntries count => "Expected key/value pairs, got " ++ toString count ++ " elements"
  | assocShape => "assoc expects a map and key/value pairs"
  | condShape count => "cond expects test/expression pairs, got " ++ toString count ++ " forms"
  | operands op left right => "Cannot \x60" ++ op.sign ++ "\x60 " ++ left ++ " and " ++ right
  | negated value => "Cannot \x60-\x60 " ++ value
  | expected demand value => "Expected " ++ demand.phrase ++ ": " ++ value
  | notFunction value => "Cannot call " ++ value ++ ", it is not a function"
  | notApplicable value => "Don't know how to apply: " ++ value
  | notSpliced value => "splice-unquote expects a sequence, got " ++ value
  | notItems value => "Expected a sequence, got " ++ value
  | notCollection name value => name ++ ": expected a collection, got " ++ value
  | notNamed name value => name ++ ": expected a string, keyword or symbol, got " ++ value
  | notGrowable value => "conj: expected a list or vector, got " ++ value
  | groupSize size => "partition: group size must be at least 1, got " ++ size
  | notDescribed value => "with-meta: expected a function, got " ++ value
  | invalidJson => "invalid JSON: not the text of one value"
  | nthRange index length =>
    "nth: index " ++ toString index ++ " out of range for length " ++ toString length
  | elementRange index length =>
    "Index " ++ toString index ++ " out of range for length " ++ toString length
  | entryRange index count =>
    "Index " ++ toString index ++ " out of range for map of " ++ toString count ++ " entries"
  | nodeRange id count => "No node " ++ toString id ++ " in a tree of " ++ toString count
  | badKey key => "Unexpected key " ++ key ++ ", expected: keyword or string"
  | duplicateKey key => "Duplicate key " ++ key
  | incomparable c left right => c.name ++ ": cannot compare " ++ left ++ " and " ++ right
  | unsortable => "sort: cannot order mixed or non-comparable items"
  | functionInJson => "functions cannot be serialized"
  | childless value => value ++ " has no children"
  | file path problem => path ++ ": " ++ problem.message
  | unreadable e => e.text
  | thrown text => text
  | within name f => name ++ ": " ++ f.message

/-- The class and the wording. -/
def text (f : Fault) : String := f.kind.name ++ ": " ++ f.message

/-- The path whose file is missing, if that is the cause. -/
def missingFile? : Fault → Option String
  | file path .missing => some path
  | within _ f => f.missingFile?
  | _ => none

end Fault

end EditableLisp
