import EditableLisp.Environment
import EditableLisp.Printer

/-!
# Parameter patterns

A pattern is a symbol or a vector of patterns; before the last pattern of a vector may stand `&`, and the
last pattern then takes a vector of all that is left. `validate` says whether a value is a pattern.
`destructure` binds the names of a pattern to the parts of a value; it does not demand a valid pattern and
fails at the first part that does not fit, after it has bound the names before it. They are `validate_params` and
`bind`.
-/

namespace EditableLisp.Pattern

/-- The symbol `&`. -/
def isRest : Value → Bool
  | .symbol _ name => name == "&"
  | _ => false

mutual

/-- A value is a pattern. -/
def validate (pattern : Value) : Act Unit :=
  match pattern with
  | .symbol _ name => if name == "&" then fail .restAsName else pure ()
  | .seq .vector node items => validateItems (.seq .vector node items) items
  | v => do fail (.badPattern (← print v))

/-- The elements of a vector are those of a pattern. -/
def validateItems (whole : Value) : List Value → Act Unit
  | [] => pure ()
  | item :: rest =>
    if isRest item then
      match rest with
      | [last] => validate last
      | _ => do fail (.restPlacement (← print whole))
    else do
      validate item
      validateItems whole rest

end

/-- The elements of a value that a vector of patterns takes apart. -/
def parts? : Value → Option (List Value)
  | .seq _ _ items => some items
  | .nil => some []
  | _ => none

mutual

/-- Binds the names of a pattern to the parts of a value in the innermost frame. -/
def destructure (env : Env) (pattern value : Value) : Act Unit :=
  match pattern with
  | .symbol _ name => define env name value
  | .seq .vector node items =>
    match parts? value with
    | some parts =>
      destructureItems env (.seq .vector node items) items.length parts.length parts items
    | none => do
      let shown ← print value
      fail (.indestructible shown (← print (.seq .vector node items)))
  | v => do fail (.badPattern (← print v))

/-- Binds the names of patterns to values in turn. -/
def destructureItems (env : Env) (whole : Value) (wanted got : Nat) (values : List Value) :
    List Value → Act Unit
  | [] => if values.isEmpty then pure () else fail (.argumentCount wanted got)
  | item :: rest =>
    if isRest item then
      match rest with
      | last :: _ => do destructure env last (← newVector values)
      | [] => do fail (.restAlone (← print whole))
    else
      match values with
      | v :: vs => do
        destructure env item v
        destructureItems env whole wanted got vs rest
      | [] => fail (.argumentCount wanted got)

end

end EditableLisp.Pattern
