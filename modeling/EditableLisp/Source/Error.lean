/-!
# Errors of the reader

Why a source text cannot be read, and the byte offset of the place (`ReadError`).
-/

namespace EditableLisp

/-- Why a source text cannot be read. -/
inductive ReadCause where
  | unterminatedString
  | endOfInput
  | unclosed (close : Char)
  | wrongClose (expected found : Char)
  | strayClose (close : Char)
  | oddMap
  | badKey (key : String)
  | duplicateKey (key : String)
  | emptyKeyword
  | invalidNumber (text : String)
  | noForm
  | severalForms (count : Nat)
deriving DecidableEq, Repr

/-- A cause with the byte offset of its place. -/
structure ReadError where
  cause : ReadCause
  offset : Nat
deriving DecidableEq, Repr

namespace ReadCause

/-- A character between single quotes. -/
def quoted (c : Char) : String := "'" ++ String.singleton c ++ "'"

/-- The wording of a cause. -/
def message : ReadCause → String
  | unterminatedString => "Unterminated string"
  | endOfInput => "Unexpected end of input"
  | unclosed close => "Expected " ++ quoted close ++ " before end of input"
  | wrongClose expected found => "Expected " ++ quoted expected ++ " but found " ++ quoted found
  | strayClose close => "Unexpected " ++ quoted close
  | oddMap => "Map literal must contain key/value pairs"
  | badKey key => "Unexpected key " ++ key ++ ", expected: keyword or string"
  | duplicateKey key => "Duplicate key " ++ key
  | emptyKeyword => "Empty keyword"
  | invalidNumber text => "Invalid number: " ++ text
  | noForm => "Expected a form"
  | severalForms count => "Expected one form, found " ++ toString count

end ReadCause

/-- The wording of an error with its place. -/
def ReadError.text (e : ReadError) : String :=
  "ReadError at " ++ toString e.offset ++ ": " ++ e.cause.message

end EditableLisp
