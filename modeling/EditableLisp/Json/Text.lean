import EditableLisp.Json.Tree

/-!
# Texts of JSON trees

`Tree.text` writes a tree without blanks. With `Reading.ofText` it is the JSON library that runs (`Json.standard`).
-/

namespace EditableLisp.Json

/-- A digit below sixteen. -/
def hexDigit (n : Nat) : Char := if n < 10 then Char.ofNat (48 + n) else Char.ofNat (87 + n)

/-- A character inside a JSON string. -/
def escapeChar (c : Char) : List Char :=
  if c = '"' then ['\\', '"']
  else if c = '\\' then ['\\', '\\']
  else if c = '\x08' then ['\\', 'b']
  else if c = '\x0c' then ['\\', 'f']
  else if c = '\n' then ['\\', 'n']
  else if c = '\r' then ['\\', 'r']
  else if c = '\t' then ['\\', 't']
  else if c.toNat < 0x20 then ['\\', 'u', '0', '0', hexDigit (c.toNat / 16), hexDigit (c.toNat % 16)]
  else [c]

/-- A JSON string. -/
def quote (s : String) : String := String.ofList ('"' :: s.toList.flatMap escapeChar ++ ['"'])

namespace Tree

mutual

/-- The JSON text of a tree. -/
def text : Tree → String
  | .null => "null"
  | .bool b => if b then "true" else "false"
  | .int n => (if n < 0 then "-" else "") ++ toString n.natAbs
  | .num x => floatText x
  | .str s => quote s
  | .arr items => "[" ++ ",".intercalate (texts items) ++ "]"
  | .obj members => "\x7b" ++ ",".intercalate (memberTexts members) ++ "\x7d"

/-- The JSON texts of trees. -/
def texts : List Tree → List String
  | [] => []
  | t :: rest => t.text :: texts rest

/-- The JSON texts of members. -/
def memberTexts : List (String × Tree) → List String
  | [] => []
  | (name, t) :: rest => (quote name ++ ":" ++ t.text) :: memberTexts rest

end

end Tree

/-- The library that runs. -/
instance standard : Library where
  write := Tree.text
  read := Reading.ofText

end EditableLisp.Json
