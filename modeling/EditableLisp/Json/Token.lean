import EditableLisp.Json.Number

/-!
# Tokens of JSON texts

A text is taken apart character by character (`Scan.next`). A word is complete with its last letter, and
a number with the last character that can go on with it, whatever follows. The first place that belongs
to no token ends the scan.
-/

namespace EditableLisp.Json

/-- A token; `invalid` stands for the first place that is none. -/
inductive Token where
  | openArray | closeArray | openObject | closeObject | comma | colon
  | null
  | bool (b : Bool)
  | int (n : Int)
  | num (x : Number)
  | str (s : String)
  | invalid

/-! ## Numbers -/

/-- Where a scan is inside a number: after its sign, after a whole part that is zero, in another whole
part, after the point, in the fraction, after the mark of the exponent, after its sign, or in its digits. -/
inductive Part where
  | sign | zero | whole | point | fraction | mark | exponentSign | exponent
deriving DecidableEq, Repr

/-- What a character does to a number: it goes on with a part, it no longer belongs to it, or it does not
fit. -/
inductive Advance where
  | part (p : Part)
  | over
  | unfit
deriving DecidableEq, Repr

namespace Part

/-- The digits so far are a whole number, or one with a fraction or exponent: the number may end. -/
def isComplete : Part → Bool
  | zero | whole | fraction | exponent => true
  | sign | point | mark | exponentSign => false

/-- Where a digit leads. -/
def digit : Part → Char → Advance
  | sign, c => .part (if c = '0' then zero else whole)
  | zero, _ => .unfit
  | whole, _ => .part whole
  | point, _ => .part fraction
  | fraction, _ => .part fraction
  | mark, _ => .part exponent
  | exponentSign, _ => .part exponent
  | exponent, _ => .part exponent

/-- Where a character leads. -/
def next (p : Part) (c : Char) : Advance :=
  if c.isDigit then p.digit c
  else if c = '.' && (p == zero || p == whole) then .part point
  else if (c = 'e' || c = 'E') && (p == zero || p == whole || p == fraction) then .part mark
  else if (c = '+' || c = '-') && p == mark then .part exponentSign
  else if p.isComplete then .over
  else .unfit

end Part

/-! ## Scanning -/

/-- Where a scan is: between tokens, in a word with the letters that are missing, in a number with its
characters, last first, in a string with its content, in an escape with the upper half of a surrogate
pair if there was one, between the halves of a pair, or after the first invalid place. -/
inductive Mode where
  | blank
  | word (missing : List Char) (t : Token)
  | number (p : Part) (cs : List Char)
  | text (content : String)
  | escape (content : String)
  | hex (content : String) (high : Option Nat) (digits value : Nat)
  | pair (content : String) (high : Nat)
  | pairEscape (content : String) (high : Nat)
  | dead

/-- A scan in progress. -/
structure Scan where
  mode : Mode
  tokens : Array Token

namespace Scan

/-- Adds a token. -/
def emit (s : Scan) (t : Token) : Scan := ⟨.blank, s.tokens.push t⟩

/-- Ends at an invalid place. -/
def die (s : Scan) : Scan := ⟨.dead, s.tokens.push .invalid⟩

/-- Ends a number with its characters, last first. -/
def closeNumber (s : Scan) (cs : List Char) : Scan :=
  match integer? cs.reverse with
  | some n => s.emit (.int n)
  | none =>
    match number? cs.reverse with
    | some x => s.emit (.num x)
    | none => s.die

/-- Reads a character between tokens. -/
def fresh (s : Scan) (c : Char) : Scan :=
  if [' ', '\t', '\n', '\r'].contains c then s
  else if c = '[' then s.emit .openArray
  else if c = ']' then s.emit .closeArray
  else if c = '\x7b' then s.emit .openObject
  else if c = '\x7d' then s.emit .closeObject
  else if c = ',' then s.emit .comma
  else if c = ':' then s.emit .colon
  else if c = '"' then { s with mode := .text "" }
  else if c = '-' then { s with mode := .number .sign [c] }
  else if c.isDigit then { s with mode := .number (if c = '0' then .zero else .whole) [c] }
  else if c = 'n' then { s with mode := .word ['u', 'l', 'l'] .null }
  else if c = 't' then { s with mode := .word ['r', 'u', 'e'] (.bool true) }
  else if c = 'f' then { s with mode := .word ['a', 'l', 's', 'e'] (.bool false) }
  else s.die

/-- The character that follows a backslash for another one. -/
def unescape? (c : Char) : Option Char :=
  match c with
  | '"' => some '"'
  | '\\' => some '\\'
  | '/' => some '/'
  | 'b' => some '\x08'
  | 'f' => some '\x0c'
  | 'n' => some '\n'
  | 'r' => some '\r'
  | 't' => some '\t'
  | _ => none

/-- The value of a hexadecimal digit. -/
def hexDigit? (c : Char) : Option Nat :=
  if c.isDigit then some (c.toNat - 48)
  else if 'a' ≤ c && c ≤ 'f' then some (c.toNat - 87)
  else if 'A' ≤ c && c ≤ 'F' then some (c.toNat - 55)
  else none

/-- The upper half of a surrogate pair. -/
def isHigh (n : Nat) : Bool := 0xD800 ≤ n && n < 0xDC00

/-- The lower half of a surrogate pair. -/
def isLow (n : Nat) : Bool := 0xDC00 ≤ n && n < 0xE000

/-- Ends an escape of four hexadecimal digits. -/
def closeHex (s : Scan) (content : String) (high : Option Nat) (value : Nat) : Scan :=
  match high with
  | some h =>
    if isLow value then
      { s with mode := .text (content.push (Char.ofNat (0x10000 + (h - 0xD800) * 0x400 + (value - 0xDC00)))) }
    else s.die
  | none =>
    if isHigh value then { s with mode := .pair content value }
    else if isLow value then s.die
    else { s with mode := .text (content.push (Char.ofNat value)) }

/-- Reads a character after a number, unless the number was invalid. -/
def resume (s : Scan) (c : Char) : Scan :=
  match s.mode with
  | .blank => s.fresh c
  | _ => s

/-- Reads a character. -/
def next (s : Scan) (c : Char) : Scan :=
  match s.mode with
  | .blank => s.fresh c
  | .word missing t =>
    if missing.head? ≠ some c then s.die
    else if missing.tail.isEmpty then s.emit t
    else { s with mode := .word missing.tail t }
  | .number p cs =>
    match p.next c with
    | .part p => { s with mode := .number p (c :: cs) }
    | .over => (s.closeNumber cs).resume c
    | .unfit => s.die
  | .text content =>
    if c = '"' then s.emit (.str content)
    else if c = '\\' then { s with mode := .escape content }
    else if c.toNat < 0x20 then s.die
    else { s with mode := .text (content.push c) }
  | .escape content =>
    if c = 'u' then { s with mode := .hex content none 0 0 }
    else
      match unescape? c with
      | some d => { s with mode := .text (content.push d) }
      | none => s.die
  | .hex content high digits value =>
    match hexDigit? c with
    | none => s.die
    | some d =>
      let value := value * 16 + d
      if digits = 3 then s.closeHex content high value
      else { s with mode := .hex content high (digits + 1) value }
  | .pair content high => if c = '\\' then { s with mode := .pairEscape content high } else s.die
  | .pairEscape content high =>
    if c = 'u' then { s with mode := .hex content (some high) 0 0 } else s.die
  | .dead => s

/-- The tokens of a scan at the end of the text. -/
def finish (s : Scan) : List Token :=
  match s.mode with
  | .blank => s.tokens.toList
  | .number p cs => (if p.isComplete then s.closeNumber cs else s.die).tokens.toList
  | .dead => s.tokens.toList
  | _ => s.die.tokens.toList

end Scan

/-- The tokens of a text. -/
def tokens (text : String) : List Token := (text.toList.foldl Scan.next ⟨.blank, #[]⟩).finish

end EditableLisp.Json
