import EditableLisp.Source.Error
import EditableLisp.Text.Blank
import EditableLisp.Text.Quoted
import EditableLisp.Value.Basic

/-!
# Tokens

A source text is cut into tokens. Each token keeps the blank text before it, so that the blanks and
lexemes of all tokens and the blank text at the end give the source back. Blank text is made of blank
characters, commas, and comments from a semicolon up to the end of the line.

`Scan.next` reads one character; the scan of a text is the fold of it over the characters (`tokenize`, `ends_atom`).
The only text without a scan is one that ends inside a string.
-/

namespace EditableLisp

/-- The kinds of brackets. -/
inductive Bracket where
  | round | square | curly
deriving DecidableEq, Repr

namespace Bracket

/-- The character that opens a bracket. -/
def opening : Bracket → Char
  | round => '('
  | square => '['
  | curly => '\x7b'

/-- The character that closes a bracket. -/
def closing : Bracket → Char
  | round => ')'
  | square => ']'
  | curly => '\x7d'

/-- The bracket that a character opens. -/
def ofOpening? (c : Char) : Option Bracket :=
  if c = '(' then some round else if c = '[' then some square
  else if c = '\x7b' then some curly else none

/-- The bracket that a character closes. -/
def ofClosing? (c : Char) : Option Bracket :=
  if c = ')' then some round else if c = ']' then some square
  else if c = '\x7d' then some curly else none

end Bracket

/-- What a token is. -/
inductive TokenKind where
  | opening (b : Bracket)
  | closing (b : Bracket)
  | mark (style : Style)
  | text (content : String)
  | atom
deriving DecidableEq, Repr

/-- A token with the blank text before it and its byte offsets. -/
structure Token where
  kind : TokenKind
  blank : String
  lexeme : String
  start : Nat
  stop : Nat
deriving DecidableEq, Repr

namespace Token

/-- A character ends a name or number. -/
def endsAtom (c : Char) : Bool :=
  Text.isBlank c || ['(', ')', '[', ']', '\x7b', '\x7d', '"', ',', ';'].contains c

/-- The mark that a character stands for on its own. -/
def markOf? (c : Char) : Option Style :=
  if c = '\'' then some .quote else if c = '\x60' then some .quasiquote
  else if c = '@' then some .deref else none

/-- Where a scan is: between tokens, in a comment, after a tilde, in a name or number, in a string with
the content so far, or after a backslash in a string. -/
inductive Mode where
  | blank
  | comment
  | tilde
  | atom
  | text (content : String)
  | escape (content : String)

/-- A scan in progress: the byte offset of the next character, the offset where the token in progress
starts, the blank text before it, its characters, and the tokens so far. -/
structure Scan where
  pos : Nat
  start : Nat
  blank : String
  lexeme : String
  mode : Mode
  tokens : Array Token

namespace Scan

/-- The scan of an empty text. -/
def initial : Scan := ⟨0, 0, "", "", .blank, #[]⟩

/-- Ends the token in progress at a byte offset. -/
def emit (s : Scan) (kind : TokenKind) (stop : Nat) : Scan :=
  { s with
    blank := ""
    lexeme := ""
    mode := .blank
    tokens := s.tokens.push ⟨kind, s.blank, s.lexeme, s.start, stop⟩ }

/-- Starts a token with a character. -/
def begin (s : Scan) (c : Char) (mode : Mode) : Scan :=
  { s with start := s.pos, lexeme := String.singleton c, mode := mode, pos := s.pos + c.utf8Size }

/-- Adds a character to the blank text. -/
def skip (s : Scan) (c : Char) (mode : Mode) : Scan :=
  { s with blank := s.blank.push c, mode := mode, pos := s.pos + c.utf8Size }

/-- Adds a character to the token in progress. -/
def extend (s : Scan) (c : Char) (mode : Mode) : Scan :=
  { s with lexeme := s.lexeme.push c, mode := mode, pos := s.pos + c.utf8Size }

/-- Reads a token of one character. -/
def single (s : Scan) (c : Char) (kind : TokenKind) : Scan :=
  (s.begin c .blank).emit kind (s.pos + c.utf8Size)

/-- Reads a character between tokens. -/
def fresh (s : Scan) (c : Char) : Scan :=
  if Text.isBlank c || c == ',' then s.skip c .blank
  else if c = ';' then s.skip c .comment
  else
    match Bracket.ofOpening? c, Bracket.ofClosing? c, markOf? c with
    | some b, _, _ => s.single c (.opening b)
    | _, some b, _ => s.single c (.closing b)
    | _, _, some style => s.single c (.mark style)
    | none, none, none =>
      if c = '~' then s.begin c .tilde
      else if c = '"' then s.begin c (.text "")
      else s.begin c .atom

/-- Reads a character. -/
def next (s : Scan) (c : Char) : Scan :=
  match s.mode with
  | .blank => s.fresh c
  | .comment => s.skip c (if c = '\n' then .blank else .comment)
  | .tilde =>
    if c = '@' then
      let s := s.extend c .blank
      s.emit (.mark .spliceUnquote) s.pos
    else (s.emit (.mark .unquote) s.pos).fresh c
  | .atom => if endsAtom c then (s.emit .atom s.pos).fresh c else s.extend c .atom
  | .text content =>
    if c = '"' then
      let s := s.extend c .blank
      s.emit (.text content) s.pos
    else if c = '\\' then s.extend c (.escape content)
    else s.extend c (.text (content.push c))
  | .escape content => s.extend c (.text (content.push (Text.unescapeChar c)))

/-- Ends a scan with the text. -/
def finish (s : Scan) : Except ReadError Scan :=
  match s.mode with
  | .blank => .ok s
  | .comment => .ok s
  | .tilde => .ok (s.emit (.mark .unquote) s.pos)
  | .atom => .ok (s.emit .atom s.pos)
  | .text _ => .error ⟨.unterminatedString, s.start⟩
  | .escape _ => .error ⟨.unterminatedString, s.start⟩

end Scan

/-- The tokens of a text and the blank text after them. -/
structure Scanned where
  tokens : List Token
  tail : String
  size : Nat

/-- Cuts a text into tokens. -/
def scan (src : String) : Except ReadError Scanned := do
  let s ← (src.toList.foldl Scan.next Scan.initial).finish
  return ⟨s.tokens.toList, s.blank, s.pos⟩

end Token

end EditableLisp
