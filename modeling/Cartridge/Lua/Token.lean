import Cartridge.Text.Quoted

/-!
# Tokens of Lua source

A token keeps every byte that is needed to write it again: spaces, newlines and
comments are tokens too, and a string literal remembers its quotes.
-/

namespace Cartridge.Lua

/-- A place in the source: line and byte column, both counted from zero. -/
structure Place where
  line : Nat
  column : Nat
  deriving DecidableEq, Repr, Inhabited

inductive TokenKind where
  /-- No particular kind; as a pattern it fits every token. -/
  | general
  | space
  | newline
  | comment
  | string
  | number
  | name
  | label
  | keyword
  | symbol
  deriving DecidableEq, Repr, Inhabited

namespace TokenKind

def title : TokenKind → String
  | general => "Token"
  | space => "TokSpace"
  | newline => "TokNewline"
  | comment => "TokComment"
  | string => "TokString"
  | number => "TokNumber"
  | name => "TokName"
  | label => "TokLabel"
  | keyword => "TokKeyword"
  | symbol => "TokSymbol"

def noun : TokenKind → String
  | general => "Token"
  | space => "whitespace"
  | newline => "newline"
  | comment => "comment"
  | string => "string literal"
  | number => "number"
  | name => "name"
  | label => "label"
  | keyword => "keyword"
  | symbol => "symbol"

def isGap : TokenKind → Bool
  | space | newline | comment => true
  | _ => false

end TokenKind

inductive Quote where
  | short (mark : Bytes)
  /-- Double square brackets with equals signs between them, and no escapes. -/
  | long (signs : Bytes)
  deriving DecidableEq, Repr, Inhabited

structure Token where
  kind : TokenKind
  /-- Its text; for a string literal the string it denotes. -/
  data : Bytes
  quote : Quote := .short [34]
  place : Option Place := none
  deriving DecidableEq, Repr, Inhabited

namespace Token

/-- The letter that stands for a control byte or a backslash after a backslash. -/
def escapeLetter? (c : UInt8) : Option UInt8 :=
  match c with
  | 7 => some 97
  | 8 => some 98
  | 9 => some 116
  | 10 => some 110
  | 11 => some 118
  | 12 => some 102
  | 13 => some 114
  | 92 => some 92
  | _ => none

/-- One byte of a string between short quotes. -/
def escape (mark : Bytes) (c : UInt8) : Bytes :=
  match escapeLetter? c with
  | some letter => [Bytes.backslash, letter]
  | none => if [c] == mark then [Bytes.backslash, c] else [c]

def code (t : Token) : Bytes :=
  match t.kind, t.quote with
  | .string, .long signs => (91 :: signs) ++ (91 :: t.data) ++ (93 :: signs) ++ [93]
  | .string, .short mark => mark ++ t.data.flatMap (escape mark) ++ mark
  | _, _ => t.data

/-- Whether two tokens are of one kind and hold the same text.  Letter case is
ignored in reserved words; positions and quotes are ignored in all. -/
def agrees (a b : Token) : Bool :=
  a.kind == b.kind &&
    (if a.kind == .keyword then Bytes.lower a.data == Bytes.lower b.data else a.data == b.data)

def isGap (t : Token) : Bool := t.kind.isGap

def showNumber : Option Nat → String
  | some n => toString n
  | none => "None"

def describe (t : Token) : String :=
  t.kind.title ++ "<" ++ Bytes.quoted t.data ++ ", line " ++ showNumber (t.place.map (·.line)) ++
    " char " ++ showNumber (t.place.map (·.column)) ++ ">"

def keyword (word : String) : Token := { kind := .keyword, data := Bytes.ofText word }

def symbol (sign : String) : Token := { kind := .symbol, data := Bytes.ofText sign }

end Token

/-- What a grammar asks of a token. -/
inductive Pattern where
  | kind (k : TokenKind)
  | exact (t : Token)
  deriving DecidableEq, Repr, Inhabited

/-- Whether a token is what the pattern asks for. -/
def Token.fits (t : Token) : Pattern → Bool
  | .kind .general => true
  | .kind k => t.kind == k
  | .exact u => t.agrees u

def Pattern.noun : Pattern → String
  | .kind k => k.noun
  | .exact t => Bytes.quoted t.data

end Cartridge.Lua
