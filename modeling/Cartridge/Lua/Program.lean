import Cartridge.Lua.Grammar
import Cartridge.Lua.Scan
import Cartridge.Lua.Writing.Stream

/-!
# Programs

A program is the Lua code of a cart: the scanner that read it, with all its
tokens, and the tree of the last text that followed the grammar.
-/

namespace Cartridge.Lua

structure Program where
  version : Int
  scanner : Scanner := {}
  root : Tree := .absent
  deriving Repr, Inhabited

namespace Program

def tokens (p : Program) : Array Token := p.scanner.tokens

/-- Reads more source, which breaks off with the failure `broken` if there is one.
The tree is that of all tokens so far; after a failure the tokens read stay, and
the tree is the old one. -/
def updateFrom (p : Program) (source : List Bytes) (broken : Option Failure) :
    Program × Option Failure :=
  match p.scanner.feedFrom source broken with
  | (sc, some e) => ({ p with scanner := sc }, some e)
  | (sc, none) =>
      match Tree.ofTokens sc.tokens with
      | .ok t => ({ p with scanner := sc, root := t }, none)
      | .error e => ({ p with scanner := sc }, some e)

def update (p : Program) (source : List Bytes) : Program × Option Failure :=
  p.updateFrom source none

def ofSource (version : Int) (source : List Bytes) (broken : Option Failure) :
    Except Failure Program :=
  match updateFrom { version := version } source broken with
  | (p, none) => .ok p
  | (_, some e) => .error e

def ofLines (version : Int) (source : List Bytes) : Except Failure Program :=
  ofSource version source none

def write (p : Program) (w : Writer) : Output := w.write p.tokens p.root

def reread (p : Program) (w : Writer) : Except Failure Program :=
  let out := p.write w
  ofSource p.version out.lines out.failure

def source (p : Program) : Bytes := (p.write .echo).lines.flatten

def charCount (p : Program) : Nat := p.source.length

/-- How many tokens the console counts for one: none for blanks and for what comes
in pairs, two for a numeral with a small `e`. -/
def tokenWeight (t : Token) : Nat :=
  if Stream.isSymbol t [":", ".", ")", "]", "\x7d"] || Stream.isKeyword t ["local", "end"] then 0
  else if t.kind == .number && t.data.contains 101 then 2
  else if t.isGap then 0
  else 1

def tokenCount (p : Program) : Nat := p.tokens.foldl (fun n t => n + tokenWeight t) 0

def lineCount (p : Program) : Nat := p.tokens.countP fun t => t.kind == .newline

/-- The text of the comment that is the token with the given index, if it is one. -/
def commentAt (p : Program) (i : Nat) : Option Bytes :=
  match p.tokens[i]? with
  | some t => if t.kind == .comment then some (Bytes.trim (t.data.drop 2)) else none
  | none => none

def title (p : Program) : Option Bytes := p.commentAt 0

def byline (p : Program) : Option Bytes := p.commentAt 2

end Program

def friendly (b : Bytes) : String := Bytes.toText (b.map fun c => if 127 < c then 95 else c)

end Cartridge.Lua
