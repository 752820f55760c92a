import Cartridge.Lua.ShortName
import Cartridge.Lua.Writing.Gap
import Cartridge.Lua.Writing.Script

/-!
# Writing a tree

A pen carries out the steps of a script against the source tokens.  It moves over
the tokens as it writes, so that the gaps between words can be kept, reduced or
laid out anew.  What was written before a failure is kept.
-/

namespace Cartridge.Lua

inductive Style where
  | echo
  | minify
  /-- Laid out with the given number of spaces for each level; without a number
  nothing can be laid out. -/
  | format (width : Option Int)
  deriving DecidableEq, Repr, Inhabited

/-- A style, and whether the source tokens are left out of account. -/
structure Manner where
  style : Style := .echo
  /-- Whether words are written without looking at the source tokens. -/
  plain : Bool := false
  deriving DecidableEq, Repr, Inhabited

structure Pen where
  pos : Nat := 0
  depth : Nat := 0
  pieces : Array Bytes := #[]
  /-- For each open value, whether the source has a parenthesis around it. -/
  parens : List Bool := []
  names : ShortName.Table := {}
  deriving Repr, Inhabited

abbrev Write := EStateM Failure Pen

/-- What was written: lines, the failure that ended the writing early, and the
short names given in order. -/
structure Output where
  lines : List Bytes
  failure : Option Failure := none
  renamed : List (Bytes × Bytes) := []
  deriving Repr, Inhabited

namespace Pen

def put (text : Bytes) : Write Unit := modify fun p => { p with pieces := p.pieces.push text }

def advance : Write Unit := modify fun p => { p with pos := p.pos + 1 }

def indent : Write Unit := modify fun p => { p with depth := p.depth + 1 }

def dedent : Write Unit := modify fun p => { p with depth := p.depth - 1 }

section Tokens

variable (m : Manner) (toks : Array Token)

def next : Write Token := do
  match toks[(← get).pos]? with
  | some t => return t
  | none => throw .outOfRange

def within (owner : Owner) : Write Bool := do
  let pos := (← get).pos
  match owner with
  | .program => return decide (pos < toks.size)
  | .upTo stop => return decide (pos < stop)
  | .unplaced => throw .wrongType
  | .foreign => throw .missingPart

/-- Takes the gap before the next word of the owner, of at most `count` tokens. -/
def takeGap (owner : Owner) : Nat → Write (List Token)
  | 0 => return []
  | count + 1 => do
      if ← within toks owner then
        let t ← next toks
        if t.isGap then
          advance
          return t :: (← takeGap owner count)
        else return []
      else return []

def sourceText (ts : List Token) : Bytes := ts.flatMap Token.code

def indentation (width : Int) (depth : Nat) : Bytes :=
  List.replicate (width.toNat * depth) Gap.space

def gap (owner : Owner) : Write Bytes := do
  match m.style with
  | .echo =>
      if m.plain then return [Bytes.newline]
      else return sourceText (← takeGap toks owner (toks.size + 1))
  | .minify =>
      let start := (← get).pos
      let ts ← takeGap toks owner (toks.size + 1)
      let stop := (← get).pos
      if start = 0 || stop = toks.size then return []
      else return Gap.minified (sourceText (ts.filter fun t => t.kind != .comment))
  | .format width =>
      let start := (← get).pos
      let ts ← takeGap toks owner (toks.size + 1)
      let p ← get
      match width with
      | none => throw .wrongType
      | some w =>
          return Gap.formatted (indentation w p.depth) (start = 0) (p.pos = toks.size)
            (sourceText ts)

/-- The text for a reserved word or symbol, which has to be the next token. -/
def textFor (owner : Owner) (word : Bytes) : Write Bytes := do
  if m.plain then return Gap.space :: word
  else
    let spaces ← gap m toks owner
    let t ← next toks
    if t.agrees { kind := .keyword, data := word } || t.agrees { kind := .symbol, data := word } then
      advance
      return spaces ++ word
    else throw .unmetCondition

def spelled : Spelling → Write Bytes
  | .token t => return t.code
  | .label b => return b
  | .noToken => throw .missingPart
  | .noName => throw .wrongType

def checkName : Spelling → Write Unit
  | .token t => if t.kind == .name then return () else throw .unmetCondition
  | .label _ => return ()
  | .noToken => throw .missingPart
  | .noName => return ()

def nameFor (owner : Owner) (s : Spelling) : Write Bytes := do
  match m.style with
  | .minify =>
      let spaces ← gap m toks owner
      checkName s
      advance
      let full ← spelled s
      let (short, names) := (← get).names.lookup full
      modify fun p => { p with names := names }
      return spaces ++ short
  | _ =>
      if m.plain then return Gap.space :: (← spelled s)
      else
        let spaces ← gap m toks owner
        checkName s
        advance
        return spaces ++ (← spelled s)

/-- The text for semicolons and the gaps around them, each semicolon written as
`mark`. -/
def semicolonsFor (owner : Owner) (mark : Bytes) : Nat → Write Bytes
  | 0 => return []
  | count + 1 => do
      let spaces ← gap m toks owner
      let t ← next toks
      if t.agrees (Token.symbol ";") then
        advance
        return spaces ++ mark ++ (← semicolonsFor owner mark count)
      else return spaces

def carryOut : Step → Write Unit
  | .gap owner => do put (← gap m toks owner)
  | .text owner word => do put (← textFor m toks owner word)
  | .name owner s => do put (← nameFor m toks owner s)
  | .semicolons owner => do
      match m.style with
      | .minify => put (← semicolonsFor m toks owner [Gap.space] (toks.size + 1))
      | _ =>
          if m.plain then put [Gap.space]
          else put (← semicolonsFor m toks owner (Bytes.ofText ";") (toks.size + 1))
  | .put text => put text
  | .take text => do
      put text
      if m.plain then return () else advance
  | .check t => do
      if t.agrees (← next toks) then return () else throw .unmetCondition
  | .openIf => do
      if (← next toks).agrees (Token.symbol "(") then
        put (Bytes.ofText "(")
        advance
        indent
        modify fun p => { p with parens := true :: p.parens }
      else modify fun p => { p with parens := false :: p.parens }
  | .closeIf owner => do
      let p ← get
      match p.parens with
      | true :: rest =>
          set { p with parens := rest }
          dedent
          put (← textFor m toks owner (Bytes.ofText ")"))
      | _ :: rest => set { p with parens := rest }
      | [] => return ()
  | .separator owner => do
      let t ← next toks
      put (← textFor m toks owner t.code)
  | .lastSeparator owner => do
      let t ← next toks
      if t.agrees (Token.symbol ",") || t.agrees (Token.symbol ";") then
        put (← textFor m toks owner t.code)
      else return ()
  | .indent => indent
  | .dedent => dedent
  | .stop e => throw e

def carryOutAll : List Step → Write Unit
  | [] => return ()
  | s :: rest => do
      carryOut m toks s
      carryOutAll rest

def writeScript (steps : List Step) : Write Bytes := do
  carryOutAll m toks steps
  gap m toks .program

end Tokens

/-- The text of pieces.  Of several newlines in a row that are pieces of their own,
only the first is kept if the source tokens were left out of account. -/
def joined (plain : Bool) : Bool → List Bytes → Bytes
  | _, [] => []
  | afterNewline, s :: rest =>
      if s = [Bytes.newline] then
        (if plain && afterNewline then [] else s) ++ joined plain true rest
      else s ++ joined plain false rest

def fullLines (s : Bytes) : List Bytes :=
  (Bytes.lines s).filter fun l => l.getLast? = some Bytes.newline

end Pen

def Tree.write (m : Manner) (toks : Array Token) (root : Tree) : Output :=
  match (Pen.writeScript m toks (root.script m.plain)).run {} with
  | .ok last p =>
      { lines := Bytes.lines (Pen.joined m.plain false p.pieces.toList ++ last)
        renamed := p.names.given }
  | .error e p =>
      { lines := Pen.fullLines (Pen.joined m.plain false p.pieces.toList)
        failure := some e
        renamed := p.names.given }

end Cartridge.Lua
