import Cartridge.Lua.Writing.Pen

/-!
# Writing tokens

Three writers need no tree.  One writes the tokens as they are; one leaves out
what the program does not need; one lays out the words by brackets and by the
words that open and close blocks.
-/

namespace Cartridge.Lua

namespace Stream

/-- The lines of tokens, with `current` the reversed pieces of the first one.  A
line ends with a newline token. -/
def echoFrom (current : List Bytes) : List Token → List Bytes
  | [] => if current.isEmpty then [] else [current.reverse.flatten]
  | t :: ts =>
      if t.kind == .newline then (t.code :: current).reverse.flatten :: echoFrom [] ts
      else echoFrom (t.code :: current) ts

def echo (toks : List Token) : List Bytes := echoFrom [] toks

/-! ### Minifying -/

structure MinifyState where
  needsSpace : Bool := false
  afterNewline : Bool := true
  names : ShortName.Table := {}

/-- The pieces for a word: a space if it would run into the one before, and the
word. -/
def wordPieces (needsSpace : Bool) (word : Bytes) : List Bytes :=
  if needsSpace then [[Gap.space], word] else [word]

def minifyToken (s : MinifyState) (t : Token) : List Bytes × MinifyState :=
  match t.kind with
  | .comment | .space => ([], s)
  | .newline =>
      (if s.afterNewline then [] else [[Bytes.newline]],
        { s with needsSpace := false, afterNewline := true })
  | .name =>
      let (short, names) := s.names.lookup t.code
      (wordPieces s.needsSpace short, { needsSpace := true, afterNewline := false, names := names })
  | .keyword | .number =>
      (wordPieces s.needsSpace t.code, { s with needsSpace := true, afterNewline := false })
  | _ =>
      ([t.code],
        { s with
          needsSpace := Bytes.holds t.code (Bytes.ofText "])\x7d"), afterNewline := false })

def minifyFrom (s : MinifyState) : List Token → List Bytes × MinifyState
  | [] => ([], s)
  | t :: ts =>
      let (pieces, s) := minifyToken s t
      let (more, s) := minifyFrom s ts
      (pieces ++ more, s)

/-- The pieces of a minified program: no comments, no spaces but between words
that would run together, no empty lines, and short names. -/
def minify (toks : List Token) : Output :=
  let (pieces, s) := minifyFrom {} toks
  { lines := pieces, renamed := s.names.given }

/-! ### Formatting -/

structure FormatState where
  level : Int := 0
  blanks : Bytes := []
  /-- Whether the next closing parenthesis ends the parameters of a function. -/
  inParameters : Bool := false
  previous : Option Token := none

def isSymbol (t : Token) (signs : List String) : Bool :=
  signs.any fun s => t.agrees (Token.symbol s)

def isKeyword (t : Token) (words : List String) : Bool :=
  words.any fun w => t.agrees (Token.keyword w)

def isTight (previous : Option Token) (t : Token) : Bool :=
  isSymbol t [",", ";", ")", "]", "\x7d", ".."] ||
    match previous with
    | none => true
    | some p =>
        isSymbol p ["(", "[", "\x7b", ".."] || (isKeyword p ["function"] && isSymbol t ["("])

def spacing (width : Option Int) (level : Int) (blanks : Bytes) (previous : Option Token)
    (t : Token) : Except (List Bytes × Failure) (List Bytes) :=
  let newlines := blanks.count Bytes.newline
  if 0 < newlines then
    let first := if 1 < newlines then [[Bytes.newline]] else []
    match width with
    | none => .error (first, .wrongType)
    | some w =>
        .ok (first ++ [Bytes.newline :: List.replicate (level.toNat * w.toNat) Gap.space])
  else if t.kind == .comment then .ok [[Gap.space, Gap.space]]
  else if isTight previous t then .ok []
  else .ok [[Gap.space]]

def formatFrom (width : Option Int) (s : FormatState) (pieces : List Bytes) :
    List Token → Output
  | [] => { lines := ([Bytes.newline] :: pieces).reverse }
  | t :: ts =>
      if t.kind == .newline || t.kind == .space then
        formatFrom width { s with blanks := s.blanks ++ t.code } pieces ts
      else
        let level :=
          if isSymbol t [")", "\x7d", "]"] || isKeyword t ["end", "until", "elseif", "else"] then
            s.level - 1
          else s.level
        match spacing width level s.blanks s.previous t with
        | .error (before, e) => { lines := (before.reverse ++ pieces).reverse, failure := some e }
        | .ok before =>
            let closesParameters := s.inParameters && isSymbol t [")"]
            let level := if closesParameters then level + 1 else level
            let level :=
              if isSymbol t ["(", "\x7b", "["] || isKeyword t ["do", "repeat", "then", "else"] then
                level + 1
              else level
            formatFrom width
              { level := level
                blanks := []
                inParameters :=
                  if isKeyword t ["function"] then true
                  else s.inParameters && !closesParameters
                previous := some t }
              (t.code :: (before.reverse ++ pieces)) ts

def format (width : Option Int) (toks : List Token) : Output := formatFrom width {} [] toks

end Stream

inductive Writer where
  | echo
  | tree (manner : Manner)
  | minifyTokens
  /-- Its tokens, laid out with the given number of spaces for each level. -/
  | formatTokens (width : Option Int)
  | none
  deriving DecidableEq, Repr, Inhabited

def Writer.write (w : Writer) (toks : Array Token) (root : Tree) : Output :=
  match w with
  | .echo => { lines := Stream.echo toks.toList }
  | .tree manner => root.write manner toks
  | .minifyTokens => Stream.minify toks.toList
  | .formatTokens width => Stream.format width toks.toList
  | .none => { lines := [], failure := some .noSuchWriter }

end Cartridge.Lua
