import Cartridge.Failure
import Cartridge.Text.Hex

/-!
# Cutting source into tokens

Source arrives in chunks, usually lines.  The scanner takes one step at a time:
it continues a string or comment that is still open, opens a new one, or takes
the first rule of a list that fits.  What it holds survives a failure, so that
scanning can go on with further chunks.
-/

namespace Cartridge.Lua

def keywords : List Bytes :=
  ["and", "break", "do", "else", "elseif", "end", "false", "for", "function", "goto", "if", "in",
    "local", "nil", "not", "or", "repeat", "return", "then", "true", "until", "while"].map
      Bytes.ofText

/-- The symbols, each before those it starts with. -/
def symbols : List Bytes :=
  ["+=", "-=", "*=", "/=", "%=", "==", "~=", "!=", "<=", ">=", "+", "-", "*", "/", "%", "^", "#",
    "<", ">", "=", "(", ")", "\x7b", "\x7d", "[", "]", ";", ":", ",", "...", "..", "."].map
      Bytes.ofText

/-! ### Recognisers -/

abbrev Recogniser := Bytes → Option Nat

namespace Recogniser

def run (p : UInt8 → Bool) (s : Bytes) : Nat := (s.takeWhile p).length

def literal (text : Bytes) : Recogniser := fun s =>
  if text.isPrefixOf s then some text.length else none

def toLineEnd (mark : Bytes) : Recogniser := fun s =>
  if mark.isPrefixOf s then
    some (mark.length + run (· != Bytes.newline) (s.drop mark.length))
  else none

def many (p : UInt8 → Bool) : Recogniser := fun s =>
  let n := run p s
  if n = 0 then none else some n

def fraction (digit : UInt8 → Bool) : Bytes → Nat
  | 46 :: s => let n := run digit s; if n = 0 then 0 else n + 1
  | _ => 0

def based (lower upper : UInt8) (digit : UInt8 → Bool) : Recogniser
  | 48 :: x :: s =>
      if x = lower || x = upper then
        let n := run digit s
        if n = 0 then none else some (2 + n + fraction digit (s.drop n))
      else none
  | _ => none

def basedFraction (lower upper : UInt8) (digit : UInt8 → Bool) : Recogniser
  | 48 :: x :: s =>
      if x = lower || x = upper then
        let n := fraction digit s
        if n = 0 then none else some (2 + n)
      else none
  | _ => none

def power : Bytes → Nat
  | e :: s =>
      if e = 101 || e = 69 then
        match s with
        | 45 :: s' => let n := run Bytes.isDigit s'; if n = 0 then 0 else n + 2
        | _ => let n := run Bytes.isDigit s; if n = 0 then 0 else n + 1
      else 0
  | [] => 0

/-- The length of a point and any digits at the start, or zero; two points in a
row are an operator and no fraction. -/
def openFraction : Bytes → Nat
  | 46 :: s =>
      match s with
      | 46 :: _ => 0
      | _ => 1 + run Bytes.isDigit s
  | _ => 0

def decimal : Recogniser := fun s =>
  let whole := run Bytes.isDigit s
  if whole = 0 then none
  else
    let part := openFraction (s.drop whole)
    some (whole + part + power (s.drop (whole + part)))

def pointed : Recogniser := fun s =>
  let part := fraction Bytes.isDigit s
  if part = 0 then none else some (part + power (s.drop part))

def name : Recogniser
  | c :: s => if Bytes.isNameStart c then some (1 + run Bytes.isWord s) else none
  | [] => none

def label : Recogniser
  | 58 :: 58 :: s =>
      match name s with
      | some n => if [58, 58].isPrefixOf (s.drop n) then some (n + 4) else none
      | none => none
  | _ => none

def word (text : Bytes) : Recogniser := fun s =>
  if text.isPrefixOf s && ((s.drop text.length).head?.all fun c => !Bytes.isWord c) then
    some text.length
  else none

end Recogniser

structure Rule where
  kind : TokenKind
  recogniser : Recogniser

def isBinaryDigit (c : UInt8) : Bool := c == 48 || c == 49

open Recogniser in
/-- The rules for tokens that hold no line end, in the order they are tried. -/
def rules (reserved : List Bytes) : List Rule :=
  [⟨.comment, toLineEnd (Bytes.ofText "--")⟩,
    ⟨.comment, toLineEnd (Bytes.ofText "//")⟩,
    ⟨.space, many fun c => c == 32 || c == 9⟩,
    ⟨.newline, literal [13, 10]⟩,
    ⟨.newline, literal [10]⟩,
    ⟨.newline, literal [13]⟩,
    ⟨.number, based 120 88 Hex.isDigit⟩,
    ⟨.number, basedFraction 120 88 Hex.isDigit⟩,
    ⟨.number, based 98 66 isBinaryDigit⟩,
    ⟨.number, basedFraction 98 66 isBinaryDigit⟩,
    ⟨.number, decimal⟩,
    ⟨.number, pointed⟩,
    ⟨.label, label⟩] ++
  reserved.map (fun w => ⟨.keyword, word w⟩) ++
  symbols.map (fun s => ⟨.symbol, literal s⟩) ++
  [⟨.name, name⟩, ⟨.name, literal [63]⟩]

def standardRules : List Rule := rules keywords

def firstMatch (rs : List Rule) (s : Bytes) : Option (TokenKind × Nat) :=
  rs.findSome? fun r => (r.recogniser s).map fun n => (r.kind, n)

/-! ### Strings and long brackets -/

/-- How scanning inside a quoted string ended. -/
inductive QuotedScan where
  | closed (data : Bytes) (taken : Nat)
  | unclosed (data : Bytes) (taken : Nat)
  | badEscape (data : Bytes)
  deriving DecidableEq, Repr

/-- The byte that a letter, quote, backslash or newline after a backslash stands
for. -/
def unescape? (c : UInt8) : Option UInt8 :=
  match c with
  | 10 => some 10
  | 97 => some 7
  | 98 => some 8
  | 102 => some 12
  | 110 => some 10
  | 114 => some 13
  | 116 => some 9
  | 118 => some 11
  | 92 => some 92
  | 34 => some 34
  | 39 => some 39
  | _ => none

def digitValue (c : UInt8) : Nat := c.toNat - 48

/-- Scans inside a string closed by `mark`, with the reversed string so far and
the number of bytes taken.  After a backslash one to three digits are a byte in
decimal; a byte that means nothing special leaves the backslash as it is. -/
def scanQuoted (mark : UInt8) (data : Bytes) (taken : Nat) : Bytes → QuotedScan
  | [] => .unclosed data.reverse taken
  | c :: s =>
      if c = mark then .closed data.reverse (taken + 1)
      else if c = Bytes.backslash then
        match s with
        | [] => .unclosed (c :: data).reverse (taken + 1)
        | d :: s₁ =>
            if Bytes.isDigit d then
              match s₁ with
              | [] => .unclosed (UInt8.ofNat (digitValue d) :: data).reverse (taken + 2)
              | e :: s₂ =>
                  if Bytes.isDigit e then
                    match s₂ with
                    | [] =>
                        .unclosed (UInt8.ofNat (digitValue d * 10 + digitValue e) :: data).reverse
                          (taken + 3)
                    | f :: s₃ =>
                        if Bytes.isDigit f then
                          let n := digitValue d * 100 + digitValue e * 10 + digitValue f
                          if n ≤ 255 then
                            scanQuoted mark (UInt8.ofNat n :: data) (taken + 4) s₃
                          else .badEscape data.reverse
                        else
                          scanQuoted mark
                            (UInt8.ofNat (digitValue d * 10 + digitValue e) :: data) (taken + 3)
                            (f :: s₃)
                  else
                    scanQuoted mark (UInt8.ofNat (digitValue d) :: data) (taken + 2) (e :: s₂)
            else
              match unescape? d with
              | some x => scanQuoted mark (x :: data) (taken + 2) s₁
              | none => scanQuoted mark (c :: data) (taken + 1) (d :: s₁)
      else scanQuoted mark (c :: data) (taken + 1) s

/-- The equals signs of an opening long bracket at the start, if there is one. -/
def longBracket? : Bytes → Option Bytes
  | 91 :: s =>
      let signs := s.takeWhile (· == 61)
      match s.drop signs.length with
      | 91 :: _ => some signs
      | _ => none
  | _ => none

def closingBracket (signs : Bytes) : Bytes := (93 :: signs) ++ [93]

/-! ### The scanner -/

/-- What the scanner is inside of. -/
inductive Mode where
  | code
  | quoted (mark : UInt8) (data : Bytes) (start : Place)
  | comment (text : Bytes) (start : Place)
  | long (signs : Bytes) (text : Bytes) (start : Place)
  deriving DecidableEq, Repr, Inhabited

/-- A scanner: the tokens found, the place of the next byte, and what is open. -/
structure Scanner where
  tokens : Array Token := #[]
  place : Place := ⟨0, 0⟩
  mode : Mode := .code
  deriving Repr, Inhabited

def Place.next (p : Place) (c : UInt8) : Place :=
  if c = Bytes.newline then ⟨p.line + 1, 0⟩ else ⟨p.line, p.column + 1⟩

def Place.advance (p : Place) (s : Bytes) : Place := s.foldl Place.next p

namespace Scanner

def emit (sc : Scanner) (t : Token) : Scanner :=
  { sc with tokens := sc.tokens.push t, mode := .code }

/-- A step with the bytes taken, the place not yet moved.  The last component is
the failure, if the step fails. -/
def act (rs : List Rule) (sc : Scanner) (s : Bytes) : Scanner × Nat × Option Failure :=
  match sc.mode with
  | .quoted mark data start =>
      match scanQuoted mark [] 0 s with
      | .closed more n =>
          (sc.emit { kind := .string, data := data ++ more, quote := .short [mark],
                     place := some start }, n, none)
      | .unclosed more n => ({ sc with mode := .quoted mark (data ++ more) start }, n, none)
      | .badEscape more =>
          ({ sc with mode := .quoted mark (data ++ more) start }, 0, some .unfitValue)
  | .comment text start =>
      match Bytes.cut (closingBracket []) s with
      | some (more, _) =>
          (sc.emit { kind := .comment, data := text ++ more ++ closingBracket [],
                     place := some start }, more.length + 2, none)
      | none => ({ sc with mode := .comment (text ++ s) start }, s.length, none)
  | .long signs text start =>
      match Bytes.cut (closingBracket signs) s with
      | some (more, _) =>
          (sc.emit { kind := .string, data := text ++ more, quote := .long signs,
                     place := some start }, more.length + signs.length + 2, none)
      | none => ({ sc with mode := .long signs (text ++ s) start }, s.length, none)
  | .code =>
      if (Bytes.ofText "--[[").isPrefixOf s then
        ({ sc with mode := .comment (Bytes.ofText "--[[") sc.place }, 4, none)
      else match longBracket? s with
        | some signs => ({ sc with mode := .long signs [] sc.place }, signs.length + 2, none)
        | none =>
            match s with
            | [] => (sc, 0, none)
            | c :: _ =>
                if c = 39 || c = 34 then ({ sc with mode := .quoted c [] sc.place }, 1, none)
                else match firstMatch rs s with
                  | some (kind, n) =>
                      (sc.emit { kind := kind, data := s.take n, place := some sc.place }, n, none)
                  | none => (sc, 0, none)

/-- One step over the given rules: the scanner after it and the bytes taken, or
the failure.  A step that fails moves nothing but what is already read of an open
string. -/
def stepWith (rs : List Rule) (sc : Scanner) (s : Bytes) : Scanner × Nat × Option Failure :=
  match act rs sc s with
  | (sc', n, none) => ({ sc' with place := sc'.place.advance (s.take n) }, n, none)
  | (sc', n, some e) => (sc', n, some e)

def step (sc : Scanner) (s : Bytes) : Scanner × Nat × Option Failure :=
  stepWith standardRules sc s

/-- Steps until one takes nothing: the scanner and the bytes that are left.  The
bound is on the number of steps. -/
def run : Nat → Scanner → Bytes → Scanner × Bytes × Option Failure
  | 0, sc, s => (sc, s, none)
  | fuel + 1, sc, s =>
      match sc.step s with
      | (sc', _, some e) => (sc', s, some e)
      | (sc', 0, none) => (sc', s, none)
      | (sc', n + 1, none) => run fuel sc' (s.drop (n + 1))

/-- Scans one chunk.  Each step but the last takes a byte, so that the length of
the chunk bounds their number. -/
def chunk (sc : Scanner) (s : Bytes) : Scanner × Option Failure :=
  match run (s.length + 1) sc s with
  | (sc', _, some e) => (sc', some e)
  | (sc', [], none) => (sc', none)
  | (sc', rest, none) =>
      (sc', some (.lexical (.unknown rest) (sc'.place.line + 1) (sc'.place.column + 1)))

def chunks (sc : Scanner) : List Bytes → Scanner × Option Failure
  | [] => (sc, none)
  | s :: rest =>
      match sc.chunk s with
      | (sc', none) => sc'.chunks rest
      | (sc', some e) => (sc', some e)

def unclosed (sc : Scanner) : Option Failure :=
  match sc.mode with
  | .code => none
  | .quoted _ _ p => some (.lexical .openString p.line p.column)
  | .long _ _ p => some (.lexical .openLongString p.line p.column)
  | .comment _ p => some (.lexical .openComment p.line p.column)

/-- Scans chunks that come from a source that breaks off with the failure `broken`
after the last of them, if there is one.  Whichever failure comes first wins;
source that does not break off must leave nothing open. -/
def feedFrom (sc : Scanner) (source : List Bytes) (broken : Option Failure) :
    Scanner × Option Failure :=
  match sc.chunks source with
  | (sc', some e) => (sc', some e)
  | (sc', none) => (sc', broken.or sc'.unclosed)

def feed (sc : Scanner) (source : List Bytes) : Scanner × Option Failure :=
  sc.feedFrom source none

end Scanner
end Cartridge.Lua
