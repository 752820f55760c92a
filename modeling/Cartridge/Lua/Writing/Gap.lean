import Cartridge.Text.Bytes

/-!
# Laying out gaps

A gap is the text of the spaces, newlines and comments between two words.  When a
program is minified, comments go and runs of blanks shrink; when it is formatted,
lines are indented and blank lines and trailing blanks removed.
-/

namespace Cartridge.Lua.Gap

def space : UInt8 := 32

def carriageReturn : UInt8 := 13

def untab (s : Bytes) : Bytes := s.map fun c => if c = 9 then space else c

/-- Without the spaces that follow a newline, given whether one comes before. -/
def dropLeadingFrom (afterNewline : Bool) : Bytes → Bytes
  | [] => []
  | c :: s =>
      if c = space && afterNewline then dropLeadingFrom true s
      else c :: dropLeadingFrom (c = Bytes.newline) s

def dropLeading (s : Bytes) : Bytes := dropLeadingFrom false s

def dropTrailing : Bytes → Bytes
  | [] => []
  | c :: s =>
      if c = space && (s.dropWhile (· == space)).head? = some Bytes.newline then dropTrailing s
      else c :: dropTrailing s

def capFrom (c : UInt8) (most : Nat) (before : Nat) : Bytes → Bytes
  | [] => []
  | d :: s =>
      if d = c then
        if before < most then d :: capFrom c most (before + 1) s else capFrom c most before s
      else d :: capFrom c most 0 s

def cap (c : UInt8) (most : Nat) (s : Bytes) : Bytes := capFrom c most 0 s

/-- A gap reduced to what separates its words; its comments have been left out. -/
def minified (s : Bytes) : Bytes :=
  cap Bytes.newline 1 (cap space 1 (dropTrailing (dropLeading (untab s))))

def joinReturnFirst : Bytes → Bytes
  | 13 :: 10 :: s => 10 :: joinReturnFirst s
  | c :: s => c :: joinReturnFirst s
  | [] => []

def joinReturnLast : Bytes → Bytes
  | 10 :: 13 :: s => 10 :: joinReturnLast s
  | c :: s => c :: joinReturnLast s
  | [] => []

def regularNewlines (s : Bytes) : Bytes :=
  (joinReturnLast (joinReturnFirst s)).map fun c => if c = carriageReturn then Bytes.newline else c

def startsComment (s : Bytes) : Bool :=
  match s.dropWhile (· == space) with
  | 45 :: 45 :: _ => true
  | _ => false

def placeFirstComment (lead s : Bytes) : Bytes :=
  if startsComment s then lead ++ s.dropWhile (· == space) else s

/-- The spaces between a newline and a comment replaced by the indent, given
whether spaces are being dropped. -/
def placeCommentsFrom (indent : Bytes) (dropping : Bool) : Bytes → Bytes
  | [] => []
  | c :: s =>
      if c = space && dropping then placeCommentsFrom indent true s
      else if c = Bytes.newline && startsComment s then
        (c :: indent) ++ placeCommentsFrom indent true s
      else c :: placeCommentsFrom indent false s

def placeComments (indent s : Bytes) : Bytes := placeCommentsFrom indent false s

/-- The spaces after the last newline replaced by the indent, and also those after
the one before it if nothing else stands between the two. -/
def placeEnd (indent : Bytes) : Bytes → Bytes
  | [] => []
  | c :: s =>
      if c = Bytes.newline then
        match s.dropWhile (· == space) with
        | [] => c :: indent
        | [10] => (c :: indent) ++ (Bytes.newline :: indent)
        | _ => c :: placeEnd indent s
      else c :: placeEnd indent s

def clearBlank (s : Bytes) : Bytes :=
  match s.dropWhile (· == space) with
  | [] => []
  | [10] => [10]
  | _ => s

def trimEnd (s : Bytes) : Bytes :=
  let kept := (s.reverse.dropWhile fun c => c == space || c == Bytes.newline).reverse
  if kept.length = s.length then s else kept ++ [Bytes.newline]

/-- A gap with regular line ends and indents.  A comment that shares its line with
the word before stands two spaces from it; at the start of the program nothing
comes before, and at its end one newline remains. -/
def formatted (indent : Bytes) (atStart atEnd : Bool) (s : Bytes) : Bytes :=
  let s := dropTrailing (regularNewlines (untab s))
  let s := if atStart then s else placeFirstComment [space, space] s
  let s := placeComments indent s
  let s := if atStart then placeFirstComment [] s else s
  let s := placeEnd indent s
  let s := if atStart then clearBlank s else s
  let s := cap Bytes.newline 2 s
  if atEnd then trimEnd s else s

end Cartridge.Lua.Gap
