/-!
# Byte strings

Cart files are not Unicode text: program source may hold any byte, and every
length and column in a message counts bytes.  A byte string is a list, so that
scanners can be written by recursion on it.
-/

namespace Cartridge

abbrev Bytes := List UInt8

namespace Bytes

/-- The bytes of a text, one for each character; a code of 256 or more keeps its
low eight bits. -/
def ofText (s : String) : Bytes := s.toList.map fun c => c.val.toUInt8

def toText (b : Bytes) : String := String.ofList (b.map fun c => Char.ofNat c.toNat)

/-! ### Kinds of byte -/

def newline : UInt8 := 10

def backslash : UInt8 := 92

def isBlank (c : UInt8) : Bool := c == 32 || (9 ≤ c && c ≤ 13)

def isDigit (c : UInt8) : Bool := 48 ≤ c && c ≤ 57

def isLetter (c : UInt8) : Bool := (97 ≤ c && c ≤ 122) || (65 ≤ c && c ≤ 90)

def isNameStart (c : UInt8) : Bool := isLetter c || c == 95

def isWord (c : UInt8) : Bool := isNameStart c || isDigit c

def lowerByte (c : UInt8) : UInt8 := if 65 ≤ c && c ≤ 90 then c + 32 else c

def lower (b : Bytes) : Bytes := b.map lowerByte

/-! ### Trimming -/

def trimRight (b : Bytes) : Bytes := (b.reverse.dropWhile isBlank).reverse

def trim (b : Bytes) : Bytes := trimRight (b.dropWhile isBlank)

def trimByte (c : UInt8) (b : Bytes) : Bytes :=
  ((b.dropWhile (· == c)).reverse.dropWhile (· == c)).reverse

/-! ### Cutting -/

/-- The lines of a byte string, with `current` the reversed start of the first
one. -/
def linesFrom (current : Bytes) : Bytes → List Bytes
  | [] => if current.isEmpty then [] else [current.reverse]
  | c :: rest =>
      if c = newline then (c :: current).reverse :: linesFrom [] rest
      else linesFrom (c :: current) rest

/-- The lines of a byte string.  Each keeps its newline; only the last may lack
one. -/
def lines (b : Bytes) : List Bytes := linesFrom [] b

/-- The pieces between the separators, with `current` the reversed start of the
first one. -/
def splitFrom (sep : UInt8) (current : Bytes) : Bytes → List Bytes
  | [] => [current.reverse]
  | c :: rest =>
      if c = sep then current.reverse :: splitFrom sep [] rest
      else splitFrom sep (c :: current) rest

def split (sep : UInt8) (b : Bytes) : List Bytes := splitFrom sep [] b

/-- The first occurrence of `needle`, with `before` the reversed bytes already
passed. -/
def cutFrom (needle : Bytes) (before : Bytes) : Bytes → Option (Bytes × Bytes)
  | [] => if needle.isEmpty then some (before.reverse, []) else none
  | c :: rest =>
      if needle.isPrefixOf (c :: rest) then
        some (before.reverse, (c :: rest).drop needle.length)
      else cutFrom needle (c :: before) rest

/-- What stands before and after the first occurrence of `needle`, if it occurs. -/
def cut (needle b : Bytes) : Option (Bytes × Bytes) := cutFrom needle [] b

def holds (needle b : Bytes) : Bool := (cut needle b).isSome

def slice (b : Bytes) (start stop : Nat) : Bytes := (b.take stop).drop start

end Bytes
end Cartridge
