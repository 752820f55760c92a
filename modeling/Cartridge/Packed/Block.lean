import Cartridge.Text.Bytes

/-!
# Search for bytes to copy

The bytes at a position of a text may have been there before. The search looks at all starts that a
copy can reach and takes the longest block, and of the longest ones the first.
-/

namespace Cartridge.Packed

structure Block where
  length : Nat
  offset : Int
deriving DecidableEq, Repr, Inhabited

def maxLength : Nat := 17

def maxOffset : Nat := (255 - 60) * 16

/-- How many of the `n` bytes from `i` on agree with those from `j` on, up to the first that does
not. -/
def runLength (text : Array UInt8) (i j : Nat) : Nat → Nat
  | 0 => 0
  | n + 1 => if text.getD i 0 == text.getD j 0 then runLength text (i + 1) (j + 1) n + 1 else 0

/-- The most bytes that a block from `i` on can give at `pos`: it ends before `pos`, and what it
gives ends with the text. -/
def blockRoom (text : Array UInt8) (pos i : Nat) : Nat :=
  min (min maxLength (text.size - pos)) (pos - i)

/-- The better one of the block found so far and the one that starts at `i`. -/
def better (text : Array UInt8) (pos i : Nat) (best : Block) : Block :=
  let n := runLength text i pos (blockRoom text pos i)
  if best.length < n then ⟨n, (pos - i : Nat)⟩ else best

def searchFrom (text : Array UInt8) (pos : Nat) : Nat → Nat → Block → Block
  | 0, _, best => best
  | n + 1, i, best => searchFrom text pos n (i + 1) (better text pos i best)

/-- The answer when there is nothing to copy: no bytes from far before the text. -/
def noBlock (pos : Int) : Block := ⟨0, pos + 100000⟩

/-- The longest block that can be copied at a position, the first of those that are equally long. -/
def longestBlock (text : Array UInt8) (pos : Nat) : Block :=
  let n := min maxOffset pos
  searchFrom text pos n (pos - n) (noBlock pos)

def blockAt (text : Array UInt8) (pos : Int) : Block :=
  if pos < 0 then noBlock pos else longestBlock text pos.toNat

end Cartridge.Packed
