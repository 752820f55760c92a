import Cartridge.Packed.Decode

/-!
# The code region

The part of cart memory that holds the program's text. The text stands there packed, behind a mark,
or as it is, up to the first zero.
-/

namespace Cartridge.CodeRegion

open Packed

def size : Nat := 0x8000 - 0x4300

def mark : Bytes := [58, 99, 58, 0]

/-- The text in the region. Memory of version 0 holds no packed text. A carriage return reads as a
space. -/
def read (version : Int) (region : Bytes) : Except Failure Unpacked := do
  let u ←
    if version = 0 ∨ region.take 4 ≠ mark then
      let length := if region.contains 0 then (region.takeWhile (· != 0)).length else size
      pure { length := length, text := region.take length ++ [Bytes.newline], packedSize := none }
    else unpack region
  return { u with text := u.text.map fun c => if c = 13 then 32 else c }

def packed (text ops : Bytes) : Bytes :=
  mark ++ [(text.length / 256).toUInt8, text.length.toUInt8, 0, 0] ++ ops

def pad (b : Bytes) : Bytes := b ++ List.replicate (size - b.length) 0

/-- The region that holds a text. The text has to get shorter when it is packed, and its length has
to fit in two bytes. -/
def ofText (text : Bytes) : Except Failure Bytes :=
  let ops := pack text
  if text.length ≤ ops.length then .error .wrongType
  else if 65536 ≤ text.length then .error .unfitValue
  else .ok (pad (packed text ops))

end Cartridge.CodeRegion
