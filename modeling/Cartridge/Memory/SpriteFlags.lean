import Cartridge.Memory.Region

/-!
# Sprite flags

Eight flags for each of the 256 tiles, one byte for a tile.
-/

namespace Cartridge.SpriteFlags

def blank : Region := Array.replicate 256 0

def lines (flags : Region) : List Bytes := flags.hexLines 128

def ofLines (ls : List Bytes) : Except Failure Region := Region.ofHexLines ls

def mask (n : Int) : UInt8 := (n % 256).toNat.toUInt8

def read (flags : Region) (id n : Int) : Except Failure UInt8 := do
  demand (0 ≤ id && id ≤ 255)
  return (← flags.fetch id) &&& mask n

def change (id : Int) (f : UInt8 → UInt8) : Region.Edit Unit := do
  demand (0 ≤ id && id ≤ 255)
  let b ← Region.read id
  Region.store id (f b).toNat

def set (id n : Int) : Region.Edit Unit := change id (· ||| mask n)

def clear (id n : Int) : Region.Edit Unit := change id (· &&& ~~~ mask n)

def reset (id n : Int) : Region.Edit Unit := change id fun _ => mask n

end Cartridge.SpriteFlags
