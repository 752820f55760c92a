import Cartridge.Cart.Basic
import Cartridge.Packed.CodeRegion
import Cartridge.Picture

/-!
# Carts as memory images

A cart's memory is hidden in a picture of 160 by 205 pixels: sprites, tiles, flags, songs, sounds,
the code region, and one byte for the version.
-/

namespace Cartridge.Cart

open Lua

def imageWidth : Nat := 160

def imageHeight : Nat := 205

def imageSize : Nat := imageWidth * imageHeight

def fitImage (b : Array UInt8) : Array UInt8 :=
  b.extract 0 imageSize ++ Array.replicate (imageSize - b.size) 0

def ofImage (image : Array UInt8) : Except Failure Cart := do
  let version : Int := (image.getD 0x8000 0).toNat
  let u ← CodeRegion.read version (image.extract 0x4300 0x8000).toList
  let program ← Program.ofLines version [u.text]
  return {
    version := version
    packedSize := u.packedSize
    program := program
    sprites := image.extract 0 0x2000
    flags := image.extract 0x3000 0x3100
    tiles := image.extract 0x2000 0x3000
    sounds := image.extract 0x3200 0x4300
    songs := image.extract 0x3100 0x3200
    label := none }

def image (c : Cart) (w : Writer) : Except Failure (Array UInt8) := do
  let out := c.program.write w
  match out.failure with
  | some e => .error e
  | none =>
    let code ← CodeRegion.ofText out.lines.flatten
    match Region.byte? c.version with
    | none => .error .unfitValue
    | some v => return c.sprites ++ c.tiles ++ c.flags ++ c.songs ++ c.sounds ++ code.toArray ++ #[v]

def crossSheet : Region :=
  [(129, 0x07), (130, 0x70), (193, 0x70), (194, 0x07), (257, 0x70), (258, 0x07), (321, 0x07),
    (322, 0x70)].foldl (fun r (i, b) => r.setIfInBounds i b) SpriteSheet.blank

/-- What the picture that is used for carts without one of their own holds: an empty program of
version 8. -/
def standardLabel : Array UInt8 :=
  fitImage (crossSheet ++ TileMap.blank ++ SpriteFlags.blank ++ Songs.blank ++ Sounds.blank ++
    Array.replicate CodeRegion.size 0 ++ #[8])

def imageOn (c : Cart) (label : Array UInt8) (w : Writer) : Except Failure (Array UInt8) := do
  return Picture.overlay (← c.image w) label

end Cartridge.Cart
