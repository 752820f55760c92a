import Cartridge.Lua.Program
import Cartridge.Memory.Songs
import Cartridge.Memory.Sounds
import Cartridge.Memory.SpriteFlags
import Cartridge.Memory.TileMap
import Cartridge.Packed.Encode

/-!
# Carts

A cart is a program with its pictures and sounds.
-/

namespace Cartridge

open Lua

structure Cart where
  version : Int
  /-- How many bytes the program took in the memory the cart was read from, if it was packed. -/
  packedSize : Option Nat := none
  program : Program
  sprites : Region
  flags : Region
  tiles : Region
  sounds : Region
  songs : Region
  label : Option Region
deriving Repr, Inhabited

namespace Cart

def emptyProgram (version : Int) : Program := (Program.update { version := version } []).1

def blank (version : Int) : Cart where
  version := version
  program := emptyProgram version
  sprites := SpriteSheet.blank
  flags := SpriteFlags.blank
  tiles := TileMap.blank
  sounds := Sounds.blank
  songs := Songs.blank
  label := some SpriteSheet.blank

/-- The version of a cart that is made from nothing. -/
def standardVersion : Int := 8

def tileMap (c : Cart) : TileMap := ⟨c.tiles, some c.sprites⟩

def setTileMap (c : Cart) (m : TileMap) : Cart :=
  { c with tiles := m.upper, sprites := m.sheet.getD c.sprites }

/-- How many bytes the program takes packed: as it was read, or as it would be written. -/
def codeSize (c : Cart) : Nat :=
  match c.packedSize with
  | some n => n
  | none => (Packed.pack c.program.source).length

end Cart

end Cartridge
