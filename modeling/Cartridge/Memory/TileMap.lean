import Cartridge.Memory.SpriteSheet

/-!
# The tile map

A map of 128 columns and 64 rows of tiles. The upper 32 rows have a region of their own; the lower
32 rows share the second half of the sprite sheet, so a map without a sprite sheet has only the
upper ones.
-/

namespace Cartridge

/-- A map, with the sprite sheet that holds its lower half. -/
structure TileMap where
  upper : Region
  sheet : Option Region
deriving DecidableEq, Repr, Inhabited

namespace TileMap

def blank : Region := Array.replicate 4096 0

def lines (upper : Region) : List Bytes := upper.hexLines 128

def ofLines (ls : List Bytes) : Except Failure Region := Region.ofHexLines ls

def hasCell (m : TileMap) (x y : Int) : Bool :=
  0 ≤ x && x ≤ 127 && 0 ≤ y && (y ≤ 31 || (y ≤ 63 && m.sheet.isSome))

/-- Where the cells of the lower half start in the sprite sheet, less the 32 rows above them. -/
def sheetPosition (x y : Int) : Int := 4096 + (y - 32) * 128 + x

def cell (m : TileMap) (x y : Int) : Except Failure UInt8 := do
  demand (m.hasCell x y)
  if y ≤ 31 then m.upper.fetch (y * 128 + x)
  else (m.sheet.getD #[]).fetch (sheetPosition x y)

abbrev Edit := EStateM Failure TileMap

def onUpper (e : Region.Edit Unit) : Edit Unit := fun m =>
  match e.run m.upper with
  | .ok _ r => .ok () { m with upper := r }
  | .error f r => .error f { m with upper := r }

def onSheet (e : Region.Edit Unit) : Edit Unit := fun m =>
  match m.sheet with
  | none => .ok () m
  | some s =>
    match e.run s with
    | .ok _ r => .ok () { m with sheet := some r }
    | .error f r => .error f { m with sheet := some r }

def setCell (x y tile : Int) : Edit Unit := do
  demand ((← get).hasCell x y)
  demand (0 ≤ tile && tile ≤ 255)
  if y ≤ 31 then onUpper (Region.store (y * 128 + x) tile)
  else onSheet (Region.store (sheetPosition x y) tile)

def cellOrBlank (m : TileMap) (x y : Int) : Except Failure UInt8 :=
  if 127 < x ∨ 63 < y then .ok 0 else m.cell x y

def tiles (m : TileMap) (x y width height : Int) : Except Failure (List Bytes) := do
  demand (0 ≤ x && x ≤ 127)
  demand (1 ≤ width)
  demand (1 ≤ height)
  demand (0 ≤ y + height && (y + height ≤ 32 || (y + height ≤ 64 && m.sheet.isSome)))
  (List.range height.toNat).mapM fun (r : Nat) =>
    (List.range width.toNat).mapM fun (c : Nat) => m.cellOrBlank (x + c) (y + r)

/-- Puts a row of tiles on the map from a cell to the right. Tiles right of column 127 are left
out, and so are rows below row 127. -/
def setRow (x y : Int) : List Int → Edit Unit
  | [] => pure ()
  | t :: rest => do
    if 127 < y ∨ 127 < x then pure () else setCell x y t
    setRow (x + 1) y rest

def setTiles (x y : Int) : List (List Int) → Edit Unit
  | [] => pure ()
  | row :: rest => do
    setRow x y row
    setTiles x (y + 1) rest

end TileMap

end Cartridge
