import Cartridge.Memory.Region

/-!
# The sprite sheet

A picture of 128 by 128 pixels in 16 colours, two pixels to a byte, the left one in the low half.
It is cut into 16 by 16 tiles of 8 by 8 pixels, numbered row by row. As text, a line is a row of
pixels, one digit each from left to right.
-/

namespace Cartridge.SpriteSheet

def blank : Region := Array.replicate 8192 0

def pixelDigits (b : UInt8) : Bytes := Hex.pair ((b <<< 4) ||| (b >>> 4))

def lines (sheet : Region) : List Bytes := Region.linesBy pixelDigits 64 sheet

/-- Swaps the first two of every two bytes, for the first `n` pairs, which have to be there. -/
def swapPairs : Nat → Bytes → Option Bytes
  | 0, s => some s
  | n + 1, a :: b :: s => (swapPairs n s).map fun s => b :: a :: s
  | _ + 1, _ => none

def ofLine (l : Bytes) : Except Failure Bytes :=
  match swapPairs 64 l.trimRight with
  | none => .error .outOfRange
  | some s => Region.ofHex s

/-- The sheet that lines of text give. A line that has not the length of a row of pixels is no
part of the picture. -/
def ofLines (ls : List Bytes) : Except Failure Region := do
  let rows ← (ls.filter fun l => l.length == 129).mapM ofLine
  return rows.flatten.toArray

def pixel (sheet : Region) (x y : Nat) : Except Failure UInt8 := do
  let b ← sheet.fetch (y * 64 + x / 2 : Nat)
  return if x % 2 = 0 then b &&& 0x0f else b >>> 4

/-- The colour at column `x` and row `y`, 0 to the right of the sheet and below it. -/
def pixelOrBlank (sheet : Region) (x y : Nat) : Except Failure UInt8 :=
  if 127 < x ∨ 127 < y then .ok 0 else pixel sheet x y

def sprite (sheet : Region) (id width height : Int) : Except Failure (List Bytes) := do
  demand (0 ≤ id && id ≤ 255)
  demand (1 ≤ width)
  demand (1 ≤ height)
  (List.range (8 * height.toNat)).mapM fun r =>
    (List.range (8 * width.toNat)).mapM fun c =>
      pixelOrBlank sheet (8 * (id.toNat % 16) + c) (8 * (id.toNat / 16) + r)

/-- The colour that leaves a pixel as it is. -/
def transparent : Int := 16

/-- Gives the pixel at column `x` and row `y` a colour. Nothing is drawn right of the sheet or below
it, nor with the transparent colour. -/
def paint (x y colour : Int) : Region.Edit Unit :=
  if colour = transparent ∨ 128 < y ∨ 128 < x then pure ()
  else do
    let at_ := y * 64 + x / 2
    let b ← Region.read at_
    if x % 2 = 0 then Region.store at_ ((b &&& 0xf0).toNat + colour)
    else Region.store at_ ((b &&& 0x0f).toNat + colour * 16)

def drawRow (x y : Int) : List Int → Region.Edit Unit
  | [] => pure ()
  | c :: rest => do
    paint x y c
    drawRow (x + 1) y rest

def drawRows (x y : Int) : List (List Int) → Region.Edit Unit
  | [] => pure ()
  | row :: rest => do
    drawRow x y row
    drawRows x (y + 1) rest

/-- Draws rows of colours with the upper left corner `dx` pixels right of that of a tile and `dy`
below it. -/
def draw (id : Int) (rows : List (List Int)) (dx dy : Int) : Region.Edit Unit :=
  drawRows (id % 16 * 8 + dx) (id / 16 * 8 + dy) rows

end Cartridge.SpriteSheet
