import Cartridge.Packed.Block
import Cartridge.Packed.Operation

/-!
# Packing text

Text is packed from the front: a block of three bytes or more that can be copied is copied, and a
byte is added otherwise. A text that speaks of the sixty-frame update gets a line at its end first,
so that players that do not know of it still run it.
-/

namespace Cartridge.Packed

/-- The operations that make what is left of the text from `pos` on, at most as many as the first
argument says. -/
def planFrom (text : Array UInt8) : Nat → Nat → List Op
  | 0, _ => []
  | n + 1, pos =>
    if h : pos < text.size then
      let b := longestBlock text pos
      if 3 ≤ b.length then .copy b.offset.toNat b.length :: planFrom text n (pos + b.length)
      else Op.ofByte text[pos] :: planFrom text n (pos + 1)
    else []

def plan (text : Bytes) : List Op :=
  let text := text.toArray
  planFrom text text.size 0

def smoothUpdate : Bytes := Bytes.ofText "_update60"

/-- The line that runs the sixty-frame update twice, as players first knew it. -/
def earlyFallback : Bytes :=
  Bytes.ofText "if(_update60)_update=function()_update60()_update60()end"

/-- The line that runs the sixty-frame update twice and reads the buttons in between. -/
def fallback : Bytes :=
  Bytes.ofText "if(_update60)_update=function()_update60()_update_buttons()_update60()end"

/-- The most bytes that a player has room for. -/
def playerRoom : Nat := 0x10001

/-- The text with the line for the sixty-frame update at its end, if the text speaks of it and there
is room. -/
def withFallback (text : Bytes) : Bytes :=
  if Bytes.holds smoothUpdate text && text.length < playerRoom - (fallback.length + 1) then
    match text.getLast? with
    | some 32 | some 10 => text ++ fallback
    | _ => text ++ [Bytes.newline] ++ fallback
  else text

def pack (text : Bytes) : Bytes := (plan (withFallback text)).flatMap Op.encode

end Cartridge.Packed
