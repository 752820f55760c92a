import Cartridge.Sample

/-!
# Trials on the sample carts

A trial reads or writes the sample carts some rounds over and tells the sizes that it sees.
-/

namespace Cartridge.Trial

open Lua

/-- One round's sizes, as often as there are rounds. Rounds do not depend on each other. -/
def rounds (count : Nat) (round : Except Failure (List Int)) : Except Failure (List Int) :=
  return (List.replicate count (← round)).flatten

/-- The size of a cart's text after it is read and written, and that of its program packed. -/
def textSizes (file : Bytes) : Except Failure (List Int) := do
  let c ← Cart.ofTextFile file
  let w := c.writeText .echo none
  match w.failure with
  | some e => .error e
  | none => return [w.text.length, c.codeSize]

def textRounds (count : Nat) : Except Failure (List Int) := rounds count (textSizes Sample.lifeText)

/-- The version of the cart in a picture, how many lines its program has, and its packed size. -/
def imageSizes (image : Array UInt8) : Except Failure (List Int) := do
  let c ← Cart.ofImage image
  return [c.version, (c.program.write .echo).lines.length, c.codeSize]

/-- Both carts, read from their pictures; then the height of the picture that they are written on. -/
def imageRounds (count : Nat) : Except Failure (List Int) :=
  rounds count do
    return (← imageSizes Sample.greetingImage) ++ (← imageSizes Sample.lifeImage) ++
      [(Cart.imageHeight : Int)]

end Cartridge.Trial
