import Cartridge.Command.Session

/-!
# Commands that write carts anew
-/

namespace Cartridge.Command

open Lua

/-- The name of the file that is written for a cart: a new one, unless a cart text may be
overwritten. -/
def outputName (overwrite : Bool) (file : String) : String :=
  if overwrite && endsWith file textEnding then file
  else if endsWith file pictureEnding then withoutEnding file pictureEnding ++ "_fmt.p8.png"
  else withoutEnding file textEnding ++ "_fmt.p8"

def processCarts (w : Writer) (overwrite : Bool) (files : List String) : Action Int := go 0 files
where
  go (answer : Int) : List String → Action Int
    | [] => pure answer
    | file :: rest => do
      if isCartName file then
        match ← tryLoad file with
        | none => go 1 rest
        | some c =>
          let output := outputName overwrite file
          say (file ++ " -> " ++ output ++ "\n")
          saveCart output c w
          go answer rest
      else
        warn (file ++ ": filename must end in .p8 or .p8.png\n")
        go answer rest

end Cartridge.Command
