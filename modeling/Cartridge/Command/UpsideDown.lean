import Cartridge.Command.Tool
import Cartridge.Flip.Cart

/-!
# The command that turns a cart upside down
-/

namespace Cartridge.Command.UpsideDown

open Lua

def usage : Usage where
  flags := [{ name := "--smallmap" }, { name := "--flipbuttons" }, { name := "--flipsounds" }]
  slots := [.one, .optional]

def options (p : Parsed) : Flip.Options where
  smallMap := p.has "--smallmap"
  buttons := p.has "--flipbuttons"
  sounds := p.has "--flipsounds"

def outputFile (input : String) : Option String → Except String String
  | some output =>
    if endsWith output textEnding then .ok output
    else .error ("Filename " ++ output ++ " must end in .p8\n")
  | none =>
    if endsWith input textEnding then .ok (withoutEnding input textEnding ++ "_upsidedown.p8")
    else if endsWith input pictureEnding then
      .ok (withoutEnding input pictureEnding ++ "_upsidedown.p8")
    else .error ("Filename " ++ input ++ " must end in .p8 or .p8.png\n")

def turned (o : Flip.Options) (c : Cart) : Except Failure Cart :=
  match (Flip.cart o).run c with
  | .ok _ c => .ok c
  | .error e _ => .error e

/-- Turns the cart in a file upside down. Its program is written from its tree and read again, and
comes out short. A file that is open for text takes no bytes. -/
def turnFile (binary : Bool) (o : Flip.Options) (input output : String) : Action Unit := do
  let c ← loadCart input
  let c ← lift (turned o c)
  let p ← lift (c.program.reread (.tree { style := .echo, plain := true }))
  if binary then
    writeFile output (.bytes (← cartText { c with program := p } .minifyTokens (some output)))
  else throw .wrongType

def run (binary : Bool) (args : List String) : Action Answer :=
  match usage.parse args with
  | .error r => pure r.answer
  | .ok p => do
    if !p.unknown.isEmpty then return Refusal.misuse.answer
    let input := (p.wordsAt 0).headD ""
    let asked := ((p.wordsAt 1).head?).filter (· ≠ "")
    match outputFile input asked with
    | .error text =>
      warn text
      return ⟨1, false⟩
    | .ok output =>
      turnFile binary (options p) input output
      return ⟨0, false⟩

end Cartridge.Command.UpsideDown
