import Cartridge.Cart.Image
import Cartridge.Cart.TextFile
import Cartridge.Disk

/-!
# Sessions

A session is one run of a command: the files, and what was written to the console. A command may
fail; what it did before stays done.
-/

namespace Cartridge.Command

open Lua

inductive Verbosity where
  | quiet
  | normal
  | debug
deriving DecidableEq, Repr, Inhabited

structure Session where
  disk : Disk := {}
  loadPath : Option String := none
  /-- Whether the run is stopped from the keyboard when a cart is loaded. -/
  stopped : Bool := false
  verbosity : Verbosity := .normal
  out : String := ""
  err : String := ""
deriving Repr, Inhabited

abbrev Action := EStateM Failure Session

def lift {α : Type} : Except Failure α → Action α
  | .ok a => pure a
  | .error e => throw e

def print (text : String) : Action Unit := modify fun s => { s with out := s.out ++ text }

def say (text : String) : Action Unit := do
  if (← get).verbosity = .quiet then pure () else print text

def explain (text : String) : Action Unit := do
  if (← get).verbosity = .debug then print text else pure ()

def warn (text : String) : Action Unit := modify fun s => { s with err := s.err ++ text }

def endsWith (file ending : String) : Bool := ending.toList.isSuffixOf file.toList

def withoutEnding (file ending : String) : String :=
  String.ofList (file.toList.take (file.toList.length - ending.toList.length))

def textEnding : String := ".p8"

def pictureEnding : String := ".p8.png"

def isCartName (file : String) : Bool := endsWith file pictureEnding || endsWith file textEnding

def readFile (file : String) : Action Content := do lift ((← get).disk.read file.toList)

def writeFile (file : String) (c : Content) : Action Unit := do
  let d ← lift ((← get).disk.write file.toList c)
  modify fun s => { s with disk := d }

def readPicture (file : String) : Action (Array UInt8) := do
  match ← readFile file with
  | .picture image => pure image
  | .bytes _ => throw .badPicture

def loadCart (file : String) : Action Cart := do
  if (← get).stopped then throw .interrupted
  demand (isCartName file)
  if endsWith file textEnding then lift (Cart.ofTextFile (← readFile file).data)
  else lift (Cart.ofImage (← readPicture file))

def explainNames (out : Output) : Action Unit :=
  out.renamed.forM fun (old, new) =>
    explain ("- minifying name \"" ++ Bytes.quoted old ++ "\" to \"" ++ Bytes.quoted new ++ "\"\n")

def cartText (c : Cart) (w : Writer) (file : Option String) : Action Bytes := do
  let out := c.program.write w
  let text := c.writeText w file
  explainNames out
  warn text.warnings
  if 2 < text.pieces.length then explainNames out
  match text.failure with
  | some e => throw e
  | none => pure text.text

/-- The picture that a cart is put on: the one in the file that is written, or the standard one. -/
def labelFor (file : String) : Action (Array UInt8) := do
  if (← get).disk.isThere file.toList then readPicture file else pure Cart.standardLabel

def saveCart (file : String) (c : Cart) (w : Writer) : Action Unit := do
  if endsWith file ".png" then
    let label ← labelFor file
    explainNames (c.program.write w)
    writeFile file (.picture (← lift (c.imageOn label w)))
  else writeFile file (.bytes (← cartText c w none))

def tryLoad (file : String) : Action (Option Cart) := fun s =>
  match (loadCart file).run s with
  | .ok c s => .ok (some c) s
  | .error e s =>
    if e.isBadCart then (warn (file ++ ": " ++ e.message ++ "\n") *> pure none).run s else .error e s

/-- Goes through the carts of some files until one gives an answer. Files that are not carts by their
names are warned of and left out. -/
def overCarts {α : Type} (each : String → Option Cart → Action (Option α)) :
    List String → Action (Option α)
  | [] => pure none
  | file :: rest => do
    if isCartName file then
      match ← each file (← tryLoad file) with
      | some a => pure (some a)
      | none => overCarts each rest
    else
      warn (file ++ ": filename must end in .p8 or .p8.png\n")
      overCarts each rest

def shortName (file : String) : String := String.ofList (Path.baseName file.toList)

end Cartridge.Command
