import Cartridge.Command.Arguments
import Cartridge.Command.Session
import Cartridge.Linking.Package

/-!
# Building a cart out of parts of others
-/

namespace Cartridge.Command

open Lua

/-- A part of a cart that can be taken from somewhere else. -/
inductive BuildPart where
  | program
  | sprites
  | flags
  | tiles
  | sounds
  | songs
deriving DecidableEq, Repr, Inhabited

namespace BuildPart

def all : List BuildPart := [program, sprites, flags, tiles, sounds, songs]

def name : BuildPart → String
  | program => "lua"
  | sprites => "gfx"
  | flags => "gff"
  | tiles => "map"
  | sounds => "sfx"
  | songs => "music"

def take (p : BuildPart) (source c : Cart) : Cart :=
  match p with
  | program => { c with program := source.program }
  | sprites => { c with sprites := source.sprites }
  | flags => { c with flags := source.flags }
  | tiles => { c with tiles := source.tiles }
  | sounds => { c with sounds := source.sounds }
  | songs => { c with songs := source.songs }

end BuildPart

structure BuildOptions where
  output : String
  source : BuildPart → Option String := fun _ => none
  empty : BuildPart → Bool := fun _ => false
  loadPath : Option String := none
  optimize : Bool := false
  format : Bool := false
  minify : Bool := false

def programEnding : String := ".lua"

def linkedProgram (o : BuildOptions) (file : String) : Action Program := do
  let source := (← readFile file).data
  let p ← lift (Program.ofLines Cart.standardVersion (Bytes.lines source))
  let s ← get
  let path : Linking.LoadPath := { asked := o.loadPath, environment := s.loadPath }
  let packages ← lift (Linking.packages s.disk path p file.toList)
  if o.optimize then throw .unsupported
  lift (Linking.prepend p packages)

/-- The cart with a part taken from a file, or the reason why it cannot be taken. -/
def takeFrom (o : BuildOptions) (p : BuildPart) (file : String) (c : Cart) :
    Action (Except String Cart) := do
  if o.empty p then
    return .error ("Cannot specify --" ++ p.name ++ " and --empty-" ++ p.name ++ " args together.")
  if !(← get).disk.isThere file.toList then
    return .error ("File \"" ++ file ++ "\" given for --" ++ p.name ++ " arg does not exist.")
  let isProgram := p = .program && endsWith file programEnding
  if !isCartName file && !isProgram then
    return .error ("Unsupported file type for --" ++ p.name ++ " arg.")
  if isProgram then return .ok { c with program := ← linkedProgram o file }
  else return .ok (p.take (← loadCart file) c)

def takeParts (o : BuildOptions) : List BuildPart → Cart → Action (Except String Cart)
  | [], c => pure (.ok c)
  | p :: rest, c => do
    match o.source p with
    | some file =>
      match ← takeFrom o p file c with
      | .ok c => takeParts o rest c
      | .error text => pure (.error text)
    | none => takeParts o rest (if o.empty p then p.take (Cart.blank Cart.standardVersion) c else c)

/-- The writer for the program of the cart that is built. There is no width to lay it out with. -/
def BuildOptions.writer (o : BuildOptions) : Except Failure Writer :=
  if o.format then .error .missingPart
  else if o.minify then .ok .minifyTokens
  else .ok .echo

/-- Builds a cart. Parts that are not taken from somewhere else stay as they are in the output
file, if there is one. -/
def build (o : BuildOptions) : Action Int := do
  if !isCartName o.output then
    warn "Output filename must end with .p8 or .p8.png."
    return 1
  let c ← if (← get).disk.isThere o.output.toList then loadCart o.output
    else pure (Cart.blank Cart.standardVersion)
  match ← takeParts o BuildPart.all c with
  | .error text =>
    warn text
    return 1
  | .ok c =>
    saveCart o.output c (← lift o.writer)
    return 0

end Cartridge.Command
