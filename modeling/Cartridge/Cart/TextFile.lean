import Cartridge.Cart.Basic

/-!
# Carts as text files

The text of a cart is a title line, a line with the version, and sections. A section starts with a
line that holds its name between double underscores. The sections are the program and, in digits,
the regions of memory.
-/

namespace Cartridge

open Lua

structure TextFile where
  version : Int
  sections : List (Bytes × List Bytes)
deriving DecidableEq, Repr, Inhabited

namespace TextFile

def titleLine : Bytes := Bytes.ofText "pico-8 cartridge // http://www.pico-8.com\n"

def after? (start s : Bytes) : Option Bytes :=
  if start.isPrefixOf s then some (s.drop start.length) else none

def version? (l : Bytes) : Option Int := do
  let rest ← after? (Bytes.ofText "version ") l
  let digits := rest.takeWhile Bytes.isDigit
  if digits ≠ [] ∧ rest.dropWhile Bytes.isDigit = [Bytes.newline] then
    some (digits.foldl (fun n c => n * 10 + (c.toNat - 48)) 0 : Nat)
  else none

def delimiterEnd : Bytes := Bytes.ofText "__\n"

def sectionName? (l : Bytes) : Option Bytes := do
  let rest ← after? (Bytes.ofText "__") l
  if delimiterEnd.isSuffixOf rest then
    let name := rest.take (rest.length - delimiterEnd.length)
    if name ≠ [] ∧ name.all Bytes.isWord then some name else none
  else none

def blocks : List Bytes → List Bytes × List (Bytes × List Bytes)
  | [] => ([], [])
  | l :: rest =>
    let (own, later) := blocks rest
    match sectionName? l with
    | some name => ([], (name, own) :: later)
    | none => (l :: own, later)

/-- Adds a section. One that is there already keeps its place and gets other lines. -/
def insert (name : Bytes) (lines : List Bytes) :
    List (Bytes × List Bytes) → List (Bytes × List Bytes)
  | [] => [(name, lines)]
  | s :: rest => if s.1 = name then (name, lines) :: rest else s :: insert name lines rest

/-- The sections of a text. A section that comes again counts as it comes last, at its first place.
Lines before the first section are left out. -/
def ofBytes (b : Bytes) : Except Failure TextFile :=
  match Bytes.lines b with
  | title :: second :: rest =>
    if title = titleLine then
      match version? second with
      | some v => .ok ⟨v, (blocks rest).2.foldl (fun s (name, ls) => insert name ls s) []⟩
      | none => .error .badHeader
    else .error .badHeader
  | _ => .error .badHeader

end TextFile

namespace Cart

inductive Part where
  | program
  | sprites
  | label
  | flags
  | tiles
  | sounds
  | songs
deriving DecidableEq, Repr, Inhabited

namespace Part

def name : Part → Bytes
  | program => Bytes.ofText "lua"
  | sprites => Bytes.ofText "gfx"
  | label => Bytes.ofText "label"
  | flags => Bytes.ofText "gff"
  | tiles => Bytes.ofText "map"
  | sounds => Bytes.ofText "sfx"
  | songs => Bytes.ofText "music"

def all : List Part := [program, sprites, label, flags, tiles, sounds, songs]

def ofName? (b : Bytes) : Option Part := all.find? fun p => p.name == b

end Part

def readPart (c : Cart) (lines : List Bytes) : Part → Except Failure Cart
  | .program => do return { c with program := ← Program.ofLines c.version lines }
  | .sprites => do return { c with sprites := ← SpriteSheet.ofLines lines }
  | .label => do return { c with label := some (← SpriteSheet.ofLines lines) }
  | .flags => do return { c with flags := ← SpriteFlags.ofLines lines }
  | .tiles => do return { c with tiles := ← TileMap.ofLines lines }
  | .sounds => do return { c with sounds := ← Sounds.ofLines lines }
  | .songs => do return { c with songs := ← Songs.ofLines lines }

def readSection (c : Cart) (name : Bytes) (lines : List Bytes) : Except Failure Cart :=
  match Part.ofName? name with
  | some p => c.readPart lines p
  | none => .error (.badSection name)

def readSections (c : Cart) : List (Bytes × List Bytes) → Except Failure Cart
  | [] => .ok c
  | (name, lines) :: rest => do readSections (← c.readSection name lines) rest

def ofTextFile (b : Bytes) : Except Failure Cart := do
  let f ← TextFile.ofBytes b
  readSections { blank standardVersion with version := f.version, label := none } f.sections

/-- A text as it comes out, with what there is to say about it. -/
structure Written where
  pieces : List Bytes
  warnings : String := ""
  failure : Option Failure := none
deriving DecidableEq, Repr, Inhabited

def Written.text (w : Written) : Bytes := w.pieces.flatten

def Written.append (a : Written) (b : Written) : Written :=
  match a.failure with
  | some _ => a
  | none => { pieces := a.pieces ++ b.pieces, warnings := a.warnings ++ b.warnings,
              failure := b.failure }

/-- The most characters that a player takes. -/
def charLimit : Nat := 32768

def tokenLimit : Nat := 8192

def limitWarning (file : Option String) (what : String) (count limit : Nat) : String :=
  if limit < count then
    ((file.map (· ++ ": ")).getD "") ++ "warning: " ++ what ++ " count " ++ toString count ++
      " exceeds the Pico-8 limit of " ++ toString limit ++ "\n"
  else ""

def delimiter (p : Part) : Bytes := Bytes.ofText "__" ++ p.name ++ TextFile.delimiterEnd

def written (lines : List Bytes) : Written := { pieces := lines }

def sectionText (p : Part) (body : List Bytes × Option Failure) : Written :=
  { pieces := delimiter p :: body.1, failure := body.2 }

/-- The program's section. A line break is added at its end if there is none. -/
def codeText (lines : List Bytes) : Written :=
  let closed := match lines.getLast? with
    | some l => l.getLast? == some Bytes.newline
    | none => false
  written (delimiter .program :: lines ++ if closed then [] else [[Bytes.newline]])

def bodyText (c : Cart) (lines : List Bytes) : Written :=
  [ codeText lines,
    sectionText .sprites (SpriteSheet.lines c.sprites, none),
    (match c.label with
      | some l => sectionText .label (SpriteSheet.lines l, none)
      | none => written []),
    written [[Bytes.newline]],
    sectionText .flags (SpriteFlags.lines c.flags, none),
    sectionText .tiles (TileMap.lines c.tiles, none),
    sectionText .sounds (Sounds.lines c.sounds),
    sectionText .songs (Songs.lines c.songs),
    written [[Bytes.newline]] ].foldl Written.append (written [])

/-- The text of a cart, with its program written by a writer. What the writer gives has to be a
program again; there are warnings if it is too long for a player. -/
def writeText (c : Cart) (w : Writer) (file : Option String) : Written :=
  let header := written [TextFile.titleLine, Bytes.ofText "version 8\n"]
  let out := c.program.write w
  match Program.ofSource c.version out.lines out.failure with
  | .error e => { header with failure := some e }
  | .ok p =>
    { header with
      warnings := limitWarning file "character" p.charCount charLimit ++
        limitWarning file "token" p.tokenCount tokenLimit }.append (c.bodyText out.lines)

end Cart

end Cartridge
