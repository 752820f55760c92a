import Cartridge.Linking.LoadPath
import Cartridge.Linking.Require

/-!
# Programs put together from files

The files that a program requires, and those that they require, become packages: functions in front
of the program. The game loop of a required file is left out unless it is asked for.
-/

namespace Cartridge.Linking

open Lua

def gameLoopNames : List Bytes := ["_init", "_update", "_update60", "_draw"].map Bytes.ofText

def isGameLoop : Tree → Bool
  | .node .statFunction [.node .functionName [.list (.token t :: _), _] _, _] _ =>
    gameLoopNames.contains t.data
  | _ => false

def dropStatements (drop : Tree → Bool) : Tree → Tree
  | .node .chunk [.list stats] origin => .node .chunk [.list (stats.filter fun s => !drop s)] origin
  | t => t

/-- A library without its game loop: what is left of its tree is written and read again. -/
def withoutGameLoop (p : Program) : Except Failure Program :=
  { p with root := dropStatements isGameLoop p.root }.reread
    (.tree { style := .echo, plain := false })

def libraryVersion : Int := 8

def readLibrary (source : Bytes) (gameLoop : Bool) : Except Failure Program := do
  let p ← Program.ofLines libraryVersion (Bytes.lines source)
  if gameLoop then return p else withoutGameLoop p

/-- Packages by the names they are required with, in the order they were found. -/
abbrev Packages := List (Bytes × Program)

def Packages.has (ps : Packages) (name : Bytes) : Bool := ps.any fun p => p.1 == name

def nameText (name : Bytes) : Except Failure String :=
  match String.fromUTF8? (ByteArray.mk name.toArray) with
  | some s => .ok s
  | none => .error .badEncoding

def leavesPath (name : Bytes) : Bool :=
  Bytes.holds (Bytes.ofText "./") name || name.head? == some 47

def pathOf (d : Disk) (l : LoadPath) (r : Require) (file : List Char) :
    Except Failure (List Char) := do
  let name ← nameText r.name
  match l.locate d name.toList file with
  | some path => return path
  | none =>
    .error (.linking (.notFound name (l.asked.getD "None")) r.token.place)

/-- Adds what one call asks for. `more` adds what the new package requires itself. -/
def addRequired (d : Disk) (l : LoadPath) (file : List Char)
    (more : Program → List Char → Packages → Except Failure Packages) (ps : Packages)
    (r : Require) : Except Failure Packages := do
  let _ ← nameText r.name
  if leavesPath r.name then .error (.linking .badPath r.token.place)
  else if ps.has r.name then return ps
  else
    let path ← pathOf d l r file
    let p ← readLibrary (← d.read path).data r.gameLoop
    more p path (ps ++ [(r.name, p)])

/-- Adds the packages that a program in a file requires, and those that they require, down to a
number of levels. -/
def addPackages (d : Disk) (l : LoadPath) :
    Nat → Program → List Char → Packages → Except Failure Packages
  | 0, _, _, _ => .error .exhausted
  | n + 1, p, file, ps =>
    p.root.calls.foldlM (fun ps call => do
      match ← requireOf? p.tokens call with
      | none => return ps
      | some r => addRequired d l file (addPackages d l n) ps r) ps

def namesOf (source : Bytes) (gameLoop : Bool) : List Bytes :=
  match readLibrary source gameLoop with
  | .ok p => (requires p).1.map (·.name)
  | .error _ => []

/-- The names that the files of a disk require, as libraries with or without game loop. -/
def allNames (d : Disk) : List Bytes :=
  d.files.flatMap fun f => namesOf f.2.data true ++ namesOf f.2.data false

/-- The packages of a program in a file. Every level brings a name that some file requires, so there
are no more levels than such names, and the program's own. -/
def packages (d : Disk) (l : LoadPath) (p : Program) (file : List Char) : Except Failure Packages :=
  match p.root.calls.any isRequire with
  | true => addPackages d l ((allNames d).length + 2) p file []
  | false => .ok []

def quotedName (name : Bytes) : Bytes :=
  name.flatMap fun c => if c = 34 then [92, 34] else [c]

def packageLines (name : Bytes) (p : Program) : List Bytes :=
  (Bytes.ofText "package._c[\"" ++ quotedName name ++ Bytes.ofText "\"]=function()\n") ::
    (p.write .echo).lines ++ [Bytes.ofText "end\n"]

def tableLine : Bytes := Bytes.ofText "package=\x7bloaded=\x7b\x7d,_c=\x7b\x7d\x7d\n"

/-- The lines of the function that runs a package the first time it is required. -/
def requireLines : List Bytes :=
  ["function require(p)\n", "local l=package.loaded\n", "if (l[p]==nil) l[p]=package._c[p]()\n",
    "if (l[p]==nil) l[p]=true\n", "return l[p]\n", "end\n"].map Bytes.ofText

def linkedLines (p : Program) (ps : Packages) : List Bytes :=
  tableLine :: ps.flatMap (fun (name, q) => packageLines name q) ++ requireLines ++
    (p.write .echo).lines

def prepend (p : Program) (ps : Packages) : Except Failure Program :=
  if ps.isEmpty then .ok p else Program.ofLines libraryVersion (linkedLines p ps)

end Cartridge.Linking
