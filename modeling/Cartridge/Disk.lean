import Cartridge.Failure
import Cartridge.Text.Path

/-!
# Files

A disk holds files by the components of their paths, seen from the working directory; the first
component of an absolute path is empty. A directory is there if there is a file in it, or if it is
named as one. What lies above the working directory is reached by absolute paths only.
-/

namespace Cartridge

inductive Content where
  | bytes (b : Bytes)
  | picture (image : Array UInt8)
deriving DecidableEq, Repr, Inhabited

/-- The bytes of a file. Those of a picture are not looked at. -/
def Content.data : Content → Bytes
  | bytes b => b
  | picture _ => []

structure Disk where
  files : List (List (List Char) × Content) := []
  /-- Directories that are there whether there is a file in them or not. -/
  folders : List (List (List Char)) := []
deriving DecidableEq, Repr, Inhabited

namespace Disk

def file? (d : Disk) (p : List (List Char)) : Option Content :=
  (d.files.find? fun f => f.1 == p).map (·.2)

def isDirectory (d : Disk) (p : List (List Char)) : Bool :=
  p.isEmpty || d.folders.contains p ||
    d.files.any fun f => p.isPrefixOf f.1 && p.length < f.1.length

def walk (d : Disk) (here : List (List Char)) :
    List (List Char) → Except Failure (List (List Char))
  | [] => .ok here
  | c :: rest =>
    if d.isDirectory here then
      if c = [] ∨ c = ['.'] then d.walk here rest
      else if c = ['.', '.'] then
        if here = [] then .error .noSuchFile
        else d.walk (if here = [[]] then here else here.dropLast) rest
      else d.walk (here ++ [c]) rest
    else if (d.file? here).isSome then .error .notADirectory
    else .error .noSuchFile

def resolve (d : Disk) (path : List Char) : Except Failure (List (List Char)) :=
  match path with
  | [] => .error .noSuchFile
  | '/' :: rest => d.walk [[]] (Path.components rest)
  | _ => d.walk [] (Path.components path)

def read (d : Disk) (path : List Char) : Except Failure Content := do
  let p ← d.resolve path
  match d.file? p with
  | some c => return c
  | none => .error (if d.isDirectory p then .aDirectory else .noSuchFile)

def isFile (d : Disk) (path : List Char) : Bool :=
  match d.resolve path with
  | .ok p => (d.file? p).isSome
  | .error _ => false

def isThere (d : Disk) (path : List Char) : Bool :=
  match d.resolve path with
  | .ok p => (d.file? p).isSome || d.isDirectory p
  | .error _ => false

def put (p : List (List Char)) (c : Content) :
    List (List (List Char) × Content) → List (List (List Char) × Content)
  | [] => [(p, c)]
  | f :: rest => if f.1 = p then (p, c) :: rest else f :: put p c rest

/-- Writes a file. Its directory has to be there. -/
def write (d : Disk) (path : List Char) (c : Content) : Except Failure Disk := do
  let p ← d.resolve path
  if d.isDirectory p then .error .aDirectory
  else return { d with files := put p c d.files }

end Disk

end Cartridge
