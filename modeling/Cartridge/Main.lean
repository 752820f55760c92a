import Cartridge.Command.UpsideDown

/-!
# The command line

Reads the files that the arguments name, carries out the command, and writes what it changed. A
picture is kept in its file as the bytes hidden in it.
-/

namespace Cartridge.Command

def contentOfBytes (file : String) (data : ByteArray) : Content :=
  if endsWith file ".png" && data.size == Cart.imageSize then .picture data.data
  else .bytes data.toList

def bytesOfContent : Content → ByteArray
  | .bytes b => ByteArray.mk b.toArray
  | .picture image => ByteArray.mk image

/-- What arguments may name: themselves, and the values behind equals signs. -/
def namedPaths (args : List String) : List String :=
  args.flatMap fun a => a :: (cutValue a).2.toList

def requiredPaths (path : Linking.LoadPath) (file : String) (source : Bytes) : List String :=
  match Lua.Program.ofLines Cart.standardVersion (Bytes.lines source) with
  | .error _ => []
  | .ok p => (Linking.requires p).1.flatMap fun r =>
    match Linking.nameText r.name with
    | .ok name => (path.candidates name.toList file.toList).map String.ofList
    | .error _ => []

def partsOf (path : String) : List (List Char) :=
  (Path.components path.toList).filter fun c => c ≠ ['.']

def readIfThere (file : String) : IO (Option ByteArray) := do
  try
    let data ← IO.FS.readBinFile file
    return some data
  catch _ => return none

def leadsToDirectory (path : String) : IO Bool := do
  try
    let p ← IO.FS.realPath (if path.isEmpty then "." else path)
    p.isDir
  catch _ => return false

/-- Adds files to a disk, with the directories they are in and the files they require. -/
partial def gather (path : Linking.LoadPath) (d : Disk) : List String → IO Disk
  | [] => return d
  | file :: rest => do
    let parts := partsOf file
    if (d.file? parts).isSome then gather path d rest
    else
      let dir := String.ofList (Path.directory file.toList)
      let d := if ← leadsToDirectory dir then { d with folders := partsOf dir :: d.folders } else d
      match ← readIfThere file with
      | none => gather path d rest
      | some data =>
        let c := contentOfBytes file data
        let more := if endsWith file programEnding then requiredPaths path file c.data else []
        gather path { d with files := d.files ++ [(parts, c)] } (more ++ rest)

def pathOf (parts : List (List Char)) : String := "/".intercalate (parts.map String.ofList)

def writeChanges (old new : Disk) : IO Unit :=
  new.files.forM fun (p, c) =>
    if old.file? p = some c then pure () else IO.FS.writeBinFile (pathOf p) (bytesOfContent c)

def perform (args : List String) (action : Action Answer) : IO UInt32 := do
  let environment ← IO.getEnv "PICO8_LUA_PATH"
  let asked := (args.zip (args.drop 1)).find? (fun p => p.1 == "--lua-path") |>.map (·.2)
  let disk ← gather { asked := asked, environment := environment } {} (namedPaths args)
  let (answer, s) := match action.run { disk := disk, loadPath := environment } with
    | .ok a s => (a, s)
    | .error e s => (⟨1, false⟩, { s with err := s.err ++ "error: " ++ e.message ++ "\n" })
  writeChanges disk s.disk
  IO.print s.out
  IO.eprint s.err
  if answer.usage then IO.eprintln "usage: p8tool [-h] [-q] [--debug] command ..."
  return answer.exit.toNat.toUInt32

end Cartridge.Command

open Cartridge.Command in
/-- Carries out the command line: that of the cart tool, or of the program that turns carts upside
down if it is called by that name. -/
def main (args : List String) : IO UInt32 := do
  let name := ((← IO.appPath).fileName).getD ""
  if endsWith name "upsidedown" then
    perform args (UpsideDown.run false args)
  else perform args (Tool.run args)
