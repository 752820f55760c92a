import Cartridge.Command.Arguments
import Cartridge.Command.Build
import Cartridge.Command.Listing
import Cartridge.Command.Processing

/-!
# The cart tool
-/

namespace Cartridge.Command

open Lua

structure Answer where
  exit : Int
  usage : Bool := false
deriving DecidableEq, Repr, Inhabited

def Refusal.answer : Refusal → Answer
  | help => ⟨0, true⟩
  | misuse => ⟨2, true⟩

namespace Tool

def usage : Usage where
  flags := [{ name := "--quiet", short := some "-q" }, { name := "--debug" }]
  slots := [.command]

def filesUsage (flags : List Flag) : Usage := { flags := flags, slots := [.several] }

def switch (name : String) : Flag := { name := name }

def setting (name : String) : Flag := { name := name, taking := .value }

def buildUsage : Usage where
  flags :=
    [setting "--lua", switch "--empty-lua", setting "--lua-path", switch "--optimize-tokens",
      switch "--lua-format", switch "--lua-minify", setting "--gfx", switch "--empty-gfx",
      setting "--gff", switch "--empty-gff", setting "--map", switch "--empty-map",
      setting "--sfx", switch "--empty-sfx", setting "--music", switch "--empty-music"]
  slots := [.one]

def buildOptions (p : Parsed) : BuildOptions where
  output := (p.wordsAt 0).headD ""
  source := fun part => p.value? ("--" ++ part.name)
  empty := fun part => p.has ("--empty-" ++ part.name)
  loadPath := p.value? "--lua-path"
  optimize := p.has "--optimize-tokens"
  format := p.has "--lua-format"
  minify := p.has "--lua-minify"

def width (p : Parsed) : Int :=
  ((p.value? "--indentwidth").bind fun s => Numeral.integer? 10 0 (Bytes.ofText s)).getD 2

structure Entry where
  usage : Usage
  run : Parsed → Action Int

def onFiles (flags : List Flag) (run : Parsed → List String → Action Int) : Entry where
  usage := filesUsage flags
  run := fun p => run p (p.wordsAt 0)

def command? : String → Option Entry
  | "stats" => some (onFiles [switch "--csv"] fun p => stats (p.has "--csv"))
  | "listlua" => some (onFiles [switch "--show-line-numbers"] fun p =>
      listCode (p.has "--show-line-numbers"))
  | "listrawlua" => some (onFiles [switch "--show-line-numbers"] fun p =>
      listRawCode (p.has "--show-line-numbers"))
  | "writep8" => some (onFiles [] fun _ => processCarts .echo false)
  | "luamin" => some (onFiles [] fun _ => processCarts .minifyTokens false)
  | "luafmt" => some (onFiles
      [{ name := "--indentwidth", taking := .number }, switch "--overwrite"] fun p =>
        processCarts (.tree { style := .format (some (width p)), plain := false })
          (p.has "--overwrite"))
  | "luafind" => some (onFiles [switch "--listfiles"] fun p files =>
      findText .text (p.has "--listfiles") (files.drop 1))
  | "listtokens" => some (onFiles [] fun _ => listTokens)
  | "printast" => some (onFiles [] fun _ => printTree)
  | "build" => some { usage := buildUsage, run := fun p => build (buildOptions p) }
  | _ => none

def verbosity (p : Parsed) : Verbosity :=
  if p.has "--debug" then .debug else if p.has "--quiet" then .quiet else .normal

/-- The command that arguments ask for, with what it is given and how much is said. -/
def choose (args : List String) : Except Answer (Verbosity × Option (Entry × Parsed)) :=
  match usage.parse args with
  | .error r => .error r.answer
  | .ok p =>
    match p.wordsAt 0 with
    | [] => if p.unknown.isEmpty then .ok (verbosity p, none) else .error Refusal.misuse.answer
    | name :: rest =>
      match command? name with
      | none => .error Refusal.misuse.answer
      | some c =>
        match c.usage.parse rest with
        | .error r => .error r.answer
        | .ok q =>
          if p.unknown.isEmpty && q.unknown.isEmpty then .ok (verbosity p, some (c, q))
          else .error Refusal.misuse.answer

def run (args : List String) : Action Answer :=
  match choose args with
  | .error a => pure a
  | .ok (_, none) => pure ⟨1, true⟩
  | .ok (v, some (c, p)) => fun s =>
    match (c.run p).run { s with verbosity := v } with
    | .error .interrupted s =>
      (warn "\nInterrupted with Control-C, stopping.\n" *> pure (⟨1, false⟩ : Answer)).run s
    | .error e s => .error e s
    | .ok exit s => .ok ⟨exit, false⟩ s

end Tool

end Cartridge.Command
