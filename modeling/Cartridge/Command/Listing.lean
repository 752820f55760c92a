import Cartridge.Command.Session
import Cartridge.Numeral.Shortest
import Cartridge.Text.Csv

/-!
# Commands that show carts
-/

namespace Cartridge.Command

open Lua

/-- Goes through carts. A cart that does not load is warned of; it ends the run if it is the only
one. -/
def showCarts (files : List String) (each : String → Cart → Action Unit) : Action Int := do
  let answer ← overCarts (fun file cart => do
    match cart with
    | some c =>
      each file c
      pure none
    | none =>
      warn (file ++ ": could not load cart\n")
      pure (if files.length = 1 then some 1 else none)) files
  pure (answer.getD 0)

def heading (files : List String) (file : String) : Action Unit :=
  if 1 < files.length then say ("=== " ++ file ++ " ===\n") else pure ()

def statsHeading : List String :=
  ["Filename", "Title", "Byline", "Code Version", "Char Count", "Token Count", "Line Count",
    "Compressed Code Size"]

def statsRow (file : String) (c : Cart) : List String :=
  let p := c.program
  [shortName file, (p.title.map friendly).getD "", (p.byline.map friendly).getD "",
    toString p.version, toString p.charCount, toString p.tokenCount, toString p.lineCount,
    toString c.codeSize]

def statsText (file : String) (c : Cart) : String :=
  let p := c.program
  (match p.title with
    | some t => friendly t ++ " (" ++ shortName file ++ ")\n"
    | none => shortName file ++ "\n") ++
  (match p.byline with
    | some b => friendly b ++ "\n"
    | none => "") ++
  "- version: " ++ toString p.version ++ "\n- lines: " ++ toString p.lineCount ++
  "\n- chars: " ++ toString p.charCount ++ "\n- tokens: " ++ toString p.tokenCount ++
  "\n- compressed chars: " ++ toString c.codeSize ++ "\n\n"

def stats (table : Bool) (files : List String) : Action Int := do
  if table then print (Csv.row statsHeading)
  showCarts files fun file c =>
    if table then print (Csv.row (statsRow file c)) else say (statsText file c)

/-- Says the lines of a program. Line numbers have no name to be counted by. -/
def sayLines (numbers : Bool) : List Bytes → Action Unit
  | [] => pure ()
  | l :: rest => do
    if numbers then throw .unknownName
    say (friendly l)
    sayLines numbers rest

def listCode (numbers : Bool) (files : List String) : Action Int :=
  showCarts files fun file c => do
    heading files file
    let out := c.program.write .echo
    sayLines numbers out.lines
    say "\n"

def sayNumbered (numbers : Bool) (n : Nat) : List Bytes → Action Unit
  | [] => pure ()
  | l :: rest => do
    say ((if numbers then toString n ++ ": " else "") ++ friendly l ++ "\n")
    sayNumbered numbers (n + 1) rest

def listPictureCode (numbers : Bool) (alone : Bool) (file : String) : Action Unit := do
  let image ← readPicture file
  let u ← lift (CodeRegion.read (image.getD 0x8000 0).toNat (image.extract 0x4300 0x8000).toList)
  if alone then
    sayNumbered numbers 0 (Bytes.split Bytes.newline u.text)
    say "\n"
  else throw .unknownName

/-- Looks for the code in a cart text. It is there in lines, and lines cannot be cut into lines. -/
def listTextCode (alone : Bool) (file : String) : Action Unit := do
  let f ← lift (TextFile.ofBytes (← readFile file).data)
  if f.sections.any fun s => s.1 == Cart.Part.program.name then
    throw (if alone then .missingPart else .unknownName)
  else throw .missingKey

def listRawCode (numbers : Bool) (files : List String) : Action Int := go files
where
  go : List String → Action Int
    | [] => pure 0
    | file :: rest => do
      let alone := files.length == 1
      if endsWith file pictureEnding then
        listPictureCode numbers alone file
        go rest
      else if endsWith file textEnding then
        listTextCode alone file
        go rest
      else
        warn (file ++ ": must be .p8 or .p8.png\n")
        if alone then pure 1 else go rest

def tokenText (t : Token) : Except Failure String :=
  if t.kind = .number then (Numeral.value t.data).map Numeral.Value.text
  else .ok (Bytes.quoted t.data)

def sayTokens (n : Nat) : List Token → Action Unit
  | [] => pure ()
  | t :: rest => do
    match t.kind with
    | .newline =>
      say "\n"
      sayTokens n rest
    | .space | .comment =>
      say ("<" ++ (← lift (tokenText t)) ++ ">")
      sayTokens n rest
    | _ =>
      say ("<" ++ toString n ++ ":" ++ (← lift (tokenText t)) ++ ">")
      sayTokens (n + 1) rest

def listTokens (files : List String) : Action Int :=
  showCarts files fun file c => do
    heading files file
    sayTokens 0 c.program.tokens.toList
    say "\n"

def treeLine (indent : Nat) (lead text : String) : String :=
  String.ofList (List.replicate indent ' ') ++ lead ++ text ++ "\n"

mutual

def treeText (indent : Nat) (lead : String) : Tree → String
  | .node k fields _ => treeLine indent lead k.title ++ fieldsText (indent + 2) k.fields fields
  | .list items => treeLine indent lead "[list:]" ++ itemsText (indent + 2) items
  | .token t => treeLine indent lead t.describe
  | .label name => treeLine indent lead (Bytes.quoted name)
  | .truth b => treeLine indent lead (if b then "True" else "False")
  | .absent => treeLine indent lead "None"

def fieldsText (indent : Nat) : List Field → List Tree → String
  | f :: names, t :: rest =>
    treeText indent ("* " ++ f.title ++ ": ") t ++ fieldsText indent names rest
  | _, _ => ""

def itemsText (indent : Nat) : List Tree → String
  | [] => ""
  | t :: rest => treeText indent "- " t ++ itemsText indent rest

end

def printTree (files : List String) : Action Int :=
  showCarts files fun file c => do
    heading files file
    say (treeText 0 "" c.program.root)

/-- What is looked for in code, which consists of bytes. -/
inductive Needle where
  | text
  | bytes (b : Bytes)
deriving DecidableEq, Repr, Inhabited

def Needle.occurs (line : Bytes) : Needle → Except Failure Bool
  | text => .error .wrongType
  | bytes b => .ok (Bytes.holds b line)

/-- Says which lines hold what is looked for, or only the file's name if one does. -/
def findLines (needle : Needle) (namesOnly : Bool) (file : String) (n : Nat) :
    List Bytes → Action Unit
  | [] => pure ()
  | l :: rest => do
    if ← lift (needle.occurs l) then
      if namesOnly then say (file ++ "\n")
      else
        say (file ++ ":" ++ toString n ++ ":" ++ friendly l)
        findLines needle namesOnly file (n + 1) rest
    else findLines needle namesOnly file (n + 1) rest

def findText (needle : Needle) (namesOnly : Bool) (files : List String) : Action Int := do
  if files.isEmpty then
    warn "Usage: p8tool luafind <pattern> <filename> [<filename>...]\n"
    pure 1
  else
    let answer ← overCarts (fun file cart => do
      match cart with
      | some c =>
        findLines needle namesOnly file 1 (c.program.write .echo).lines
        pure (none : Option Int)
      | none => throw .missingPart) files
    pure (answer.getD 0)

end Cartridge.Command
