import Cartridge.Flip.Options
import Cartridge.Lua.Tree
import Cartridge.Numeral.Integer

/-!
# Calls that draw upside down

Calls of the functions that draw or look at the screen, the sprite sheet or the map get other
arguments: a coordinate `e` becomes `most - e`. The arguments of calls are not looked into.
-/

namespace Cartridge.Flip

open Lua

def number (n : Int) : Tree :=
  .fresh .expValue [.token { kind := .number, data := Bytes.ofText (toString n) }]

def combine (sign : String) (a b : Tree) : Tree :=
  .fresh .expBinOp [a, .token (Token.symbol sign), .fresh .expValue [b]]

def reflect (most : Int) (e : Tree) : Tree := combine "-" (number most) e

/-- Changes to the arguments of a call. A failure keeps the changes made before it. -/
abbrev Edit := EStateM Failure (List Tree)

def argument (i : Nat) : Edit Tree := do
  match (← get)[i]? with
  | some e => pure e
  | none => throw .outOfRange

def setArgument (i : Nat) (e : Tree) : Edit Unit := do
  if i < (← get).length then modify fun es => es.set i e else throw .outOfRange

def reflectInto (i : Nat) (most : Int) (j : Nat) : Edit Unit := do
  setArgument i (reflect most (← argument j))

def reflectAt (i : Nat) (most : Int) : Edit Unit := reflectInto i most i

def reflectAll (i : Nat) : List Int → Edit Unit
  | [] => pure ()
  | most :: rest => do
    reflectAt i most
    reflectAll (i + 1) rest

/-- The first argument, when it is a button's number, becomes that of the opposite button. -/
def swapButton : Edit Unit := do
  let first ← argument 0
  match first.field .value with
  | .error e => throw e
  | .ok (.token t) =>
    if t.kind = .number then
      match Numeral.integer? 10 0 t.data with
      | none => throw .unfitValue
      | some n =>
        let other := if n % 2 = 0 then n + 1 else n - 1
        setArgument 0 (first.setField .value
          (.token { kind := .number, data := Bytes.ofText (toString other) }))
    else pure ()
  | .ok _ => pure ()

/-- The text at the third argument keeps a line's room below it. -/
def lowerText : Edit Unit := do
  if 1 < (← get).length then reflectAt 2 119 else pure ()

def box : Edit Unit := do
  reflectInto 0 127 2
  reflectAt 1 127
  reflectInto 2 127 0
  reflectAt 3 127

def mapPart (rows : Int) : Edit Unit := do
  let column ← argument 0
  let row ← argument 1
  let x ← argument 2
  let y ← argument 3
  let width ← argument 4
  let height ← argument 5
  setArgument 0 (combine "-" (reflect 128 column) width)
  setArgument 1 (combine "-" (reflect rows row) height)
  setArgument 2 (combine "-" (reflect 128 x) (combine "*" (number 8) width))
  setArgument 3 (combine "-" (reflect 128 y) (combine "*" (number 8) height))

/-- What happens to the arguments of a function. -/
structure Rule where
  /-- What is said about a call with some number of arguments. -/
  notice : Nat → String := fun _ => ""
  edit : Option (Edit Unit) := none
  mayBeEmpty : Bool := false

def Rule.change (e : Edit Unit) : Rule := { edit := some e }

def ruleFor (o : Options) (name : String) : Option Rule :=
  let sheetBottom : Int := if o.smallMap then 127 else 63
  let mapBottom : Int := if o.smallMap then 31 else 63
  match name with
  | "btn" | "btnp" => if o.buttons then some (.change swapButton) else none
  | "pget" | "pset" | "circ" | "circfill" => some (.change (reflectAll 0 [127, 127]))
  | "sget" | "sset" => some (.change (reflectAll 0 [127, sheetBottom]))
  | "print" => some (.change lowerText)
  | "cursor" => some (.change (reflectAt 1 119))
  | "camera" => some { edit := some (reflectAll 0 [0, 0]), mayBeEmpty := true }
  | "line" => some (.change (reflectAll 0 [127, 127, 127, 127]))
  | "rect" | "rectfill" => some (.change box)
  | "spr" => some {
      notice := fun n =>
        if 3 < n then "Unsupported: can't invert blitting more than one tile\n" else ""
      edit := some (reflectAll 1 [113, 113]) }
  | "sspr" => some { notice := fun _ => "Unsupported: can't invert sspr\n" }
  | "mget" | "mset" => some (.change (reflectAll 0 [127, mapBottom]))
  | "map" | "mapdraw" => some (.change (mapPart (mapBottom + 1)))
  | _ => none

/-- How far the change of a tree got. -/
structure Progress where
  notices : String := ""
  failure : Option Failure := none
deriving DecidableEq, Repr, Inhabited

def applyEdit (r : Rule) (e : Edit Unit) (args : Tree) (s : Progress) : Tree × Progress :=
  match args.field .explist with
  | .error f => (args, { s with failure := some f })
  | .ok .absent => (args, if r.mayBeEmpty then s else { s with failure := some .missingPart })
  | .ok list =>
    match list.field .exps >>= Tree.items with
    | .error f => (args, { s with failure := some f })
    | .ok exps =>
      let s := { s with notices := s.notices ++ r.notice exps.length }
      let put := fun (es : List Tree) => args.setField .explist (list.setField .exps (.list es))
      match e.run exps with
      | .ok _ es => (put es, s)
      | .error f es => (put es, { s with failure := some f })

def applyRule (r : Rule) (args : Tree) (s : Progress) : Tree × Progress :=
  match r.edit with
  | none => (args, { s with notices := s.notices ++ r.notice 0 })
  | some e => applyEdit r e args s

/-- A call with its arguments changed. Only functions called by their plain names are known. -/
def call (o : Options) (s : Progress) (callee args : Tree) : Tree × Progress :=
  match s.failure, callee with
  | none, .node .varName [.token name] _ =>
    match ruleFor o (Bytes.toText name.code) with
    | some r => applyRule r args s
    | none => (args, s)
  | _, _ => (args, s)

mutual

def tree (o : Options) (s : Progress) : Tree → Tree × Progress
  | .node .functionCall [callee, args] origin =>
    let (args, s) := call o s callee args
    (.node .functionCall [callee, args] origin, s)
  | .node k fields origin =>
    let (fields, s) := trees o s fields
    (.node k fields origin, s)
  | .list items =>
    let (items, s) := trees o s items
    (.list items, s)
  | t => (t, s)

def trees (o : Options) (s : Progress) : List Tree → List Tree × Progress
  | [] => ([], s)
  | t :: rest =>
    let (t, s) := tree o s t
    let (rest, s) := trees o s rest
    (t :: rest, s)

end

end Cartridge.Flip
