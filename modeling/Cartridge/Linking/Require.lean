import Cartridge.Lua.Program

/-!
# Calls that require a file

A program names the files it needs by calls of `require` with a string, and perhaps a table of
options. The arguments of calls are not looked into.
-/

namespace Cartridge

namespace Lua

mutual

def Tree.calls : Tree → List Tree
  | .node .functionCall fields origin => [.node .functionCall fields origin]
  | .node _ fields _ => Tree.callsOf fields
  | .list items => Tree.callsOf items
  | _ => []

def Tree.callsOf : List Tree → List Tree
  | [] => []
  | t :: rest => t.calls ++ Tree.callsOf rest

end

end Lua

namespace Linking

open Lua

/-- What a call of `require` asks for. -/
structure Require where
  name : Bytes
  gameLoop : Bool
  token : Token
deriving DecidableEq, Repr, Inhabited

def nameToken (s : String) : Token := { kind := .name, data := Bytes.ofText s }

def isToken (t : Token) : Tree → Bool
  | .token u => u.agrees t
  | _ => false

def isRequire : Tree → Bool
  | .node .functionCall [.node .varName [name] _, _] _ => isToken (nameToken "require") name
  | _ => false

def startToken (toks : Array Token) (t : Tree) : Except Failure Token :=
  match t.start?.bind (toks[·]?) with
  | some tok => .ok tok
  | none => .error .outOfRange

def argumentsOf (call : Tree) : Except Failure (List Tree) := do
  let list ← (← call.field .args).field .explist
  match list with
  | .absent => return []
  | _ => (← list.field .exps).items

def nameOf : Tree → Option Bytes
  | .node .expValue [.token t] _ => if t.kind = .string then some t.data else none
  | _ => none

def tableOf : Tree → Option (List Tree)
  | .node .expValue [.node .tableConstructor [.list fields] _] _ => some fields
  | _ => none

def gameLoopOption (fields : List Tree) : Except Failure (Option Bool) :=
  match fields with
  | [f] => do
    if isToken (nameToken "use_game_loop") (← f.field .keyName) then
      match ← (← f.field .exp).field .value with
      | .truth b => return some b
      | _ => return none
    else return none
  | _ => return none

def ofCall (toks : Array Token) (call : Tree) : Except Failure Require := do
  let args ← argumentsOf call
  let token ← startToken toks call
  let fail (fault : LinkFault) : Except Failure Require := .error (.linking fault token.place)
  match args with
  | [first] =>
    match nameOf first with
    | some name => return ⟨name, false, token⟩
    | none => fail .notString
  | [first, second] =>
    match nameOf first with
    | none => fail .notString
    | some name =>
      match tableOf second with
      | none => fail .notTable
      | some fields =>
        match ← gameLoopOption fields with
        | none => fail .badOptions
        | some b => return ⟨name, b, token⟩
  | _ => fail (.argumentCount args.length)

def requireOf? (toks : Array Token) (call : Tree) : Except Failure (Option Require) :=
  if isRequire call then (ofCall toks call).map some else .ok none

def requiresFrom (toks : Array Token) : List Tree → List Require × Option Failure
  | [] => ([], none)
  | call :: rest =>
    match requireOf? toks call with
    | .error e => ([], some e)
    | .ok none => requiresFrom toks rest
    | .ok (some r) =>
      let (more, failure) := requiresFrom toks rest
      (r :: more, failure)

/-- What the calls of a program ask for, up to the first that is not as it should be. -/
def requires (p : Program) : List Require × Option Failure := requiresFrom p.tokens p.root.calls

end Linking

end Cartridge
