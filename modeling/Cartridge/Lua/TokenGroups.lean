import Cartridge.Lua.Tree

/-!
# The tokens of a tree

Between the tokens of its child nodes a node has tokens of its own: words,
symbols and gaps.  The groups of a node cut its span at its children, so that the
tokens can be listed by walking the tree.
-/

namespace Cartridge.Lua

inductive TokenGroup where
  /-- The tokens before a child node, with the field and the indexes of the
  child in it. -/
  | before (field : Field) (path : List Nat) (tokens : Array Token)
  | plain (tokens : Array Token)
  deriving Repr, Inhabited

def TokenGroup.tokens : TokenGroup → Array Token
  | before _ _ ts => ts
  | plain ts => ts

namespace Tree

mutual

def nodes : Tree → List Tree
  | .node k fs o => .node k fs o :: nodesOf fs
  | .list ts => nodesOf ts
  | _ => []

def nodesOf : List Tree → List Tree
  | [] => []
  | t :: ts => t.nodes ++ nodesOf ts

end

section Groups

variable (toks : Array Token)

def singles : Nat → Nat → List TokenGroup
  | 0, _ => []
  | count + 1, pos => .plain (toks.extract pos (pos + 1)) :: singles count (pos + 1)

mutual

/-- The groups of a field's value from `pos` on, and where the next field starts.
A missing condition in a conditional takes no token; any other missing value
counts as one token, and a label's name as one for each byte. -/
def valueGroups (field : Field) (path : List Nat) : Tree → Nat → List TokenGroup × Nat
  | .node _ _ o, pos =>
      match o.span with
      | some s => ([.before field path (toks.extract pos s.start)], s.stop)
      | none => ([], pos)
  | .list items, pos => itemGroups field path 0 items pos
  | .label name, pos => (singles toks name.length pos, pos + name.length)
  | .token _, pos => (singles toks 1 pos, pos + 1)
  | .truth _, pos => (singles toks 1 pos, pos + 1)
  | .absent, pos =>
      if field = .expBlockPairs then ([], pos) else (singles toks 1 pos, pos + 1)

/-- The groups of the items of a list, the first of which has the index `i`. -/
def itemGroups (field : Field) (path : List Nat) (i : Nat) :
    List Tree → Nat → List TokenGroup × Nat
  | [], pos => ([], pos)
  | t :: ts, pos =>
      let (gs, pos) := valueGroups field (path ++ [i]) t pos
      let (hs, pos) := itemGroups field path (i + 1) ts pos
      (gs ++ hs, pos)

end

def fieldGroups : List (Field × Tree) → Nat → List TokenGroup × Nat
  | [], pos => ([], pos)
  | (f, t) :: rest, pos =>
      let (gs, pos) := valueGroups toks f [] t pos
      let (hs, pos) := fieldGroups rest pos
      (gs ++ hs, pos)

def groups : Tree → List TokenGroup
  | .node k fs o =>
      match o.span with
      | some s =>
          let (gs, pos) := fieldGroups toks (k.fields.zip fs) s.start
          gs ++ [.plain (toks.extract pos s.stop)]
      | none => []
  | _ => []

mutual

/-- The tokens of a node: those of its groups, with the tokens of a child after
the group before it. -/
def tokens : Tree → List Token
  | .node k fs o =>
      match o.span with
      | some s =>
          let (ts, pos) := fieldTokens k.fields fs s.start
          ts ++ (toks.extract pos s.stop).toList
      | none => []
  | _ => []

def valueTokens (field : Field) : Tree → Nat → List Token × Nat
  | .node k fs o, pos =>
      match o.span with
      | some s =>
          let (ts, inner) := fieldTokens k.fields fs s.start
          ((toks.extract pos s.start).toList ++ ts ++ (toks.extract inner s.stop).toList, s.stop)
      | none => ([], pos)
  | .list items, pos => itemTokens field items pos
  | .label name, pos => ((toks.extract pos (pos + name.length)).toList, pos + name.length)
  | .token _, pos => ((toks.extract pos (pos + 1)).toList, pos + 1)
  | .truth _, pos => ((toks.extract pos (pos + 1)).toList, pos + 1)
  | .absent, pos =>
      if field = .expBlockPairs then ([], pos)
      else ((toks.extract pos (pos + 1)).toList, pos + 1)

def itemTokens (field : Field) : List Tree → Nat → List Token × Nat
  | [], pos => ([], pos)
  | t :: ts, pos =>
      let (gs, pos) := valueTokens field t pos
      let (hs, pos) := itemTokens field ts pos
      (gs ++ hs, pos)

def fieldTokens : List Field → List Tree → Nat → List Token × Nat
  | f :: fields, t :: ts, pos =>
      let (gs, pos) := valueTokens f t pos
      let (hs, pos) := fieldTokens fields ts pos
      (gs ++ hs, pos)
  | _, _, pos => ([], pos)

end

end Groups
end Tree
end Cartridge.Lua
