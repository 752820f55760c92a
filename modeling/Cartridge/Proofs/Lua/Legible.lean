import Cartridge.Proofs.Lua.Content
import Cartridge.Proofs.Lua.Retracing

/-!
# Programs that can be written from their trees

A tree does not say which parentheses the source has, whether a condition is followed by `then` or by
`do`, or that a block was dropped.  A pen that writes the tree as in the source gets out of step where it
cannot tell.  A program is legible if there is no such place.
-/

namespace Cartridge.Lua

open Grammar

def wordFrom (toks : Array Token) (i : Nat) : Option Token :=
  (toks.toList.drop i).find? fun t => !t.isGap

def Token.isFrom (u : Token) (toks : Array Token) (place : Option Nat) : Bool :=
  ((place.bind (wordFrom toks)).map (·.agrees u)).getD false

def Token.isAt (u : Token) (toks : Array Token) (place : Option Nat) : Bool :=
  ((place.bind fun i => toks[i]?).map (·.agrees u)).getD false

namespace Tree

def startsWithName : Tree → Bool
  | .node .varName _ _ => true
  | .node .varIndex (first :: _) _ => startsWithName first
  | .node .varAttribute (first :: _) _ => startsWithName first
  | .node .functionCall (first :: _) _ => startsWithName first
  | .node .functionCallMethod (first :: _) _ => startsWithName first
  | _ => false

/-- Whether a value can be written without regard to parentheses of the source: it is no variable or
call that starts with parentheses, and no table behind parentheses. -/
def standsFree (o : Origin) : Tree → Bool
  | .node .tableConstructor _ o' => o'.span.map Span.start == o.span.map Span.start
  | .node .varIndex fs o' => startsWithName (.node .varIndex fs o')
  | .node .varAttribute fs o' => startsWithName (.node .varAttribute fs o')
  | .node .functionCall fs o' => startsWithName (.node .functionCall fs o')
  | .node .functionCallMethod fs o' => startsWithName (.node .functionCallMethod fs o')
  | _ => true

/-- Whether the fields of a table follow its opening brace directly, and no parentheses stand behind
them. -/
def fieldsStandFree (toks : Array Token) (o : Origin) (fields : List Tree) : Bool :=
  fields.head?.all (fun f => (Token.symbol "\x7b").isAt toks (f.start?.map (· - 1))) &&
    (match (fields.getLast?.bind stop?).orElse (fun _ => o.span.map Span.start), o.span with
    | some i, some s => (between toks i s.stop).all fun t => !t.agrees (Token.symbol "(")
    | _, _ => false)

mutual

def legible (toks : Array Token) : Tree → Bool
  | .node .statIf [.list pairs] o =>
      legibleBranches toks o (o.span.map Span.start) pairs
  | .node .statForStep (.token _ :: rest) _ => legibleAll toks rest
  | .node .statForStep _ _ => false
  | .node .varIndex (first :: rest) _ =>
      (if isExpression first then enclosed toks first else first.isNode && legible toks first) &&
        legibleAll toks rest
  | .node .varAttribute (first :: rest) _ =>
      (if isExpression first then enclosed toks first else first.isNode && legible toks first) &&
        legibleAll toks rest
  | .node .functionCall (first :: rest) _ =>
      (if isExpression first then enclosed toks first else first.isNode && legible toks first) &&
        legibleAll toks rest
  | .node .functionCallMethod (first :: rest) _ =>
      (if isExpression first then enclosed toks first else first.isNode && legible toks first) &&
        legibleAll toks rest
  | .node .expValue [value] o => value.standsFree o && legible toks value
  | .node .expUnOp fs o =>
      !(Token.symbol "(").isFrom toks (o.span.map Span.start) && legibleAll toks fs
  | .node .tableConstructor [.list fields] o =>
      fieldsStandFree toks o fields && legibleAll toks fields
  | .node _ fs _ => legibleAll toks fs
  | .list ts => legibleAll toks ts
  | _ => true

def legibleAll (toks : Array Token) : List Tree → Bool
  | [] => true
  | t :: ts => legible toks t && legibleAll toks ts

def enclosed (toks : Array Token) : Tree → Bool
  | .node .expValue [value] o =>
      (Token.symbol ")").isAt toks (o.span.map Span.stop) &&
        (if isExpression value then enclosed toks value
        else (!value.isA .tableConstructor || value.standsFree o) && legible toks value)
  | _ => false

def legibleBranches (toks : Array Token) (o : Origin) (before : Option Nat) : List Tree → Bool
  | [] => !o.short || before == o.span.map Span.stop
  | .list [.absent, block] :: rest =>
      (Token.keyword "else").isFrom toks before && legible toks block &&
        legibleBranches toks o block.stop? rest
  | .list [condition, block] :: rest =>
      (if o.short then isExpression condition
        else (Token.keyword "then").isFrom toks condition.stop?) &&
        legible toks condition && legible toks block && legibleBranches toks o block.stop? rest
  | _ :: _ => false

end

/-- Whether a pen can follow what a key, an attribute or arguments follow: a variable or call, or a value
with its parentheses. -/
def legibleBase (toks : Array Token) (t : Tree) : Bool :=
  if isExpression t then t.enclosed toks else t.isNode && t.legible toks

theorem legibleAll_iff {toks : Array Token} {ts : List Tree} :
    legibleAll toks ts = true ↔ ∀ t ∈ ts, t.legible toks = true := by
  induction ts with
  | nil => simp [legibleAll]
  | cons t ts ih => simp [legibleAll, ih]

end Tree
end Cartridge.Lua
