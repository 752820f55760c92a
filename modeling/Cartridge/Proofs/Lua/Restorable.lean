import Cartridge.Proofs.Lua.Legible

/-!
# Trees that can be restored from their words

A tree that is written without regard to the source says less than the source did.  Parentheses stand
around every value that is a node and nowhere else, so that a literal or an operation that something
follows loses its own.  Between statements there is nothing, so that a statement which starts with a
parenthesis goes on with the one before it, unless that one cannot be gone on with.  Labels are torn apart.

What is left of a tree when it is read again is its essence.
-/

namespace Cartridge.Lua
namespace Tree

/-! ### Tests of all nodes -/

mutual

def every (f : NodeKind → List Tree → Bool) : Tree → Bool
  | .node k fs _ => f k fs && everyOf f fs
  | .list ts => everyOf f ts
  | _ => true

def everyOf (f : NodeKind → List Tree → Bool) : List Tree → Bool
  | [] => true
  | t :: ts => every f t && everyOf f ts

end

theorem everyOf_eq_all (f : NodeKind → List Tree → Bool) :
    ∀ ts : List Tree, everyOf f ts = ts.all (every f)
  | [] => rfl
  | t :: ts => congrArg (every f t && ·) (everyOf_eq_all f ts)

@[simp] theorem every_node (f : NodeKind → List Tree → Bool) (k : NodeKind) (fs : List Tree) (o : Origin) :
    every f (.node k fs o) = (f k fs && fs.all (every f)) :=
  congrArg (f k fs && ·) (everyOf_eq_all f fs)

@[simp] theorem every_list (f : NodeKind → List Tree → Bool) (ts : List Tree) :
    every f (.list ts) = ts.all (every f) :=
  everyOf_eq_all f ts

/-! ### Essences -/

mutual

/-- The tree without places, without the marks of conditionals on one line, and without the values
around nodes. -/
def essence : Tree → Tree
  | .node .expValue [v] _ => if v.isNode then v.essence else .node .expValue [v.essence] {}
  | .node k fs _ => .node k (essenceAll fs) {}
  | .token t => .token t.unplaced
  | .list ts => .list (essenceAll ts)
  | .label b => .label b
  | .truth b => .truth b
  | .absent => .absent

def essenceAll : List Tree → List Tree
  | [] => []
  | t :: ts => t.essence :: essenceAll ts

end

theorem essenceAll_eq_map : ∀ ts : List Tree, essenceAll ts = ts.map essence
  | [] => rfl
  | t :: ts => congrArg (t.essence :: ·) (essenceAll_eq_map ts)

@[simp] theorem essence_node {k : NodeKind} (hk : k ≠ .expValue) (fs : List Tree) (o : Origin) :
    (node k fs o).essence = .node k (fs.map essence) {} := by
  rw [essence, essenceAll_eq_map]
  rintro v rfl
  exact absurd rfl hk

@[simp] theorem essence_made {k : NodeKind} (hk : k ≠ .expValue) (fs : List Tree) (i j : Nat) :
    (made k fs i j).essence = .node k (fs.map essence) {} :=
  essence_node hk fs _

@[simp] theorem essence_list (ts : List Tree) : (list ts).essence = .list (ts.map essence) :=
  congrArg list (essenceAll_eq_map ts)

@[simp] theorem essence_token (t : Token) : (token t).essence = .token t.unplaced := rfl

@[simp] theorem essence_label (b : Bytes) : (label b).essence = .label b := rfl

@[simp] theorem essence_absent : absent.essence = .absent := rfl

theorem essence_made_list {k : NodeKind} (hk : k ≠ .expValue) (ts : List Tree) (i j : Nat) :
    (made k [.list ts] i j).essence = .node k [.list (ts.map essence)] {} := by
  rw [essence_made hk, List.map_singleton, essence_list]

theorem essence_value {v : Tree} (hv : v.isNode = true) (i j : Nat) :
    (made .expValue [v] i j).essence = v.essence :=
  if_pos hv

theorem isNode_essence : ∀ t : Tree, t.essence.isNode = t.isNode
  | .node k [v] o => by
    by_cases hk : k = .expValue
    · subst hk
      rw [essence]
      split
      · next hv =>
        rw [isNode_essence v, hv]
        rfl
      · rfl
    · rw [essence_node hk]
      rfl
  | .node k [] o => by cases k <;> rfl
  | .node k (_ :: _ :: _) o => by cases k <;> rfl
  | .list ts => by rw [essence_list]; rfl
  | .token _ | .label _ | .truth _ | .absent => rfl

theorem isNode_of_essence {t e : Tree} (h : e.essence = t.essence) (ht : t.isNode = true) :
    e.isNode = true := by
  rw [← isNode_essence, h, isNode_essence, ht]

theorem ne_absent_of_isNode {t : Tree} (h : t.isNode = true) : t ≠ .absent := by
  rintro rfl
  cases h

/-! ### Words that run into each other -/

mutual

def isOpen : Tree → Bool
  | .node .expValue [v] _ => v.isNode
  | .node .expBinOp [_, _, second] _ => isOpen second
  | .node .expUnOp [_, exp] _ => isOpen exp
  | .node .expList [.list exps] _ => endsOpen exps
  | .node .statAssignment [_, _, exps] _ => isOpen exps
  | .node .statLocalAssignment [_, exps] _ => isOpen exps
  | .node .statRepeat [_, exp] _ => isOpen exp
  | .node .statFunctionCall _ _ => true
  | _ => false

def endsOpen : List Tree → Bool
  | [] => false
  | [t] => isOpen t
  | _ :: t :: ts => endsOpen (t :: ts)

end

def startsOpen : Tree → Bool
  | .node .statAssignment (.node .varList [.list (v :: _)] _ :: _) _ => !v.startsWithName
  | .node .statFunctionCall [call] _ => !call.startsWithName
  | _ => false

def isChain (t : Tree) : Bool :=
  t.isA .varName || t.isA .varIndex || t.isA .varAttribute || t.isA .functionCall ||
    t.isA .functionCallMethod

/-- Whether a key, an attribute or arguments behind the tree belong to it when it is written: it is a
variable, a call, or a value with its parentheses. -/
def isBase : Tree → Bool
  | .node .expValue [v] _ => v.isNode
  | t => t.isChain

theorem exists_value_of_isBase {t : Tree} (hbase : t.isBase = true) (hchain : t.isChain = false) :
    ∃ v o, t = .node .expValue [v] o ∧ v.isNode = true := by
  unfold isBase at hbase
  split at hbase
  · exact ⟨_, _, rfl, hbase⟩
  · rw [hchain] at hbase
    cases hbase

def hasCondition : Tree → Bool
  | .list (condition :: _) => !condition.isAbsent
  | _ => false

end Tree

open Lua.Tree

/-- Whether no statement starts with a parenthesis that would go on with the statement before it. -/
def separable : List Tree → Bool
  | s :: t :: ts => !(s.isOpen && t.startsOpen) && separable (t :: ts)
  | _ => true

def restorableNode : NodeKind → List Tree → Bool
  | .chunk, [.list stats] => separable stats
  | .statIf, [.list branches] => branches.head?.all hasCondition && branches.dropLast.all hasCondition
  | .statForStep, counter :: _ => !counter.isAbsent
  | .statLabel, _ => false
  | .varIndex, first :: _ | .varAttribute, first :: _ | .functionCall, first :: _
  | .functionCallMethod, first :: _ => first.isBase
  | _, _ => true

/-- Whether a tree can be restored from its words: it has no labels; its loops have counters; only the
last branch of a conditional has no condition; keys, attributes and arguments follow variables, calls and
values with parentheses; and statements do not run into each other. -/
def Tree.restorable (t : Tree) : Bool := t.every restorableNode

end Cartridge.Lua
