import Cartridge.Lua.TokenGroups
import Cartridge.Proofs.Lua.Derivation

/-!
# The nodes of a tree

A rule makes one node of the phrases in its row, or none.  So a node of the tree of a phrase is that tree, or
a node of a tree in the row.
-/

namespace Cartridge.Lua

open List Lua.Tree
namespace Grammar

variable {i j : Nat} {items : List Item} {n t : Tree} {s : Category}

theorem mem_nodesOf {s : Tree} {ts : List Tree} : s ∈ nodesOf ts ↔ ∃ t ∈ ts, s ∈ t.nodes := by
  induction ts with
  | nil => simp [nodesOf]
  | cons t ts ih => simp [nodesOf, ih]

def Item.nodes : Item → List Tree
  | .part _ t => t.nodes
  | _ => []

theorem nodesOf_eq_flatMap : ∀ ts : List Tree, nodesOf ts = ts.flatMap nodes
  | [] => rfl
  | t :: ts => by rw [nodesOf, nodesOf_eq_flatMap ts, flatMap_cons]

@[simp] theorem nodes_made (k : NodeKind) (fs : List Tree) (i j : Nat) :
    (made k fs i j).nodes = .made k fs i j :: fs.flatMap nodes := by
  rw [← nodesOf_eq_flatMap]
  rfl

@[simp] theorem nodes_list (ts : List Tree) : (list ts).nodes = ts.flatMap nodes := by
  rw [← nodesOf_eq_flatMap]
  rfl

@[simp] theorem nodes_token (t : Token) : (token t).nodes = [] := rfl

@[simp] theorem nodes_label (b : Bytes) : (label b).nodes = [] := rfl

@[simp] theorem nodes_truth (b : Bool) : (truth b).nodes = [] := rfl

@[simp] theorem nodes_absent : absent.nodes = [] := rfl

@[simp] theorem nodes_ofOption (r : Option Tree) :
    (ofOption r).nodes = r.toList.flatMap nodes := by
  cases r <;> simp [ofOption]

@[simp] theorem nodes_ofToken? (r : Option Token) : (ofToken? r).nodes = [] := by
  cases r <;> rfl

@[simp] theorem nodes_branch (condition block : Tree) :
    (branch condition block).nodes = condition.nodes ++ block.nodes := by
  simp [branch]

theorem mem_nodes_of_field {v : Tree} {f : Field} (hv : t.field f = .ok v) (h : n ∈ v.nodes) :
    n ∈ t.nodes := by
  cases t with
  | node k fs o =>
    rw [field] at hv
    split at hv
    · next p hp =>
      cases hv
      have hmem := (of_mem_zip (mem_of_find?_eq_some hp)).2
      exact mem_cons_of_mem _ (mem_nodesOf.mpr ⟨_, hmem, h⟩)
    · cases hv
  | _ => cases hv

theorem nodes_otherBranch_subset (other : Option Tree) :
    (otherBranch other).flatMap nodes ⊆ other.toList.flatMap nodes := by
  cases other with
  | none => exact Subset.refl _
  | some b =>
    rw [otherBranch]
    split
    · simp
    · exact nil_subset _

theorem Rule.mem_nodes (rule : Rule s i j t items) (h : n ∈ t.nodes) :
    n = t ∨ n ∈ items.flatMap Item.nodes := by
  cases rule with
  | shortIf _ _ hbare block other =>
    rw [nodes, nodesOf_eq_flatMap, mem_cons] at h
    refine h.imp_right fun h => ?_
    simp [-mem_flatMap, Item.nodes, flatMap_assoc] at h ⊢
    rcases h with h | h | h
    · exact .inl (mem_nodes_of_field hbare h)
    · exact .inr (.inl h)
    · exact .inr (.inr (nodes_otherBranch_subset other h))
  | constant _ _ hvalue =>
    simp only [constants, mem_cons, Prod.mk.injEq, not_mem_nil, or_false] at hvalue
    obtain ⟨-, rfl⟩ | ⟨-, rfl⟩ | ⟨-, rfl⟩ := hvalue <;> simpa [Item.nodes] using h
  | table _ _ first rest closing =>
    cases first <;> cases closing <;>
      simpa [-mem_flatMap, Item.nodes, flatMap_assoc] using h
  | body _ _ names dots =>
    cases names <;> cases dots <;> simpa [-mem_flatMap, Item.nodes] using h
  | path _ _ first rest method =>
    cases method <;> simpa [-mem_flatMap, Item.nodes, flatMap_assoc, flatMap_map] using h
  | forStep _ _ counter =>
    cases counter <;> simpa [-mem_flatMap, Item.nodes, flatMap_assoc] using h
  | missing | empty | emptyBrackets | stringArgument => simp at h
  | branch | tableArgument | single | allArguments | chainBase | bracketedBase | given =>
    exact .inr (by simpa [-mem_flatMap, Item.nodes] using h)
  | _ =>
    simpa [-mem_flatMap, Item.nodes, flatMap_assoc, flatMap_map] using h

variable {toks : Array Token}

theorem Spans.ok_of_mem {ok : Category → Tree → Nat → Nat → Prop}
    (row : Spans toks ok items i j) (h : .part s t ∈ items) : ∃ i' j', ok s t i' j' := by
  induction row with
  | nil i => cases h
  | part hpart rest ih =>
    rcases mem_cons.mp h with heq | h
    · cases heq
      exact ⟨_, _, hpart⟩
    · exact ih h
  | word _ rest ih | leaf _ rest ih | semicolons _ rest ih | clear _ rest ih =>
    exact ih (by simpa using h)
  | place rest ih => exact ih (by simpa using h)

theorem Derived.of_mem_nodes (h : Derived toks s t i j) (hn : n ∈ t.nodes) :
    ∃ s' i' j', Derived toks s' n i' j' := by
  revert n
  refine Derived.induct (P := fun _ t _ _ => ∀ {n}, n ∈ t.nodes → ∃ s' i' j', Derived toks s' n i' j')
    ?_ h
  intro s t i j items rule row n hn
  rcases rule.mem_nodes hn with rfl | hn
  · exact ⟨s, i, j, .intro rule (row.mono And.left)⟩
  · obtain ⟨item, hitem, hn⟩ := mem_flatMap.mp hn
    cases item with
    | part s' t' =>
      obtain ⟨i', j', -, hnodes⟩ := row.ok_of_mem hitem
      exact hnodes hn
    | _ => cases hn

end Grammar
end Cartridge.Lua
