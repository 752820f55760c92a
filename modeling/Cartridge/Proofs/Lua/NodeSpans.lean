import Cartridge.Proofs.Lua.Parsing

/-!
# The spans of nodes

A node keeps the range of tokens that it was made from.  The ranges do not nest: an operation starts
behind its first operand, a call behind what is called, and an expression in parentheses ends before the
closing one.  But their ends do, and the children of a node stand one after the other.

What a phrase from `i` up to `j` passes on is that its outermost nodes stand in order between `i` and `j`,
and so do the children of every node in it.  Rule by rule, the children of a new node are the
outermost nodes of its row.
-/

namespace Cartridge.Lua

open List

namespace Tree

/-- The tokens that a node was made from. -/
def span? : Tree → Option Span
  | .node _ _ o => o.span
  | _ => none

mutual

/-- The nodes of a tree that are in no other node of it. -/
def outermost : Tree → List Tree
  | .node k fs o => [.node k fs o]
  | .list ts => outermostOf ts
  | _ => []

def outermostOf : List Tree → List Tree
  | [] => []
  | t :: ts => t.outermost ++ outermostOf ts

end

/-- The nodes next below a node, in the order of its fields: those in lists and in pairs too. -/
def children : Tree → List Tree
  | .node _ fs _ => fs.flatMap outermost
  | _ => []

theorem outermostOf_eq_flatMap (ts : List Tree) : outermostOf ts = ts.flatMap outermost := by
  induction ts with
  | nil => rfl
  | cons t ts ih => exact congrArg (t.outermost ++ ·) ih

@[simp] theorem outermost_node (k : NodeKind) (fs : List Tree) (o : Origin) :
    (node k fs o).outermost = [.node k fs o] := rfl

@[simp] theorem outermost_list (ts : List Tree) : (list ts).outermost = ts.flatMap outermost :=
  outermostOf_eq_flatMap ts

@[simp] theorem outermost_token (t : Token) : (token t).outermost = [] := rfl

@[simp] theorem outermost_label (b : Bytes) : (label b).outermost = [] := rfl

@[simp] theorem outermost_absent : absent.outermost = [] := rfl

@[simp] theorem outermost_ofOption (r : Option Tree) :
    (ofOption r).outermost = r.toList.flatMap outermost := by
  cases r <;> simp [ofOption]

@[simp] theorem outermost_ofToken? (r : Option Token) : (ofToken? r).outermost = [] := by
  cases r <;> rfl

@[simp] theorem outermost_branch (condition block : Tree) :
    (Grammar.branch condition block).outermost = condition.outermost ++ block.outermost := by
  simp [Grammar.branch]

@[simp] theorem children_made (k : NodeKind) (fs : List Tree) (i j : Nat) :
    (made k fs i j).children = fs.flatMap outermost := rfl

theorem outermost_of_isNode {t : Tree} (h : t.isNode = true) : t.outermost = [t] := by
  cases t with
  | node => rfl
  | _ => cases h

end Tree

namespace Grammar

open Tree

variable {i i' j j' k : Nat} {items : List Item} {n t : Tree} {ts us : List Tree} {s : Category}
  {toks : Array Token}

/-! ### Trees in a row -/

/-- The trees have spans, which stand one after the other between `i` and `j`. -/
inductive Ordered : List Tree → Nat → Nat → Prop
  | nil {i j : Nat} (h : i ≤ j) : Ordered [] i j
  | cons {t : Tree} {ts : List Tree} {s : Span} {i j : Nat} (hspan : t.span? = some s) (hi : i ≤ s.start)
      (hle : s.start ≤ s.stop) (rest : Ordered ts s.stop j) : Ordered (t :: ts) i j

theorem Ordered.le (h : Ordered ts i j) : i ≤ j := by
  induction h with
  | nil h => exact h
  | cons hspan hi hle rest ih => omega

theorem Ordered.mono (h : Ordered ts i j) (hi : i' ≤ i) (hj : j ≤ j') : Ordered ts i' j' := by
  induction h generalizing i' with
  | nil h => exact .nil (by omega)
  | cons hspan hi' hle rest ih => exact .cons hspan (by omega) hle (ih (Nat.le_refl _) hj)

theorem Ordered.append (h : Ordered ts i k) (h' : Ordered us k j) : Ordered (ts ++ us) i j := by
  induction h with
  | nil h => exact h'.mono h (Nat.le_refl j)
  | cons hspan hi hle rest ih => exact .cons hspan hi hle (ih h')

theorem Ordered.of_mem (h : Ordered ts i j) (ht : t ∈ ts) :
    ∃ s, t.span? = some s ∧ i ≤ s.start ∧ s.start ≤ s.stop ∧ s.stop ≤ j := by
  induction h with
  | nil h => cases ht
  | cons hspan hi hle rest ih =>
    rcases mem_cons.mp ht with rfl | ht
    · exact ⟨_, hspan, hi, hle, rest.le⟩
    · obtain ⟨s, hs, hstart, hrest⟩ := ih ht
      exact ⟨s, hs, by omega, hrest⟩

/-- **Of two trees in order, the first ends before the second one starts.** -/
theorem Ordered.pairwise (h : Ordered ts i j) :
    ts.Pairwise fun t u => ∀ s s', t.span? = some s → u.span? = some s' → s.stop ≤ s'.start := by
  induction h with
  | nil h => exact .nil
  | cons hspan hi hle rest ih =>
    refine .cons (fun u hu s s' hs hs' => ?_) ih
    obtain ⟨_, hu, hstart, -⟩ := rest.of_mem hu
    cases hspan.symm.trans hs
    cases hu.symm.trans hs'
    exact hstart

theorem ordered_otherBranch {other : Option Tree} (h : Ordered (other.toList.flatMap outermost) i j) :
    Ordered ((otherBranch other).flatMap outermost) i j := by
  cases other with
  | none => exact h
  | some b =>
    rw [otherBranch]
    split
    · simpa using h
    · exact .nil h.le

/-! ### What a phrase passes on -/

/-- The node lies between `i` and `j`, and its children are in order up to its end. -/
def Arranged (n : Tree) (i j : Nat) : Prop :=
  ∃ s, n.span? = some s ∧ s.start ≤ s.stop ∧ s.stop ≤ j ∧ Ordered n.children i s.stop

theorem Arranged.mono (h : Arranged n i j) (hi : i' ≤ i) (hj : j ≤ j') : Arranged n i' j' := by
  obtain ⟨s, hs, hle, hstop, hchildren⟩ := h
  exact ⟨s, hs, hle, Nat.le_trans hstop hj, hchildren.mono hi (Nat.le_refl _)⟩

/-- The outermost nodes of a tree are in order between `i` and `j`, and all its nodes are arranged. -/
structure Arrayed (t : Tree) (i j : Nat) : Prop where
  outermost : Ordered t.outermost i j
  nodes : ∀ n ∈ t.nodes, Arranged n i j

def Item.outermost : Item → List Tree
  | .part _ t => t.outermost
  | _ => []

section Rows

variable {ok : Category → Tree → Nat → Nat → Prop} (hok : ∀ {s t i j}, ok s t i j → Arrayed t i j)
include hok

theorem Spans.ordered (row : Spans toks ok items i j) : Ordered (items.flatMap Item.outermost) i j := by
  induction row with
  | nil i => exact .nil (Nat.le_refl i)
  | word h rest ih => exact ih.mono (Nat.le_succ_of_le h.blank.le) (Nat.le_refl _)
  | leaf h rest ih => exact ih.mono (Nat.le_succ_of_le h.blank.le) (Nat.le_refl _)
  | part h rest ih => exact (hok h).outermost.append ih
  | place rest ih => exact ih
  | semicolons h rest ih => exact ih.mono h.le (Nat.le_refl _)
  | clear h rest ih => exact ih

theorem Spans.arranged (row : Spans toks ok items i j) (hn : n ∈ items.flatMap Item.nodes) :
    Arranged n i j := by
  have hle : ∀ {s t i j}, ok s t i j → i ≤ j := fun h => (hok h).outermost.le
  induction row with
  | nil i => cases hn
  | word h rest ih => exact (ih hn).mono (Nat.le_succ_of_le h.blank.le) (Nat.le_refl _)
  | leaf h rest ih => exact (ih hn).mono (Nat.le_succ_of_le h.blank.le) (Nat.le_refl _)
  | part h rest ih =>
    rw [flatMap_cons, mem_append] at hn
    rcases hn with hn | hn
    · exact ((hok h).nodes n hn).mono (Nat.le_refl _) (rest.le hle)
    · exact (ih hn).mono (hle h) (Nat.le_refl _)
  | place rest ih => exact ih hn
  | semicolons h rest ih => exact (ih hn).mono h.le (Nat.le_refl _)
  | clear h rest ih => exact ih hn

/-- A rule that makes a node with the outermost nodes of its row as children. -/
theorem Rule.arrayed {a : Nat} (rule : Rule s i j t items) (row : Spans toks ok items i j)
    (hspan : t.span? = some ⟨a, j⟩) (hi : i ≤ a) (hj : a ≤ j) (hchildren : Ordered t.children i j) :
    Arrayed t i j := by
  have hnode : t.isNode = true := by
    cases t with
    | node => rfl
    | _ => cases hspan
  refine ⟨?_, fun n hn => ?_⟩
  · rw [outermost_of_isNode hnode]
    exact .cons hspan hi hj (.nil (Nat.le_refl j))
  · rcases rule.mem_nodes hn with rfl | hn
    · exact ⟨_, hspan, hj, Nat.le_refl j, hchildren⟩
    · exact row.arranged hok hn

theorem arrayed_of_part (row : Spans toks ok [.part s t] i j) : Arrayed t i j := by
  obtain ⟨k, hpart, rest⟩ := row.of_part
  cases rest
  exact hok hpart

theorem Spans.of_place {a : Nat} {first : Tree} (row : Spans toks ok (.part s first :: .place a :: items) i j) :
    i ≤ a ∧ a ≤ j := by
  have hle : ∀ {s t i j}, ok s t i j → i ≤ j := fun h => (hok h).outermost.le
  obtain ⟨k, hpart, rest⟩ := row.of_part
  cases rest with
  | place rest => exact ⟨hle hpart, rest.le hle⟩

end Rows

/-- **Every phrase has its nodes in order.**  The children of a node are the outermost nodes of the row of its
rule, but for a conditional on one line: it has the value of its condition as a child, and drops an empty
branch. -/
theorem Derived.arrayed (h : Derived toks s t i j) : Arrayed t i j := by
  refine Derived.induct (P := fun _ t i j => Arrayed t i j) ?_ h
  intro s t i j items rule row
  have hok : ∀ {s t i j}, Derived toks s t i j ∧ Arrayed t i j → Arrayed t i j := And.right
  have hordered := row.ordered hok
  have hrule := rule
  cases rule with
  | single t | allArguments t | tableArgument t | chainBase t | given t => exact arrayed_of_part hok row
  | bracketedBase t =>
    obtain ⟨_, m, hopen, rest⟩ := row.of_word
    obtain ⟨k, hpart, rest⟩ := rest.of_part
    obtain ⟨_, m', hclose, rest⟩ := rest.of_word
    cases rest
    have hi : i ≤ m + 1 := Nat.le_succ_of_le hopen.blank.le
    have hj : k ≤ m' + 1 := Nat.le_succ_of_le hclose.blank.le
    exact ⟨hpart.2.outermost.mono hi hj, fun n hn => (hpart.2.nodes n hn).mono hi hj⟩
  | branch condition block =>
    refine ⟨by simpa [Item.outermost] using hordered, fun n hn => row.arranged hok ?_⟩
    simpa [Item.nodes] using hn
  | missing | empty | emptyBrackets | stringArgument =>
    exact ⟨.nil hordered.le, fun n hn => by cases hn⟩
  | operation | index | «attribute» | callOf | methodOf =>
    obtain ⟨hi, hj⟩ := row.of_place hok
    exact hrule.arrayed hok row rfl hi hj (by simpa [Item.outermost] using hordered)
  | shortIf _ _ hbare block other hnode =>
    refine hrule.arrayed hok row rfl (Nat.le_refl i) hordered.le ?_
    obtain ⟨_, m, hif, hparts⟩ := row.of_word
    obtain ⟨k, hcondition, hblocks⟩ := hparts.of_part
    obtain ⟨k', hblock, hrest⟩ := hblocks.of_part
    -- the value is the only child of the condition
    obtain ⟨o, rfl⟩ := hcondition.1.eq_of_value (.inl rfl) hbare
    obtain ⟨s, -, -, hstop, hvalue⟩ := hcondition.2.nodes _ mem_cons_self
    have hfirst : Ordered _ i k := hvalue.mono (Nat.le_succ_of_le hif.blank.le) hstop
    have hother : Ordered ((otherBranch other).flatMap Tree.outermost) k' j :=
      ordered_otherBranch (by simpa [Item.outermost, flatMap_assoc] using hrest.ordered hok)
    simpa [children] using hfirst.append (hblock.2.outermost.append hother)
  | constant _ _ hvalue =>
    refine hrule.arrayed hok row rfl (Nat.le_refl i) hordered.le ?_
    simp only [constants, mem_cons, Prod.mk.injEq, not_mem_nil, or_false] at hvalue
    obtain ⟨-, rfl⟩ | ⟨-, rfl⟩ | ⟨-, rfl⟩ := hvalue <;> exact .nil hordered.le
  | table _ _ first rest closing =>
    refine hrule.arrayed hok row rfl (Nat.le_refl i) hordered.le ?_
    cases first <;> cases closing <;> simpa [Item.outermost, flatMap_assoc] using hordered
  | body _ _ names dots =>
    refine hrule.arrayed hok row rfl (Nat.le_refl i) hordered.le ?_
    cases names <;> cases dots <;> simpa [Item.outermost] using hordered
  | path _ _ first rest method =>
    refine hrule.arrayed hok row rfl (Nat.le_refl i) hordered.le ?_
    cases method <;> simpa [Item.outermost, flatMap_assoc, flatMap_map] using hordered
  | forStep _ _ counter =>
    refine hrule.arrayed hok row rfl (Nat.le_refl i) hordered.le ?_
    cases counter <;> simpa [Item.outermost, flatMap_assoc] using hordered
  | _ =>
    refine hrule.arrayed hok row rfl (Nat.le_refl i) hordered.le ?_
    simpa [Item.outermost, flatMap_assoc, flatMap_map] using hordered

end Grammar

/-- **The spans of nodes are in order.**  In the tree of a program, the span of a node ends within the root,
and that of the root within the tokens.  The children of a node end before it does, and each of them before
the next one starts. -/
theorem Tree.spans_of_ofTokens {toks : Array Token} {root n : Tree} (h : Tree.ofTokens toks = .ok root)
    (hn : n ∈ root.nodes) :
    ∃ r s, root.span? = some r ∧ n.span? = some s ∧ s.start ≤ s.stop ∧ s.stop ≤ r.stop ∧ r.stop ≤ toks.size ∧
      (∀ c ∈ n.children, ∃ s', c.span? = some s' ∧ s'.stop ≤ s.stop) ∧
      n.children.Pairwise fun c d => ∀ s s', c.span? = some s → d.span? = some s' → s.stop ≤ s'.start := by
  obtain ⟨stop, hderived⟩ := Tree.derived_of_ofTokens h
  have hsize : stop ≤ toks.size := by
    rcases hderived.endsInWord with rfl | ⟨k, t, rfl, ht, -⟩
    · exact Nat.zero_le _
    · exact (Array.getElem?_eq_some_iff.mp ht).1
  obtain ⟨r, hr, hrstop⟩ : ∃ r, root.span? = some r ∧ r.stop = stop := by
    have hstop := hderived.stop?_eq rfl
    cases root with
    | node k fs o => exact Option.map_eq_some_iff.mp hstop
    | _ => cases hstop
  obtain ⟨s, hs, hle, hstop, hchildren⟩ := hderived.arrayed.nodes n hn
  refine ⟨r, s, hr, hs, hle, hrstop ▸ hstop, hrstop ▸ hsize, fun c hc => ?_, hchildren.pairwise⟩
  obtain ⟨s', hs', -, -, hend⟩ := hchildren.of_mem hc
  exact ⟨s', hs', hend⟩

/-- An operation, a call and parentheses, whose spans start late and end early. -/
theorem Tree.spans_of_ofTokens_sample :
    ∃ root, Tree.ofTokens (Scanner.feed {} [Bytes.ofText "if (a) x=(b)[1]+f(c)\n"]).1.tokens = .ok root ∧
      root.nodes.length = 22 ∧ ∀ n ∈ root.nodes, ∃ r s, root.span? = some r ∧ n.span? = some s ∧
        s.start ≤ s.stop ∧ s.stop ≤ r.stop := by
  have hsample : (Tree.ofTokens (Scanner.feed {} [Bytes.ofText "if (a) x=(b)[1]+f(c)\n"]).1.tokens).toOption.map
      (·.nodes.length) = some 22 := by decide +kernel
  cases hroot : Tree.ofTokens (Scanner.feed {} [Bytes.ofText "if (a) x=(b)[1]+f(c)\n"]).1.tokens with
  | error e =>
    rw [hroot] at hsample
    cases hsample
  | ok root =>
    rw [hroot] at hsample
    refine ⟨root, rfl, Option.some.inj hsample, fun n hn => ?_⟩
    obtain ⟨r, s, hr, hs, hle, hstop, -⟩ := Tree.spans_of_ofTokens hroot hn
    exact ⟨r, s, hr, hs, hle, hstop⟩

end Cartridge.Lua
