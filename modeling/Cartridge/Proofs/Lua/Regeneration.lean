import Cartridge.Proofs.Lua.FirstStatements
import Cartridge.Proofs.Lua.RestoringBlocks

/-!
# Programs are restored from their trees

A program whose tree can be restored is written from its tree alone, and read again, without a loss: from
what is written all words are read, and the tree that is read has the same essence.  The rules of the
grammar are gone through one by one, each of them restoring what it makes from its parts.
-/

namespace Cartridge.Lua
namespace Grammar

open Lua.Tree

variable {fs ts : List Tree} {k : NodeKind} {o : Origin} {u : Tree}

theorem restorable_node :
    (Tree.node k fs o).restorable = true ↔
      restorableNode k fs = true ∧ ∀ t ∈ fs, t.restorable = true := by
  rw [restorable, every_node, Bool.and_eq_true, List.all_eq_true]
  rfl

theorem restorable_list : (Tree.list ts).restorable = true ↔ ∀ t ∈ ts, t.restorable = true := by
  rw [restorable, every_list, List.all_eq_true]
  rfl

def Back : Category → Tree → Prop
  | .block, t => BlockBack t
  | .statement, t => StatementBack t
  | .lastStatement, t => LastBack t
  | .branch, t => BranchBack t
  | .names, t => t.isNode = true ∧ NamesBack t
  | .path, t => PathBack t
  | .body, t => BodyBack t
  | .function, t => t.isNode = true ∧ FunctionBack t
  | .table, t => t.isNode = true ∧ TableBack t
  | .field, t => FieldBack t
  | .arguments, t => ArgumentsBack t
  | .variables, t => VariablesBack t
  | .expressions, t => t.isNode = true ∧ ExpressionsBack t
  | .expression, t => ValueBack ByOperations t
  | .term, t => ValueBack (By term) t
  | .chain, t => ChainBack t
  | .base, t => BaseBack t
  | .dots, t => ∃ i j, t = .made .varargDots [] i j
  | .perhaps, t => t = .absent ∨ ValueBack ByOperations t
  | .nothing, _ => True

structure PartsBack (items : List Item) : Prop where
  part : ∀ {s t}, .part s t ∈ items → t.restorable = true → Back s t
  value : ∀ {t v}, .part .expression t ∈ items → t.field .value = .ok v →
    ∃ o, t = .node .expValue [v] o
  leaf : ∀ {ps t}, .leaf ps t ∈ items → IsLeaf ps t

variable {toks : Array Token} {s : Category} {t : Tree} {i j : Nat} {items : List Item}

theorem PartsBack.get (h : PartsBack items)
    (hgood : (Tree.node k fs o).restorable = true) (hmem : .part s u ∈ items := by simp)
    (hu : u ∈ fs := by simp) : Back s u :=
  h.part hmem ((restorable_node.mp hgood).2 u hu)

theorem PartsBack.getOption (h : PartsBack items)
    {u : Option Tree} (hgood : (Tree.node k fs o).restorable = true)
    (hmem : ∀ t ∈ u, .part s t ∈ items := by simp) (hu : .ofOption u ∈ fs := by simp) : ∀ t ∈ u, Back s t := by
  rintro t ⟨⟩
  exact h.get hgood (hmem t rfl) hu

theorem PartsBack.getList (h : PartsBack items)
    (hgood : (Tree.node k [.list ts] o).restorable = true) (hmem : .part s u ∈ items) (hu : u ∈ ts) :
    Back s u :=
  h.part hmem (restorable_list.mp ((restorable_node.mp hgood).2 _ List.mem_cons_self) u hu)

/-! ### Chains and expressions -/

theorem Rule.chain_back (rule : Rule .chain i j t items) (h : PartsBack items)
    (hgood : t.restorable = true) : ChainBack t := by
  have hbase := fun {k fs o} (h : (Tree.node k fs o).restorable = true) => (restorable_node.mp h).1
  cases rule with
  | «variable» => exact readBack_variable (h.leaf (by simp))
  | index =>
    exact readBack_index (h.get (s := .base) hgood) (hbase hgood)
      (h.get (s := .expression) hgood)
  | «attribute» =>
    exact readBack_attribute (h.get (s := .base) hgood) (hbase hgood)
      (h.leaf (by simp))
  | callOf =>
    exact readBack_call (h.get (s := .base) hgood) (hbase hgood)
      (h.get (s := .arguments) hgood)
  | methodOf =>
    exact readBack_method (h.get (s := .base) hgood) (hbase hgood)
      (h.leaf (by simp)) (h.get (s := .arguments) hgood)

theorem Rule.term_back (rule : Rule .term i j t items) (h : PartsBack items)
    (hgood : t.restorable = true) : ValueBack (By Grammar.term) t := by
  cases rule with
  | constant _ _ hvalue => exact readBack_constant hvalue
  | literal _ _ hkind => exact readBack_literal hkind (h.leaf (by simp))
  | allArguments =>
    obtain ⟨i, j, rfl⟩ := h.part (s := .dots) (by simp) hgood
    exact readBack_dots
  | functionValue _ _ u =>
    have hfunction := h.get (s := .function) (u := u) hgood
    exact readBack_value hfunction.1 (hfunction.2.valued hfunction.1)
  | chainValue _ _ u =>
    have hchain := h.get (s := .chain) (u := u) hgood
    exact readBack_value (isNode_of_isChain hchain.kind) hchain.valued
  | bracketed _ _ u =>
    have hexp := h.get (s := .expression) (u := u) hgood
    exact readBack_value (isNode_of_isExpression hexp.kind) hexp.valued
  | tableValue _ _ u =>
    have htable := h.get (s := .table) (u := u) hgood
    exact readBack_value htable.1 (htable.2.valued htable.1)
  | unary => exact readBack_unary (h.leaf (by simp)) (h.get (s := .expression) hgood)

theorem Rule.expression_back (rule : Rule .expression i j t items) (h : PartsBack items)
    (hgood : t.restorable = true) : ValueBack ByOperations t := by
  cases rule with
  | single => exact readBack_single (h.part (s := .term) (by simp) hgood)
  | operation _ _ _ _ _ _ hunary =>
    exact readBack_operation (h.get (s := .expression) hgood) (h.leaf (by simp))
      (h.get (s := .term) hgood) hunary

/-! ### Statements -/

theorem branchBack_of_perhaps {condition block : Tree} (hcondition : Back .perhaps condition)
    (hblock : BlockBack block) : BranchBack (branch condition block) := by
  refine ⟨condition, block, rfl, ?_, hblock⟩
  rcases hcondition with rfl | hvalue
  · exact .inl rfl
  · exact .inr ⟨isNode_of_isExpression hvalue.kind, hvalue.valued⟩

theorem exists_of_mem_otherBranch {other : Option Tree} (h : t ∈ otherBranch other) :
    ∃ b ∈ other, t = branch .absent b := by
  cases other with
  | none => cases h
  | some b =>
    rw [otherBranch] at h
    split at h
    · exact ⟨b, rfl, List.mem_singleton.mp h⟩
    · cases h

theorem BranchBack.further (h : BranchBack t) (hcondition : t.hasCondition = true) : FurtherBack t := by
  obtain ⟨condition, block, rfl, rfl | ⟨hnode, hvalued⟩, hblock⟩ := h
  · cases hcondition
  · exact ⟨condition, block, rfl, hnode, hvalued, hblock⟩

theorem readBack_branches {first : Tree} {more : List Tree} (h : ∀ t ∈ first :: more, BranchBack t)
    (hrestorable : restorableNode .statIf [.list (first :: more)] = true) :
    StatementBack (.node .statIf [.list (first :: more)] o) := by
  rw [restorableNode, Bool.and_eq_true] at hrestorable
  refine readBack_conditional ((h first List.mem_cons_self).further (by simpa using hrestorable.1))
    (fun t ht => h t (List.mem_cons_of_mem first ht)) ?_
  cases more with
  | nil => rfl
  | cons u more =>
    rw [List.dropLast_cons_cons, List.all_cons, Bool.and_eq_true] at hrestorable
    exact hrestorable.2.2

theorem Rule.statement_back (rule : Rule .statement i j t items) (h : PartsBack items)
    (hgood : t.restorable = true) : StatementBack t := by
  cases rule with
  | assignment =>
    exact readBack_assignment (h.get (s := .variables) hgood) (h.leaf (by simp))
      (h.get (s := .expressions) hgood).2
  | call _ _ hcall => exact readBack_callStatement (h.get (s := .chain) hgood) hcall
  | doBlock => exact readBack_do (h.get (s := .block) hgood)
  | whileLoop =>
    exact readBack_while (h.get (s := .expression) hgood)
      (h.get (s := .block) hgood)
  | repeatLoop =>
    exact readBack_repeat (h.get (s := .block) hgood)
      (h.get (s := .expression) hgood)
  | longIf _ _ condition body rest other =>
    have hall := restorable_list.mp ((restorable_node.mp hgood).2 _ List.mem_cons_self)
    refine readBack_branches (fun t ht => ?_) (restorable_node.mp hgood).1
    rcases List.mem_cons.mp ht with rfl | hmore
    · have hparts := restorable_list.mp (hall _ ht)
      exact branchBack_of_perhaps (h.part (s := .perhaps) (by simp) (hparts condition (by simp)))
        (h.part (s := .block) (by simp) (hparts body (by simp)))
    rcases List.mem_append.mp hmore with hrest | hother
    · exact h.part (s := .branch) (by simp [hrest]) (hall _ ht)
    · obtain ⟨b, hb, rfl⟩ := List.mem_map.mp hother
      have hparts := restorable_list.mp (hall _ ht)
      exact branchBack_of_perhaps (.inl rfl) (h.part (s := .block) (by simp_all) (hparts b (by simp)))
  | @shortIf _ _ condition bare hvalue body other hnode =>
    have hall := restorable_list.mp ((restorable_node.mp hgood).2 _ List.mem_cons_self)
    refine readBack_branches (fun t ht => ?_) (restorable_node.mp hgood).1
    rcases List.mem_cons.mp ht with rfl | hother
    · have hparts := restorable_list.mp (hall _ ht)
      obtain ⟨o, rfl⟩ := h.value (by simp) hvalue
      have hcondition : Back .expression (.node .expValue [bare] o) :=
        h.part (by simp) (restorable_node.mpr ⟨rfl, by simpa using hparts bare (by simp)⟩)
      exact ⟨bare, body, rfl, .inr ⟨hnode, hcondition.inside rfl hnode⟩,
        h.part (s := .block) (by simp) (hparts body (by simp))⟩
    · obtain ⟨b, hb, rfl⟩ := exists_of_mem_otherBranch hother
      have hparts := restorable_list.mp (hall _ ht)
      exact branchBack_of_perhaps (.inl rfl) (h.part (s := .block) (by simp_all) (hparts b (by simp)))
  | forStep _ _ counter first last step body =>
    cases counter with
    | none => cases (restorable_node.mp hgood).1
    | some counter =>
      exact readBack_counting (h.leaf (by simp)) (h.get (s := .expression) hgood)
        (h.get (s := .expression) hgood)
        (h.getOption (s := .expression) hgood (by simp +contextual) (by simp))
        (h.get (s := .block) hgood)
  | forIn =>
    exact readBack_walking (h.get (s := .names) hgood).2
      (h.get (s := .expressions) hgood).2
      (h.get (s := .block) hgood)
  | namedFunction =>
    exact readBack_namedFunction (h.get (s := .path) hgood)
      (h.get (s := .body) hgood)
  | localFunction =>
    exact readBack_localFunction (h.leaf (by simp)) (h.get (s := .body) hgood)
  | localVariables =>
    exact readBack_locals (h.get (s := .names) hgood).2
      (h.getOption (s := .expressions) hgood)
  | jump => exact readBack_goto (h.leaf (by simp))
  | label => cases (restorable_node.mp hgood).1

/-! ### All phrases -/

theorem Rule.back (rule : Rule s i j t items) (h : PartsBack items) (hgood : t.restorable = true) :
    Back s t := by
  cases s with
  | statement => exact rule.statement_back h hgood
  | expression => exact rule.expression_back h hgood
  | term => exact rule.term_back h hgood
  | chain => exact rule.chain_back h hgood
  | block =>
    cases rule with
    | block _ _ stats last =>
      refine readBack_block (fun t ht => ?_) (fun t ht => ?_) (restorable_node.mp hgood).1
      · exact h.getList (s := .statement) hgood (by simp [ht]) (by simp [ht])
      · exact h.getList (s := .lastStatement) hgood (by simp_all) (by simp_all)
  | lastStatement =>
    cases rule with
    | leave => exact readBack_break
    | give => exact readBack_return (h.getOption (s := .expressions) hgood)
  | branch =>
    cases rule with
    | branch =>
      have hparts := restorable_list.mp hgood
      exact branchBack_of_perhaps (h.part (s := .perhaps) (by simp) (hparts _ (by simp)))
        (h.part (s := .block) (by simp) (hparts _ (by simp)))
  | names =>
    cases rule with
    | names => exact ⟨rfl, readBack_names fun a ha => h.leaf (by simp_all)⟩
  | path =>
    cases rule with
    | path =>
      refine readBack_path (fun a ha => h.leaf ?_) fun a ha => h.leaf (by simp_all)
      rcases List.mem_cons.mp ha with rfl | ha
      · simp
      · simp [ha]
  | body =>
    cases rule with
    | body =>
      exact readBack_body (h.getOption (s := .names) hgood)
        (h.getOption (s := .dots) hgood)
        (h.get (s := .block) hgood)
  | function =>
    cases rule with
    | function => exact ⟨rfl, readBack_function (h.get (s := .body) hgood)⟩
  | table =>
    cases rule with
    | table _ _ first rest closing =>
      refine ⟨rfl, readBack_fields fun t ht => ?_⟩
      refine h.getList (s := .field) hgood ?_ ht
      cases first <;> simp_all
  | field =>
    cases rule with
    | keyField =>
      exact readBack_keyField (h.get (s := .expression) hgood)
        (h.get (s := .expression) hgood)
    | namedField =>
      exact readBack_namedField (h.leaf (by simp)) (h.get (s := .expression) hgood)
    | plainField => exact readBack_plainField (h.get (s := .expression) hgood)
  | arguments =>
    cases rule with
    | givenArguments => exact readBack_bracketArguments (h.getOption (s := .expressions) hgood)
    | tableArgument =>
      have htable := h.part (s := .table) (t := t) (by simp) hgood
      exact readBack_tableArgument htable.2 htable.1
    | stringArgument => exact readBack_stringArgument (h.leaf (by simp))
  | «variables» =>
    cases rule with
    | «variables» _ _ _ _ hvariable =>
      exact readBack_variables (fun t ht => h.getList (s := .chain) hgood (by simp_all) ht) hvariable
  | expressions =>
    cases rule with
    | expressions =>
      exact ⟨rfl, readBack_expressions fun t ht => h.getList (s := .expression) hgood (by simp_all) ht⟩
  | base =>
    cases rule with
    | chainBase => exact readBack_chainBase (h.part (s := .chain) (by simp) hgood)
    | bracketedBase =>
      rcases h.part (s := .perhaps) (t := t) (by simp) hgood with rfl | hvalue
      · exact nofun
      · exact readBack_bracketedBase hvalue
  | dots =>
    cases rule with
    | dots => exact ⟨_, _, rfl⟩
  | perhaps =>
    cases rule with
    | given => exact .inr (h.part (s := .expression) (by simp) hgood)
    | missing => exact .inl rfl
  | nothing => trivial

theorem Derived.back (hlexeme : ∀ {n : Nat} {t : Token}, toks[n]? = some t → Lexeme t.code t.unplaced)
    (h : Derived toks s t i j) (hgood : t.restorable = true) : Back s t := by
  refine Derived.induct_trees (P := fun s t => t.restorable = true → Back s t) hlexeme ?_ h hgood
  intro s t i j items rule hparts hleaf
  refine rule.back ⟨fun hmem => (hparts hmem).2, fun hmem hvalue => ?_, hleaf⟩
  obtain ⟨_, _, hderived⟩ := (hparts hmem).1
  exact hderived.eq_of_value (.inl rfl) hvalue

end Grammar

open Grammar

/-! ### Programs -/

theorem Grammar.Reads.ofTokens {root : Tree} {toks : Array Token}
    (h : Reads (solids (toks.toList.map Token.unplaced)) root (By Grammar.block) (Unless blockGoesOn)) :
    ∃ t stop, Tree.ofTokens toks = .ok t ∧ t.essence = root.essence ∧ t.stop? = some stop ∧
      Blank toks stop toks.size := by
  have hholds : Holds toks 0 (toks.toList.map Token.unplaced) := holds_of_eq rfl
  obtain ⟨stop, hrow, hblank⟩ := hholds.row
  rw [Nat.zero_add, List.length_map, Array.length_toList] at hblank
  obtain ⟨t, ht, hgives⟩ := h toks.size hrow (Nat.le_refl _) (Nat.zero_le _) (hblank.stops _)
  obtain ⟨all, last, e, rfl, -⟩ := (block_gives_iff (Nat.zero_le _)).mp hgives
  exact ⟨_, stop, Tree.ofTokens_eq_ok_iff.mpr ⟨stop, hgives⟩, ht, rfl, hblank⟩

/-- **A program that can be restored is read from what is written of its tree alone**: all of its words
are read, and the essence of the tree is kept. -/
theorem Program.reread_plainly {v : Int} {pieces : List Bytes} (hcut : LineCut pieces) {p : Program}
    (hp : Program.ofLines v pieces = .ok p) (hrestorable : p.root.restorable = true) :
    ∃ q, p.reread (.tree plainly) = .ok q ∧ q.isCovered = true ∧ q.root.essence = p.root.essence := by
  obtain ⟨ls, root, hls, hofTokens, rfl⟩ := (Program.ofLines_eq_ok_iff hcut).mp hp
  have htoks := Scanner.unplaced_fresh hls
  obtain ⟨_, hderived⟩ := Tree.derived_of_ofTokens hofTokens
  have hlexeme : ∀ {n : Nat} {t : Token}, (Scanner.passedAll {} ls).tokens[n]? = some t →
      Lexeme t.code t.unplaced := by
    intro n t hn
    obtain ⟨w, hw⟩ := hls.exists_lexeme_of_get htoks hn
    exact hw.code
  -- the words that the tree says are written with blanks between them, and read as they are
  obtain ⟨ws, hsay, -, hreads⟩ := hderived.back hlexeme hrestorable
  obtain ⟨hfailure, text, _, hlines, ⟨ls', hls', rfl⟩, hsolids⟩ :=
    Tree.write_of_saying hsay (Scanner.passedAll {} ls).tokens
  rw [← hsolids, ← Scanner.unplaced_fresh hls'] at hreads
  obtain ⟨t, stop, hofTokens', hessence, hstop, hblank⟩ := hreads.ofTokens
  exact ⟨_, Program.reread_eq hfailure hlines hls' hofTokens', isCovered_of_blank hstop hblank, hessence⟩

/-- A source with parentheses that are dropped and others that are made, and a conditional on one line. -/
def plainSample : List Bytes :=
  [Bytes.ofText "t={k=2,[3]=(-x)^2;} -- a table\n", Bytes.ofText "if (i~=2) t[i]=f(i).y:z'q' else x+=1\n",
    Bytes.ofText "local function g(...) return (a)(...) end ; (x).z()"]

theorem Program.reread_plainly_sample : ∃ p q, Program.ofLines 8 plainSample = .ok p ∧
    p.root.restorable = true ∧ p.reread (.tree plainly) = .ok q ∧ q.isCovered = true ∧
    q.root.essence = p.root.essence := by
  have hcut : LineCut plainSample := by unfold LineCut; decide
  have hsample : (Program.ofLines 8 plainSample).toOption.map (fun p => p.root.restorable) = some true := by
    decide +kernel
  cases h : Program.ofLines 8 plainSample with
  | error e =>
    rw [h] at hsample
    cases hsample
  | ok p =>
    rw [h] at hsample
    have hrestorable : p.root.restorable = true := Option.some.inj hsample
    obtain ⟨q, hq⟩ := Program.reread_plainly hcut h hrestorable
    exact ⟨p, q, rfl, hrestorable, hq⟩

theorem Program.reread_plainly_literal :
    (Program.ofLines 8 [Bytes.ofText "x=(\"a\"):f()\n"]).toOption.map
      (fun p => (p.isCovered, (p.reread (.tree plainly)).toOption.isNone)) = some (true, true) := by
  decide +kernel

end Cartridge.Lua
