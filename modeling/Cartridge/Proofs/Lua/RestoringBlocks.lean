import Cartridge.Proofs.Lua.RestoringParts
import Mathlib.Data.List.Chain

/-!
# Statements and blocks are restored

Nothing is written between two statements.  So the first word of each statement has to end the one before
it, and only a parenthesis may fail to do that.
-/

namespace Cartridge.Lua

open List
namespace Grammar

open Lua.Tree

variable {a : Token} {block first : Tree} {exps last step : Option Tree} {g : Tree → List Token}
  {more rest ts : List Tree}

variable {i j m : Nat} {t u v : Tree} {w : Owner}

/-! ### Statements -/

/-- The words of a statement start with one that starts statements, and with no parenthesis unless the
statement does. -/
def StatementStart (t : Tree) (ws : List Token) : Prop :=
  StartsIn statementStarts ws ∧ (t.startsOpen = false → StartsIn (.kind .name :: ledStarts) ws)

def StatementEnd (t : Tree) (toks : Array Token) (j : Nat) : Prop :=
  (t.isOpen = true → Stops toks suffixStarts j) ∧ Stops toks (binaryOperators ++ signs [",", "="]) j

def StatementBack (t : Tree) : Prop :=
  Restores (t.script true) t (StatementStart t) (By statement) (StatementEnd t)

theorem StatementEnd.list {toks : Array Token} (h : StatementEnd t toks j) (hopen : t.isOpen = u.isOpen) :
    ListEnd u toks j :=
  ⟨⟨fun hu => h.1 (hopen.trans hu), h.2.mono (subset_append_left _ _)⟩, h.2.mono (by decide)⟩

theorem statementBack_led (word : String) (k : Nat) {steps : List Step}
    {rest : Array Token → (Phrase → Parse (Option Tree)) → Nat → Option Token → Parse (Option Tree)}
    (hk : ∀ toks inner, (ledStatements toks inner)[k]? =
      some (.exact (Token.keyword word), here >>= fun start => keyword toks word >>= rest toks inner start))
    (hword : Bytes.ofText word ∈ keywords)
    (hscript : t.script true = .gap w :: .text w (Tree.word word) :: steps)
    (h : ∀ toks n start u, Rereads toks (toks.size - n + 1) steps (StatementEnd t toks)
      (Gives (rest toks (phrase toks n) start (some u))) (Like t)) : StatementBack t := by
  have hmem := fun toks inner => mem_of_getElem? (hk toks inner)
  have hfixed : Fixed word (Token.keyword word) := .inl ⟨rfl, hword⟩
  have hstart : .exact (Token.keyword word) ∈ ledStarts :=
    mem_map_of_mem (f := Prod.fst) (hmem #[] fun _ => pure none)
  have hback : Restores (.gap w :: .text w (Tree.word word) :: steps) t (StartsIn [.exact (Token.keyword word)])
      (By fun toks inner => here >>= fun start => keyword toks word >>= rest toks inner start) (StatementEnd t) :=
    Rereads.restores (.word ⟨_, List.mem_cons_self, hfixed, List.mem_singleton_self _⟩) fun toks n =>
      .gap (.fromHere fun start => .lead hfixed (h toks n start))
  obtain ⟨ws, hsay, hstarts, hreads⟩ := hback
  refine ⟨ws, hscript ▸ hsay, ⟨hstarts.mono (by simp [statementStarts, hstart]),
    fun _ => hstarts.mono (by simp [hstart])⟩, fun {toks} n {i j} hrow hn hi hend => ?_⟩
  obtain ⟨e, he, hgives⟩ := hreads n hrow hn hi hend
  obtain ⟨a, x, ha⟩ := hstarts.takes hrow
  exact ⟨e, he, statement_led (hmem toks _) ha hgives⟩

/-! ### Assignments and calls -/

def VariablesBack (t : Tree) : Prop :=
  ∃ first rest o, t = .node .varList [.list (first :: rest)] o ∧
    Restores (t.script true) t (ChainStart first) (By varList)
      (Unless (suffixStarts ++ signs [","]))

theorem readBack_variables
    (h : ∀ t ∈ first :: rest, ChainBack t) (hvar : ∀ t ∈ first :: rest, t.isVariable = true) :
    VariablesBack (.made .varList [.list (first :: rest)] i j) := by
  have hwords := fun t ht => (h t ht).restores
  unfold Restores at hwords
  choose! g hsay hstarts hreads using hwords
  refine ⟨first, rest, _, rfl, g first ++ rest.flatMap fun t => Token.symbol "," :: g t, ?_,
    ⟨(hstarts first List.mem_cons_self).1.append _, fun hname =>
      ((hstarts first List.mem_cons_self).2 hname).append _⟩, ?_⟩
  · exact .gap _ ((hsay first List.mem_cons_self).append
      (says_more fun t ht => hsay t (mem_cons_of_mem first ht)))
  · intro toks n i j hrow hn hi hend
    have hread : ∀ {t}, t ∈ first :: rest → ∀ {i' k}, i ≤ i' → i' ≤ toks.size → Row toks i' (g t) k →
        Stops toks suffixStarts k → ∃ e, e.essence = t.essence ∧
          Given toks (assignable toks (phrase toks n)) i' e k := by
      intro t ht i' k hle hi' hrow hend
      obtain ⟨e, he, hloop, hkind⟩ := hreads t ht n hrow (by omega) hi' trivial
      have hnode := isNode_of_essence he (isNode_of_isChain (h t ht).kind)
      refine ⟨e, he, assignable_gives (hloop.gives (ne_absent_of_isNode hnode) hend (hrow.end_le hi')) ?_,
        hrow.le fun hw => hw.lt.1, hrow.end_le hi'⟩
      rw [hkind, hkind, hkind]
      exact hvar t ht
    obtain ⟨e, es, k, he, hfirst, hes, hrest⟩ := Row.sequence (F := fun _ => Stops toks suffixStarts)
      (fun hu => hu.stops (by decide)) hi hread hrow fun _ => hend.mono (subset_append_left _ _)
    refine ⟨_, ?_, varList_gives hfirst.gives hrest (hend.mono (List.subset_append_right _ _))
      (hrow.end_le hi)⟩
    rw [essence_made_list (by decide), essence_made_list (by decide), map_cons, map_cons, he,
      map_essence_of_forall₂ hes]

theorem readBack_assignment {op : Token} (hvars : VariablesBack u) (hop : IsLeaf assignOperators op)
    (hexps : ExpressionsBack v) : StatementBack (.made .statAssignment [u, .token op, v] i j) := by
  obtain ⟨first, rest, o, rfl, vs, hsay, hstarts, hreads⟩ := hvars
  obtain ⟨es, hsay', -, hreads'⟩ := hexps
  refine ⟨vs ++ op.unplaced :: es, ?_, ⟨?_, fun hname => ?_⟩, ?_⟩
  · exact .gap _ (hsay.append (.text _ hop.lexeme hop.solid hsay'))
  · exact (hstarts.1.append _).mono (subset_append_left _ _)
  · refine ((hstarts.2 ?_).append _).mono (by decide)
    simpa [Tree.made, Tree.startsOpen] using hname
  · intro toks n i j hrow hn hi hend
    obtain ⟨k, hik, hvs, hrow⟩ := hrow.split
    obtain ⟨a, x, hkx, hx, ha, hab, hrow⟩ := hrow.takes assignOperators hop.fits_unplaced
    obtain ⟨e, he, hvars⟩ := hreads n hvs hn hi (ha.stops (by decide))
    obtain ⟨f, hf, hexps⟩ := hreads'.within n hrow (by omega) (by omega) (hend.list rfl)
    refine ⟨_, ?_, statement_assignment (assignment_gives hvars ha hexps)⟩
    rw [essence_made (by decide), essence_made (by decide)]
    simp only [map_cons, map_nil, he, hf, essence_token, hab]

theorem readBack_callStatement (h : ChainBack t)
    (hcall : (t.isA .functionCall || t.isA .functionCallMethod) = true) :
    StatementBack (.made .statFunctionCall [t] i j) := by
  obtain ⟨ws, hsay, hstarts, hreads⟩ := h.restores
  refine ⟨ws, .gap _ hsay, ⟨hstarts.1.mono (subset_append_left _ _), fun hname => ?_⟩, ?_⟩
  · refine (hstarts.2 ?_).mono (by decide)
    simpa [Tree.made, Tree.startsOpen] using hname
  · intro toks n i j hrow hn hi hend
    obtain ⟨e, he, hloop, hkind⟩ := hreads n hrow hn hi trivial
    have hnode := isNode_of_essence he (isNode_of_isChain h.kind)
    refine ⟨_, by simp [he], statement_call (hloop.gives (ne_absent_of_isNode hnode) (hend.1 rfl)
      (hrow.end_le hi)) ?_⟩
    rw [hkind, hkind, hcall]

/-! ### Blocks within statements -/

theorem readBack_do (h : BlockBack t) : StatementBack (.made .statDo [t] i j) := by
  refine statementBack_led "do" 0 (fun _ _ => rfl) (by decide)
    (by simp only [Tree.made, Tree.script, cons_append, nil_append]; rfl) fun toks n _ _ => ?_
  refine .indent ?_
  refine .part h.read (.dedent (.word (by decide))) fun e he => .dedent (.skip (by decide) ?_)
  exact .made fun _ => ⟨_, rfl, by simp [he]⟩

theorem readBack_while (hexp : ValueBack ByOperations u) (hblock : BlockBack v) :
    StatementBack (.made .statWhile [u, v] i j) := by
  refine statementBack_led "while" 1 (fun _ _ => rfl) (by decide)
    (by simp only [Tree.made, Tree.script, append_assoc, cons_append, nil_append]; rfl) fun toks n _ _ => ?_
  refine .part hexp.valued.read (.word (by decide)) fun e he => .skip (by decide) (.indent ?_)
  refine .part hblock.read (.dedent (.word (by decide))) fun f hf => .dedent (.skip (by decide) ?_)
  exact .made fun _ => ⟨_, rfl, by simp [he, hf]⟩

theorem readBack_repeat (hblock : BlockBack u) (hexp : ValueBack ByOperations v) :
    StatementBack (.made .statRepeat [u, v] i j) := by
  refine statementBack_led "repeat" 2 (fun _ _ => rfl) (by decide)
    (by simp only [Tree.made, Tree.script, append_assoc, cons_append, nil_append]; rfl) fun toks n _ _ => ?_
  refine .indent ?_
  refine .part hblock.read (.dedent (.word (by decide))) fun e he => .dedent (.skip (by decide) ?_)
  refine .last (hexp.expression.inside fun hn hgives => hn ▸ hgives) (fun _ hend => (hend.list (u := v) rfl).1) fun f hf => ?_
  exact .made fun _ => ⟨_, rfl, by simp [he, hf]⟩

/-! ### Conditionals -/

def BranchBack (t : Tree) : Prop :=
  ∃ condition block, t = branch condition block ∧
    (condition = .absent ∨ (condition.isNode = true ∧ Valued condition)) ∧ BlockBack block

def plainBranch (w : Owner) (opening : String) (condition block : Tree) : List Step :=
  .text w (word opening) :: (condition.script true ++ (.text w (word "then") :: .indent ::
    (block.script true ++ [.dedent])))

theorem branchList_plain {condition : Tree} (h : condition.isNode = true) (first : Bool) (rest : List Tree) :
    branchList true w false first (branch condition block :: rest) =
      plainBranch w (if first then "if" else "elseif") condition block ++
        branchList true w false false rest := by
  cases condition with
  | node => simp [branch, branchList, plainBranch]
  | _ => cases h

def FurtherBack (t : Tree) : Prop :=
  ∃ condition block, t = branch condition block ∧ condition.isNode = true ∧ Valued condition ∧
    BlockBack block

theorem FurtherBack.steps (h : FurtherBack t) :
    ∃ steps, branchList true w false false [t] = .text w (word "elseif") :: steps := by
  obtain ⟨condition, block, rfl, hnode, -⟩ := h
  rw [branchList_plain hnode]
  exact ⟨_, rfl⟩

theorem exists_otherwise (h : ∀ t ∈ ts, BranchBack t) (hconditions : ts.dropLast.all hasCondition = true) :
    ∃ (rest : List Tree) (other : Option Tree), ts = rest ++ other.toList.map (branch .absent) ∧ (∀ t ∈ rest, FurtherBack t) ∧
      ∀ t ∈ other, BlockBack t := by
  induction ts with
  | nil => exact ⟨[], none, rfl, nofun, nofun⟩
  | cons t ts ih =>
    obtain ⟨condition, block, rfl, hcondition, hblock⟩ := h t List.mem_cons_self
    cases ts with
    | nil =>
      rcases hcondition with rfl | ⟨hnode, hvalued⟩
      · refine ⟨[], some block, rfl, nofun, ?_⟩
        rintro t ⟨⟩
        exact hblock
      · refine ⟨[branch condition block], none, rfl, ?_, nofun⟩
        intro t ht
        exact ⟨_, _, mem_singleton.mp ht, hnode, hvalued, hblock⟩
    | cons u ts =>
      rw [dropLast_cons_cons, all_cons, Bool.and_eq_true] at hconditions
      obtain ⟨rest, other, heq, hrest, hother⟩ :=
        ih (fun t ht => h t (mem_cons_of_mem _ ht)) hconditions.2
      refine ⟨branch condition block :: rest, other, by rw [heq, cons_append], ?_, hother⟩
      intro t ht
      rcases mem_cons.mp ht with rfl | ht
      · rcases hcondition with rfl | ⟨hnode, hvalued⟩
        · cases hconditions.1
        · exact ⟨_, _, rfl, hnode, hvalued, hblock⟩
      · exact hrest t ht

theorem branchList_further (h : ∀ t ∈ rest, FurtherBack t) :
    branchList true w false false (rest ++ more) =
      (rest.flatMap fun t => branchList true w false false [t]) ++ branchList true w false false more := by
  induction rest with
  | nil => rfl
  | cons t rest ih =>
    obtain ⟨condition, block, rfl, hnode, -⟩ := h t List.mem_cons_self
    rw [cons_append, branchList_plain hnode, ih fun u hu => h u (mem_cons_of_mem _ hu), flatMap_cons,
      branchList_plain hnode, append_assoc, branchList, append_nil]

theorem readBack_conditional {o : Origin} (hfirst : FurtherBack first)
    (hmore : ∀ t ∈ more, BranchBack t) (hconditions : more.dropLast.all hasCondition = true) :
    StatementBack (.node .statIf [.list (first :: more)] o) := by
  obtain ⟨rest, other, rfl, hrest, hother⟩ := exists_otherwise hmore hconditions
  obtain ⟨condition, block, rfl, hnode, hvalued, hblock⟩ := hfirst
  have hscript : (Tree.node .statIf [.list (branch condition block ::
      (rest ++ other.toList.map (branch .absent)))] o).script true =
      .gap o.owner :: .text o.owner (word "if") :: (condition.script true ++ .text o.owner (word "then") :: .indent ::
        (block.script true ++ .dedent :: ((rest.flatMap fun t => branchList true o.owner false false [t]) ++
          (branchList true o.owner false false (other.toList.map (branch .absent)) ++ [.text o.owner (word "end")])))) := by
    rw [Tree.script, branchesScript, Bool.not_true, Bool.and_false, branchList_plain hnode, branchList_further hrest]
    simp [plainBranch]
  have hlast : ∀ {toks : Array Token} {G : Nat → Prop}, Before toks (branchList true o.owner false false
      (other.toList.map (branch .absent)) ++ [.text o.owner (word "end")]) G
      (Stops toks (.exact (Token.keyword "elseif") :: blockGoesOn)) := by
    cases other with
    | none => exact .word (by decide)
    | some t => exact .word (by decide)
  refine statementBack_led "if" 3 (fun _ _ => rfl) (by decide) hscript fun toks n _ _ => ?_
  refine .option hvalued.read (.word (by decide)) fun e he => ?_
  refine .ahead (.next (by decide) .any) (fun _ _ hnext h => hnext.elim fun _ ht => ht.elim fun _ ht =>
    .fromHere (.bind (.firstOf_some (.accept ht.1)) (.goTo h))) ?_
  refine .pass (.word (by decide)) (.skip (by decide) (.indent (.part hblock.read (.dedent ?_) fun f hf => .dedent ?_)))
  · cases rest with
    | nil => exact hlast.imp fun h => h.mono (subset_cons_self _ _)
    | cons t rest =>
      obtain ⟨steps, hsteps⟩ := (hrest t List.mem_cons_self).steps (w := o.owner)
      rw [flatMap_cons, hsteps]
      exact .word (by decide)
  refine .repeated (e := essence) (F := fun _ => Stops toks blockGoesOn) (fun t ht => ?_) (fun t ht => ?_)
    (pairwise_of_forall_mem_list fun _ _ t ht => ?_).isChain (fun _ _ _ h => h.mono (subset_cons_self _ _))
    (fun h => .pass (h.mono (by decide)) (.pure _ _)) hlast fun es hes => ?_
  · obtain ⟨condition, block, rfl, hnode, hvalued, hblock⟩ := hrest t ht
    rw [branchList_plain hnode, plainBranch, branchList, append_nil]
    refine .take (by decide) fun _ => .option hvalued.read (.word (by decide)) fun e he => .skip (by decide) (.indent ?_)
    exact .part hblock.read (.dedent (.nil fun _ => id)) fun f hf => .dedent (.done ⟨_, rfl, by simp [branch, he, hf, Tree.ofOption]⟩)
  · obtain ⟨steps, hsteps⟩ := (hrest t ht).steps (w := o.owner)
    rw [hsteps]
    rintro ⟨⟩
  · obtain ⟨steps, hsteps⟩ := (hrest t ht).steps (w := o.owner)
    rw [hsteps]
    exact .word (by decide)
  cases other with
  | none =>
    refine .pass (.word (by decide)) (.given (.skip (by decide) (.made fun _ => ⟨_, rfl, ?_⟩)))
    simp [branch, he, hf, hes, Tree.ofOption]
  | some t =>
    simp only [Option.toList, map_cons, map_nil, branch, branchList, cons_append, nil_append, append_assoc]
    refine .take (by decide) fun _ => .indent (.part (hother t rfl).read (.dedent (.word (by decide))) fun g hg => ?_)
    refine .given (.dedent (.skip (by decide) (.made fun _ => ⟨_, rfl, ?_⟩)))
    simp [he, hf, hes, hg, Tree.ofOption]

/-! ### Loops -/

theorem readBack_counting {counter : Token} {last : Tree}
    (hcounter : IsLeaf [.kind .name] counter) (hfirst : ValueBack ByOperations first)
    (hlast : ValueBack ByOperations last) (hstep : ∀ t ∈ step, ValueBack ByOperations t)
    (hblock : BlockBack block) :
    StatementBack (.made .statForStep [.token counter, first, last, .ofOption step, block] i j) := by
  have habsent : ∀ t ∈ step, t.isAbsent = false := fun t ht =>
    isAbsent_of_isNode (isNode_of_isExpression (hstep t ht).kind)
  refine statementBack_led "for" 4 (fun _ _ => rfl) (by decide)
    (by simp only [Tree.made, Tree.script, append_assoc, cons_append, nil_append]; rfl) fun toks n _ _ => ?_
  refine .fromHere fun _ => .leaf (.name _ hcounter.lexeme hcounter.solid) hcounter.fits_unplaced
    (fun ht hf => .take ht hf) (Nat.le_succ _) fun c hc => .take (by decide) fun _ => ?_
  refine .part hfirst.valued.read (.word (by decide)) fun e he => .skip (by decide) ?_
  cases step with
  | none =>
    refine .part hlast.valued.read (.word (by decide)) fun f hf => .pass (.word (by decide)) ?_
    refine .given (.skip (by decide) (.indent ?_))
    refine .part hblock.read (.dedent (.word (by decide))) fun g hg => .dedent (.skip (by decide) ?_)
    exact .made fun _ => ⟨_, rfl, by simp [he, hf, hg, hc, Tree.ofToken?, Tree.ofOption]⟩
  | some t =>
    rw [show (Tree.ofOption (some t)).isAbsent = false from habsent t rfl]
    refine .part hlast.valued.read (.word (by decide)) fun f hf => .take (by decide) fun _ => ?_
    refine .part (hstep t rfl).valued.read (.word (by decide)) fun s hs => ?_
    refine .skip (by decide) (.indent ?_)
    refine .part hblock.read (.dedent (.word (by decide))) fun g hg => .dedent (.skip (by decide) ?_)
    exact .made fun _ => ⟨_, rfl, by simp [he, hf, hg, hc, hs, Tree.ofToken?, Tree.ofOption]⟩

theorem exists_takes_of_nameList {toks : Array Token} {e : Tree} (h : Gives (nameList toks) i (some e) m)
    (hstop : Stops toks (signs ["="]) m) :
    ∃ a x, Takes toks [.kind .name] i a x ∧ Stops toks (signs ["="]) (x + 1) := by
  by_cases hname : ∃ a x, Takes toks [.kind .name] i a x
  · obtain ⟨a, x, ha⟩ := hname
    refine ⟨a, x, ha, fun u y hu => hstop u y ?_⟩
    have hone := nameList_gives ha (.nil _) ha.lt_size fun v z hv => absurd hv (hu.stops (by decide) v z)
    rw [(h.eq hone).2]
    exact hu
  · exact nomatch (h.eq (nameList_none fun a x ha => hname ⟨a, x, ha⟩)).1

theorem readBack_walking {names exps : Tree} (hnames : NamesBack names) (hexps : ExpressionsBack exps)
    (hblock : BlockBack block) : StatementBack (.made .statForIn [names, exps, block] i j) := by
  refine statementBack_led "for" 4 (fun _ _ => rfl) (by decide)
    (by simp only [Tree.made, Tree.script, append_assoc, cons_append, nil_append]; rfl) fun toks n _ _ => ?_
  have hread : Rereads toks (toks.size - n + 1) (names.script true) (Stops toks (signs [",", "="]))
      (Gives (nameList toks)) (Like names) :=
    hnames.read.weaken fun h => .of_stops (h.mono (by decide))
  -- without the sign of a counting loop the names are read again
  refine .via hread (.word (by decide)) (fun hstop hnames hrest =>
    (exists_takes_of_nameList hnames (hstop.mono (by decide))).elim fun _ h => h.elim fun _ h =>
      .fromHere (.take h.1 (.pass h.2 (.goTo (.need hnames hrest))))) fun e he => ?_
  refine .skip (by decide) ?_
  refine .part hexps.read (.imp (.word (by decide)) .of_stops) fun f hf => .skip (by decide) (.indent ?_)
  refine .part hblock.read (.dedent (.word (by decide))) fun g hg => .dedent (.skip (by decide) ?_)
  exact .made fun _ => ⟨_, rfl, by simp [he, hf, hg]⟩

/-! ### Functions and local variables -/

theorem readBack_namedFunction (hpath : PathBack u) (hbody : BodyBack v) :
    StatementBack (.made .statFunction [u, v] i j) := by
  refine statementBack_led "function" 5 (fun _ _ => rfl) (by decide)
    (by simp only [Tree.made, Tree.script, cons_append, nil_append]; rfl) fun toks n _ _ => ?_
  refine .part (Restores.rereads (n := n) hpath (by omega)) (Restores.before hbody id (by decide)) fun e he => ?_
  refine .last (Restores.rereads hbody (by omega)) (fun _ _ => trivial) fun f hf => ?_
  exact .made fun _ => ⟨_, rfl, by simp [he, hf]⟩

theorem readBack_localFunction (ha : IsLeaf [.kind .name] a) (hbody : BodyBack v) :
    StatementBack (.made .statLocalFunction [.token a, v] i j) := by
  refine statementBack_led "local" 6 (fun _ _ => rfl) (by decide)
    (by simp only [Tree.made, Tree.script, cons_append, nil_append]; rfl) fun toks n _ _ => ?_
  refine .take (by decide) fun _ => .leaf (.name _ ha.lexeme ha.solid) ha.fits_unplaced
    (fun ht hf => .expect ht hf) (Nat.le_succ _) fun b hb => ?_
  refine .last (Restores.rereads hbody (by omega)) (fun _ _ => trivial) fun e he => ?_
  exact .made fun _ => ⟨_, rfl, by simp [he, hb]⟩

theorem readBack_locals (hnames : NamesBack u) (hexps : ∀ t ∈ exps, t.isNode = true ∧ ExpressionsBack t) :
    StatementBack (.made .statLocalAssignment [u, .ofOption exps] i j) := by
  refine statementBack_led "local" 6 (fun _ _ => rfl) (by decide)
    (by simp only [Tree.made, Tree.script, cons_append, nil_append]; rfl) fun toks n _ _ => ?_
  have hfirst : ∀ {i e k}, Gives (nameList toks) i (some e) k → Stops toks [.exact (Token.keyword "function")] i :=
    fun hp u x hu => absurd (hp.eq (nameList_none (hu.stops (by decide)))).1 (Option.some_ne_none _)
  cases exps with
  | none =>
    refine .via hnames.read (.nil fun _ hend => .of_stops (hend.2.mono (by decide)))
      (fun _ hp hq => .pass (hfirst hp) (.need hp hq)) fun e he => ?_
    exact .pass (.nil fun _ hend => hend.2.mono (by decide)) (.made fun _ => ⟨_, rfl, by simp [he, Tree.ofOption]⟩)
  | some t =>
    obtain ⟨hnode, hback⟩ := hexps t rfl
    rw [show (Tree.ofOption (some t)).isAbsent = false from isAbsent_of_isNode hnode]
    refine .via hnames.read (.imp (.word (by decide)) .of_stops) (fun _ hp hq => .pass (hfirst hp) (.need hp hq))
      fun e he => .take (by decide) fun _ => ?_
    refine .last hback.read (fun _ hend => hend.list rfl) fun f hf => ?_
    exact .made fun _ => ⟨_, rfl, by simp [he, hf, Tree.ofOption]⟩

theorem readBack_goto (ha : IsLeaf [.kind .name] a) : StatementBack (.made .statGoto [.label a.data] i j) := by
  have hkind : a.kind = .name := by
    obtain ⟨p, hp, hfits⟩ := ha.fits
    rw [mem_singleton.mp hp] at hfits
    simpa [Token.fits] using hfits
  have hlexeme : Lexeme a.data a.unplaced := by
    rw [← Token.code_of_ne_string (by rw [hkind]; decide)]
    exact ha.lexeme
  refine statementBack_led "goto" 7 (fun _ _ => rfl) (by decide)
    rfl fun toks n _ _ => ?_
  refine .leaf (.label _ hlexeme ha.solid) ha.fits_unplaced (fun ht hf => .expect ht hf) (Nat.le_succ _) fun b hb => ?_
  have hdata : b.data = a.data := (congrArg Token.data hb :)
  exact .made fun _ => ⟨_, rfl, by simp [hdata]⟩

/-! ### Blocks -/

def LastBack (t : Tree) : Prop :=
  Restores (t.script true) t (StartsIn lastStarts) (By lastStatement) (Unless blockGoesOn)

theorem readBack_break : LastBack (.made .statBreak [] i j) := by
  refine Rereads.restores (.word (by decide)) fun toks n => ?_
  exact .gap (.fromHere fun _ => .lead (by decide) fun _ => .made fun _ => ⟨_, rfl, by simp⟩)

theorem readBack_return (hexps : ∀ t ∈ exps, t.isNode = true ∧ ExpressionsBack t) :
    LastBack (.made .statReturn [.ofOption exps] i j) := by
  refine Rereads.restores (.word (by decide)) fun toks n => ?_
  refine .gap (.fromHere fun _ => .pass (.word (by decide)) (.lead (by decide) fun _ => ?_))
  rw [← append_nil (ite _ _ _)]
  exact .expressions hexps (.nil fun _ hend => hend.mono (by decide)) fun es hes => .made fun _ => ⟨_, rfl, by simp [hes]⟩

theorem isChain_of_separable {us : List Tree} (h : separable (ts ++ us) = true) :
    ts.IsChain fun s t => (s.isOpen && t.startsOpen) = false := by
  induction ts with
  | nil => exact .nil
  | cons s ts ih =>
    cases ts with
    | nil => exact .singleton s
    | cons t ts =>
      rw [cons_append, cons_append, separable, Bool.and_eq_true, Bool.not_eq_true'] at h
      exact .cons_cons h.1 (ih h.2)

theorem statsScript_eq (ts : List Tree) :
    statsScript true w ts = ts.flatMap fun t => .semicolons w :: t.script true := by
  induction ts with
  | nil => rfl
  | cons t ts ih => rw [statsScript, ih, flatMap_cons, cons_append]

def statementGoesOn : List Pattern :=
  .exact (Token.symbol ";") :: (statementStarts ++ (valueGoesOn ++ signs [",", "="]))

theorem readBack_block {stats : List Tree} (hstats : ∀ t ∈ stats, StatementBack t)
    (hlast : ∀ t ∈ last, LastBack t) (hseparable : separable (stats ++ last.toList) = true) :
    BlockBack (.made .chunk [.list (stats ++ last.toList)] i j) := by
  refine Rereads.restores (fun _ => trivial) fun toks n => ?_
  rw [Tree.made, Tree.script, blockScript, statsScript_eq, flatMap_append, append_assoc]
  -- no semicolon comes before a statement
  have hpass : ∀ {k steps rest β R} {f : Unit → Parse β}, Before toks steps rest (Stops toks [.exact (Token.symbol ";")]) →
      Rereads toks k steps rest (Gives (f ())) R → Rereads toks k steps rest (Gives (semicolons toks >>= f)) R :=
    fun hend h => h.ahead hend fun _ _ hk hf => .bind (.semicolons hk) hf
  have hends : ∀ {w qs rest}, ∀ t ∈ last, (∀ p ∈ lastStarts, ∀ q ∈ qs, p.meets q = false) →
      Before toks (t.script true ++ [.semicolons w]) rest (Stops toks qs) := by
    intro w qs rest t ht hqs
    obtain ⟨ws, hsay, hstarts, hreads⟩ := hlast t ht
    exact .append ((hlast t ht).before id hqs) hsay (.semicolons _ .nil)
  refine .gap (.fromHere fun _ => .repeated (e := essence) (F := fun t => StatementEnd t toks)
    (G := Stops toks statementGoesOn) (fun t ht => ?_) (fun t ht hnil => ?_)
    ((isChain_of_separable hseparable).imp_of_mem_imp fun s t _ ht hapart => .semicolons ?_) ?_ ?_ ?_ fun es hes => ?_)
  · refine .semicolons (hpass ?_ ((hstats t ht).rereads (by omega)))
    exact (hstats t ht).before And.left (by decide)
  · cases hnil with
    | semicolons _ hnil =>
      obtain ⟨ws, hsay, ⟨⟨_, _, rfl, -⟩, -⟩, -⟩ := hstats t ht
      cases hnil.eq hsay
  · intro ws i j hsay hrow _
    refine ⟨fun hopen => ?_, (hstats t ht).before (F := fun _ => True) And.left (by decide) _ _ j hsay hrow trivial⟩
    rw [hopen, Bool.true_and] at hapart
    exact (hstats t ht).before (F := fun _ => True) (fun h => h.2 hapart) (by decide) _ _ j hsay hrow trivial
  · exact fun t _ j hend => ⟨fun _ => hend.mono (by decide), hend.mono (by decide)⟩
  · exact fun hend => .bind (.semicolons (hend.mono (by decide))) (statement_none (hend.mono (by decide)))
  · cases last with
    | none => exact .semicolons (.nil fun _ hend => hend.mono (by decide))
    | some t =>
      rw [Option.toList_some, flatMap_singleton]
      exact .semicolons (hends t rfl (by decide))
  · cases last with
    | none =>
      refine .semicolons (hpass (.nil fun _ hend => hend.mono (by decide)) (.miss (.nil fun _ => id)
        (fun _ _ hend => lastStatement_none (hend.mono (by decide))) ?_))
      exact hpass (.nil fun _ hend => hend.mono (by decide)) (.made fun _ => ⟨_, rfl, by simp [hes]⟩)
    | some t =>
      rw [Option.toList_some, flatMap_singleton]
      refine .semicolons (hpass (hends t rfl (by decide)) ?_)
      refine .option ((hlast t rfl).rereads (by omega)) (.semicolons (.nil fun _ => id)) fun e he => .semicolons ?_
      exact hpass (.nil fun _ hend => hend.mono (by decide)) (.made fun _ => ⟨_, rfl, by simp [hes, he]⟩)

end Grammar
end Cartridge.Lua
