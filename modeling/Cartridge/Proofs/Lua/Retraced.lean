import Cartridge.Proofs.Lua.InStep

/-!
# Tables, conditionals and whole programs in step
-/

namespace Cartridge.Lua

open List Lua.Tree Grammar
namespace Grammar

open Pen

variable {block condition : Tree} {exps other : Option Tree} {m n : Nat} {o : Origin} {rest : List Tree}
  {t : Token}

section Tables

variable {toks : Array Token} {i j : Nat}

theorem mem_between {ps : List Pattern} {k : Nat} (h : Takes toks ps i t m) (hk : k ≤ m) (hm : m < j) :
    t ∈ between toks k j := by
  rw [← between_append hk (Nat.le_of_lt hm), between_cons h.get hm]
  exact mem_append_right _ (.head _)

theorem Derived.eq_of_clear {t : Tree} {k : Nat} (h : Derived toks .nothing t i k) (hn : n ≤ i) (hk : k ≤ j)
    (hclear : ∀ u ∈ between toks n j, u.agrees (Token.symbol "(") = false) : i = k := by
  rcases h.eq_or_takes with heq | ⟨u, m, htakes, hm⟩
  · exact heq
  · have hle := htakes.blank.le
    have hmem : u ∈ between toks n j := mem_between htakes (by omega) (by omega)
    have hopen := agrees_of_takes_sign htakes
    rw [hclear u hmem] at hopen
    cases hopen

theorem isWord_of_separator (h : Takes toks ([Word.sign ",", Word.sign ";"].map Word.pattern) i t m) :
    IsWord t t.code ∧ (t.agrees (Token.symbol ",") || t.agrees (Token.symbol ";")) = true := by
  refine ⟨isWord_of_operator rfl h, ?_⟩
  simpa [Word.pattern, Word.token, Token.fits] using h.fits

theorem traces_closing {closing : Bool} (hn : n ≤ i) (row : Spans toks (Reached toks)
      ((if closing then [Item.separator, .part .nothing .absent] else []) ++ [Item.sign "\x7d"]) i j)
    (hclear : ∀ u ∈ between toks n j, u.agrees (Token.symbol "(") = false) :
    Traces toks [.dedent, .gap (.upTo j), .lastSeparator (.upTo j), .text (.upTo j) (Tree.word "\x7d")]
      i j := by
  cases closing with
  | false =>
    obtain ⟨u, m, htakes, row⟩ := row.of_word
    cases row
    have hagrees := agrees_of_takes_sign htakes
    have hnone : (u.agrees (Token.symbol ",") || u.agrees (Token.symbol ";")) = false := by
      rw [not_agrees_of_symbol hagrees (by decide), not_agrees_of_symbol hagrees (by decide)]
      rfl
    have hbrace := traces_text htakes.self (Nat.lt_succ_self m) (isWord_of_agrees_symbol hagrees)
    exact (traces_dedent toks i).append ((htakes.gap (Nat.lt_succ_self m)).append
      ((traces_lastSeparator_none htakes.get hnone).append hbrace))
  | true =>
    obtain ⟨u, m, htakes, row⟩ := row.of_word
    obtain ⟨k, hnothing, row⟩ := row.of_part
    obtain ⟨u', m', hlast, row⟩ := row.of_word
    cases row
    have him := htakes.blank.le
    have hmk := hnothing.1.le
    have hkm := hlast.blank.le
    have hsame : m + 1 = k := hnothing.1.eq_of_clear (j := m' + 1) (by omega) (by omega) hclear
    subst hsame
    obtain ⟨hword, hmark⟩ := isWord_of_separator htakes
    have hseparator := traces_lastSeparator htakes.self (by omega : m < m' + 1) hword hmark
    have hbrace := traces_text hlast (Nat.lt_succ_self m')
      (isWord_of_agrees_symbol (agrees_of_takes_sign hlast))
    exact (traces_dedent toks i).append ((htakes.gap (by omega)).append (hseparator.append hbrace))

theorem traces_fields {stop : Nat}
    (row : Spans toks (Followed toks) (rest.flatMap fun t => [.separator, .part .field t]) i j)
    (hj : j ≤ stop) : Traces toks (moreFieldsScript false (.upTo stop) rest) i j := by
  induction rest generalizing i with
  | nil =>
    cases row
    exact .nil toks _
  | cons t rest ih =>
    obtain ⟨u, m, htakes, row⟩ := row.of_word
    obtain ⟨k, hpart, row⟩ := row.of_part
    have hmk := hpart.le
    have hkj := row.le Followed.le
    have hseparator := traces_separator htakes.self (by omega : m < stop) (isWord_of_separator htakes).1
    rw [moreFieldsScript]
    exact (htakes.gap (by omega)).append (hseparator.append ((hpart.follows.traces hmk).append (ih row)))

theorem stop?_getLast? (hrest : rest ≠ [])
    (row : Spans toks (Reached toks) (rest.flatMap fun t => [.separator, .part .field t]) i j) :
    rest.getLast?.bind Tree.stop? = some j := by
  induction rest generalizing i with
  | nil => exact absurd rfl hrest
  | cons t rest ih =>
    obtain ⟨_, _, htakes, row⟩ := row.of_word
    obtain ⟨_, hpart, row⟩ := row.of_part
    cases rest with
    | nil =>
      cases row
      exact hpart.1.stop?_eq rfl
    | cons t' rest =>
      rw [getLast?_cons_cons]
      exact ih (cons_ne_nil _ _) row

theorem Derived.start?_eq {t : Tree} (h : Derived toks .field t i j) : t.start? = some i := by
  obtain ⟨rule, row⟩ := h
  cases rule <;> rfl

theorem script_table (fields : List Tree) :
    (Tree.made .tableConstructor [.list fields] i j).script false =
      .gap (.upTo j) :: .text (.upTo j) (Tree.word "\x7b") :: .indent ::
        ((match fields with
          | [] => []
          | t :: ts => t.script false ++ moreFieldsScript false (.upTo j) ts) ++
          [.dedent, .gap (.upTo j), .lastSeparator (.upTo j), .text (.upTo j) (Tree.word "\x7d")]) := by
  cases fields with
  | nil => rfl
  | cons t ts =>
    simp only [Tree.made, Tree.script, fieldsScript, isGiven, isEmpty_cons,
      Bool.not_false, reduceIte, append_assoc]
    rfl

theorem follows_table {ps : List Pattern} {fields : List Tree} (hopen : Takes toks ps i t m) (hm : m < j)
    (hbrace : t.agrees (Token.symbol "\x7b") = true) (h : Traces toks ((match fields with
          | [] => []
          | t :: ts => t.script false ++ moreFieldsScript false (.upTo j) ts) ++
          [.dedent, .gap (.upTo j), .lastSeparator (.upTo j), .text (.upTo j) (Tree.word "\x7d")])
        (m + 1) j) : Follows toks ((Tree.made .tableConstructor [.list fields] i j).script false) i j := by
  intro p hp hle
  rw [script_table]
  have htext := traces_text hopen.self hm (isWord_of_agrees_symbol hbrace)
  exact ((hopen.moved hp).gap hm).append (htext.append ((traces_indent toks (m + 1)).append h))

theorem clear_of_all (h : (between toks n j).all (fun t => !t.agrees (Token.symbol "(")) = true) :
    ∀ u ∈ between toks n j, u.agrees (Token.symbol "(") = false := by
  simpa using h

theorem table_inStep {first : Option Tree} {closing : Bool}
    (row : Spans toks (Reached toks) (.sign "\x7b" :: ((match first with
        | some t => [Item.part .field t]
        | none => [Item.part .nothing .absent]) ++
      (rest.flatMap (fun t => [Item.separator, .part .field t]) ++
        ((if closing then [Item.separator, .part .nothing .absent] else []) ++ [Item.sign "\x7d"])))) i j)
    (hsize : j < toks.size) :
    InStep toks .table (.made .tableConstructor [.list (first.toList ++ rest)] i j) i j := by
  refine .of_follows rfl fun hgood => ?_
  have hall : fieldsStandFree toks { span := some ⟨i, j⟩ } (first.toList ++ rest) = true ∧
      ∀ t ∈ first.toList ++ rest, t.legible toks = true := by
    rw [← legibleAll_iff, ← Bool.and_eq_true]
    exact hgood
  obtain ⟨hfree, hlegible⟩ := hall
  rw [fieldsStandFree, Bool.and_eq_true] at hfree
  obtain ⟨u, m, hopen, row⟩ := row.of_word
  have hbrace := agrees_of_takes_sign hopen
  have hle := row.le fun h => h.1.le
  refine follows_table hopen (by omega) hbrace ?_
  cases first with
  | some f =>
    obtain ⟨k, hfirst, row⟩ := row.of_part
    have hrow : Spans toks (Reached toks) (rest.flatMap (fun t => [Item.separator, .part .field t]) ++
        ((if closing then [Item.separator, .part .nothing .absent] else []) ++ [Item.sign "\x7d"])) k j :=
      row
    obtain ⟨n, hrest, hclosing⟩ := Spans.append_iff.mp hrow
    have hkn := hrest.le fun h => h.1.le
    have hnj := hclosing.le fun h => h.1.le
    have hlast : ((some f).toList ++ rest).getLast?.bind Tree.stop? = some n := by
      cases rest with
      | nil =>
        cases hrest
        exact hfirst.1.stop?_eq rfl
      | cons t rest =>
        rw [getLast?_append_of_ne_nil _ (cons_ne_nil _ _)]
        exact stop?_getLast? (cons_ne_nil _ _) hrest
    rw [hlast] at hfree
    have hclear := clear_of_all hfree.2
    have hfield := (hfirst.2 (by omega)).follows (hlegible f (.head _))
    have hfields := traces_fields (hrest.followed (by omega)
      (.flatMap fun t ht => ⟨hlegible t (.tail _ ht), trivial⟩)) hnj
    exact ((hfield.traces hfirst.1.le).append hfields).append
      (traces_closing (Nat.le_refl n) hclosing hclear)
  | none =>
    obtain ⟨k, hnothing, row⟩ := row.of_part
    cases rest with
    | nil =>
      have hclear := clear_of_all (n := i) hfree.2
      have him := hopen.blank.le
      have hkj := row.le fun h => h.1.le
      have hsame : m + 1 = k := hnothing.1.eq_of_clear (j := j) (by omega) hkj hclear
      subst hsame
      exact traces_closing (by omega : i ≤ m + 1) row hclear
    | cons t rest =>
      -- the first field would stand behind a separator
      obtain ⟨u', n, htakes, row⟩ := row.of_word
      obtain ⟨_, hpart, row⟩ := row.of_part
      have hhead : (Token.symbol "\x7b").isAt toks (t.start?.map (· - 1)) = true := hfree.1
      rw [hpart.1.start?_eq, Option.map_some, Nat.add_sub_cancel, isAt_iff] at hhead
      obtain ⟨v, hv, hbrace'⟩ := hhead
      rw [htakes.get, Option.some.injEq] at hv
      subst hv
      have hmark := (isWord_of_separator htakes).2
      rw [not_agrees_of_symbol hbrace' (by decide), not_agrees_of_symbol hbrace' (by decide)]
        at hmark
      cases hmark

end Tables

/-! ### Conditionals -/

section Conditionals

variable {toks : Array Token} {i j : Nat}

theorem branch_inStep (hreg : Regular toks)
    (row : Spans toks (Reached toks) [.reserved "elseif", .part .perhaps condition, .reserved "then",
      .part .block block] i j) (hsize : j < toks.size) :
    InStep toks .branch (branch condition block) i j := by
  refine ⟨False.elim, by simp, ?_⟩
  intro _ c b heq hne hc hb stop hstop
  cases heq
  exact Scripted.traces hreg (.word (.part (.word (.indent (.part (.dedent .nil)))))) (row.followed hsize ⟨⟨hne, hc⟩, hb, trivial⟩) hstop

theorem Derived.of_branch {t : Tree} (h : Derived toks .branch t i j) :
    ∃ condition block, t = branch condition block ∧ block.stop? = some j ∧
      ∃ u m, Takes toks ([Word.reserved "elseif"].map Word.pattern) i u m := by
  obtain ⟨rule, row⟩ := h
  cases rule with
  | branch _ _ condition block =>
    obtain ⟨_, _, htakes, row⟩ := row.of_word
    obtain ⟨_, _, row⟩ := row.of_part
    obtain ⟨_, _, _, row⟩ := row.of_word
    obtain ⟨_, hblock, row⟩ := row.of_part
    cases row
    exact ⟨condition, block, rfl, hblock.stop?_eq rfl, _, _, htakes⟩

theorem isFrom_of_reserved {w w' : String} (h : Takes toks ([Word.reserved w].map Word.pattern) i t m)
    (hne : Bytes.lower (Bytes.ofText w) ≠ Bytes.lower (Bytes.ofText w')) :
    (Token.keyword w').isFrom toks (some i) = false := by
  rw [isFrom_of_takes h, ← Bool.not_eq_true]
  intro h'
  have hagrees : t.agrees (Token.keyword w) = true := by
    simpa [Word.pattern, Word.token, Token.fits] using h.fits
  have hkind : t.kind = .keyword := kind_of_takes_word h
  simp only [Token.agrees, hkind, Token.keyword, beq_self_eq_true, Bool.true_and, reduceIte,
    beq_iff_eq] at hagrees h'
  exact hne (hagrees.symm.trans h')

theorem legibleBranches_cons {before : Option Nat} (hne : condition ≠ .absent) (rest : List Tree) :
    Tree.legibleBranches toks o before (branch condition block :: rest) =
      ((if o.short then isExpression condition
        else (Token.keyword "then").isFrom toks condition.stop?) &&
        condition.legible toks && block.legible toks &&
          Tree.legibleBranches toks o block.stop? rest) := by
  cases condition with
  | absent => exact absurd rfl hne
  | _ => rfl

theorem legibleBranches_absent {before : Option Nat} (rest : List Tree) :
    Tree.legibleBranches toks o before (branch .absent block :: rest) =
      ((Token.keyword "else").isFrom toks before && block.legible toks &&
        Tree.legibleBranches toks o block.stop? rest) :=
  rfl

theorem branchList_cons {w : Owner} {first : Bool} (hne : condition ≠ .absent) (rest : List Tree) :
    branchList false w false first (branch condition block :: rest) =
      .text w (Tree.word (if first then "if" else "elseif")) :: (condition.script false ++
        (.text w (Tree.word "then") :: .indent :: (block.script false ++
          (.dedent :: branchList false w false false rest)))) := by
  cases condition with
  | absent => exact absurd rfl hne
  | _ =>
    simp only [branch, branchList, Bool.false_eq_true, reduceIte, append_assoc]
    rfl

theorem branchList_short {w : Owner} (hne : condition ≠ .absent) (rest : List Tree) :
    branchList false w true true (branch condition block :: rest) =
      .text w (Tree.word "if") :: .text w (Tree.word "(") :: .indent :: (condition.script false ++
        (.dedent :: .text w (Tree.word ")") :: (block.script false ++
          branchList false w true false rest))) := by
  cases condition with
  | absent => exact absurd rfl hne
  | _ =>
    simp only [branch, branchList, reduceIte, append_assoc]
    rfl

theorem branchList_absent (w : Owner) (short : Bool) (block : Tree) :
    branchList false w short false [branch .absent block] =
      .text w (Tree.word "else") :: .indent :: (block.script false ++ [.dedent]) := by
  simp only [branch, branchList, append_nil]
  rfl

theorem traces_branches (hreg : Regular toks)
    (row : Spans toks (Reached toks) (rest.flatMap (fun t => [Item.part .branch t]) ++
      (other.toList.flatMap (fun b => [Item.reserved "else", .part .block b]) ++ [Item.reserved "end"])) i j)
    (hsize : j < toks.size) (hlegible : Tree.legibleBranches toks o (some i)
      (rest ++ other.toList.map (branch .absent)) = true) :
    Traces toks (branchList false (.upTo j) false false
        (rest ++ other.toList.map (branch .absent)) ++
      [.text (.upTo j) (Tree.word "end")]) i j := by
  induction rest generalizing i with
  | nil =>
    cases other with
    | none =>
      exact Scripted.traces hreg (.word .nil) (row.followed hsize trivial)
        (Nat.le_refl j)
    | some b =>
      have hb : b.legible toks = true := by
        have h := hlegible
        rw [nil_append, Option.toList_some, map_singleton, legibleBranches_absent,
          Bool.and_eq_true, Bool.and_eq_true] at h
        exact h.1.2
      rw [nil_append, Option.toList_some, map_singleton, branchList_absent, List.cons_append,
        List.cons_append, append_assoc]
      exact Scripted.traces hreg (.word (.indent (.part (.dedent
        (.word .nil))))) (row.followed hsize ⟨hb, trivial⟩) (Nat.le_refl j)
  | cons t rest ih =>
    obtain ⟨k, hpart, hrow⟩ := row.of_part
    obtain ⟨condition, block, rfl, hstop, u, m, htakes⟩ := hpart.1.of_branch
    have hkj := hrow.le fun h => h.1.le
    have hne : condition ≠ .absent := by
      rintro rfl
      rw [List.cons_append, legibleBranches_absent, isFrom_of_reserved htakes (by decide)] at hlegible
      cases hlegible
    rw [List.cons_append, legibleBranches_cons hne, Bool.and_eq_true, Bool.and_eq_true,
      Bool.and_eq_true, hstop] at hlegible
    obtain ⟨⟨⟨-, hc⟩, hb⟩, hrest⟩ := hlegible
    have hbranch := (hpart.2 (by omega)).branches rfl _ _ rfl hne hc hb j hkj
    rw [List.cons_append, branchList_cons hne]
    simpa [branchSteps] using hbranch.append (ih hrow hrest)

theorem script_longIf (pairs : List Tree) :
    (Tree.made .statIf [.list pairs] i j).script false =
      .gap (.upTo j) :: (branchList false (.upTo j) false true pairs ++
        [.text (.upTo j) (Tree.word "end")]) :=
  rfl

theorem script_shortIf (pairs : List Tree) :
    (node .statIf [.list pairs] { span := some ⟨i, j⟩, short := true }).script false =
      .gap (.upTo j) :: (branchList false (.upTo j) true true pairs ++ []) :=
  rfl

theorem longIf_inStep (hreg : Regular toks)
    (row : Spans toks (Reached toks) ([Item.reserved "if", .part .perhaps condition,
        .word [.reserved "then", .reserved "do"], .part .block block] ++
      (rest.flatMap (fun t => [Item.part .branch t]) ++
        (other.toList.flatMap (fun b => [Item.reserved "else", .part .block b]) ++ [Item.reserved "end"]))) i j)
    (hsize : j < toks.size) :
    InStep toks .statement (.made .statIf [.list (branch condition block :: rest ++
      other.toList.map (branch .absent))] i j) i j := by
  refine .of_follows rfl fun hgood => ?_
  have hlegible : Tree.legibleBranches toks { span := some ⟨i, j⟩ } (some i)
      (branch condition block :: (rest ++ other.toList.map (branch .absent))) = true :=
    hgood
  obtain ⟨u, m, hif, row⟩ := row.of_word
  obtain ⟨k, hcondition, row⟩ := row.of_part
  obtain ⟨u', n, hthen, row⟩ := row.of_word
  obtain ⟨k', hblock, row⟩ := row.of_part
  have hmk := hcondition.1.le
  have hkn := hthen.blank.le
  have hnk := hblock.1.le
  have hkj := row.le fun h => h.1.le
  have hne : condition ≠ .absent := by
    rintro rfl
    rw [legibleBranches_absent, isFrom_of_reserved hif (by decide)] at hlegible
    cases hlegible
  have hexp := hcondition.1.of_perhaps hne
  rw [legibleBranches_cons hne, hexp.stop?_eq rfl, hblock.1.stop?_eq rfl, isFrom_of_takes hthen,
    Bool.and_eq_true, Bool.and_eq_true, Bool.and_eq_true] at hlegible
  obtain ⟨⟨⟨hword, hc⟩, hb⟩, hrest⟩ := hlegible
  -- the word behind the condition is `then`
  have hthen' : Takes toks ([Word.reserved "then"].map Word.pattern) k u' n :=
    ⟨hthen.blank, hthen.get, hthen.solid, _, .head _, hword⟩
  have hfirst : Spans toks (Followed toks) [.reserved "if", .part .perhaps condition,
      .reserved "then", .part .block block] i k' := by
    refine Spans.followed (.word hif (.part hcondition (.word hthen' (.part hblock (.nil _)))))
      (by omega) ⟨⟨hne, hc⟩, hb, trivial⟩
  have hmore := traces_branches hreg row hsize hrest
  rw [List.cons_append, script_longIf]
  refine Follows.gap ?_ (Nat.le_of_lt hsize)
  intro p hp hle
  have htraces := Scripted.traces hreg (.word (.part (.word (.indent (.part (.dedent .nil))))))
    (hfirst.moved rfl hp) hkj
  rw [branchList_cons hne]
  simpa [Word.token, Token.keyword, Tree.word] using htraces.append hmore

theorem traces_otherBranch (hreg : Regular toks) (row : Spans toks (Reached toks)
      (other.toList.flatMap fun b => [.reserved "else", .part .block b]) i j) (hsize : j < toks.size)
    {start : Nat} (hlegible : Tree.legibleBranches toks { span := some ⟨start, j⟩, short := true }
      (some i) (otherBranch other) = true) :
    Traces toks (branchList false (.upTo j) true false (otherBranch other)) i j := by
  cases other with
  | none =>
    cases row
    exact .nil toks _
  | some b =>
    have hrow : Spans toks (Reached toks) [.reserved "else", .part .block b] i j := row
    by_cases hb : hasStatements b = true
    · have hother : otherBranch (some b) = [branch .absent b] := if_pos hb
      rw [hother, legibleBranches_absent, Bool.and_eq_true, Bool.and_eq_true] at hlegible
      rw [hother, branchList_absent]
      exact Scripted.traces hreg (.word (.indent (.part (.dedent .nil))))
        (hrow.followed hsize ⟨hlegible.1.2, trivial⟩) (Nat.le_refl j)
    · -- an empty block is dropped with its `else`, which the pen would have to pass over
      have hother : otherBranch (some b) = [] := if_neg hb
      rw [hother] at hlegible
      have hij : i = j := by simpa [Tree.legibleBranches] using hlegible
      obtain ⟨_, _, htakes, rest⟩ := hrow.of_word
      have him := htakes.blank.le
      have hmj := rest.le fun h => h.1.le
      omega

theorem shortIf_inStep (hreg : Regular toks) {bare : Tree} (h : condition.field .value = .ok bare)
    (row : Spans toks (Reached toks) ([Item.reserved "if", .part .expression condition, .part .block block] ++
      other.toList.flatMap fun b => [Item.reserved "else", .part .block b]) i j) (hsize : j < toks.size) :
    InStep toks .statement (.node .statIf [.list (branch bare block :: otherBranch other)]
      { span := some ⟨i, j⟩, short := true }) i j := by
  refine .of_follows rfl fun hgood => ?_
  have hlegible : Tree.legibleBranches toks { span := some ⟨i, j⟩, short := true } (some i)
      (branch bare block :: otherBranch other) = true :=
    hgood
  obtain ⟨u, m, hif, row⟩ := row.of_word
  obtain ⟨k, hcondition, row⟩ := row.of_part
  obtain ⟨k', hblock, hother⟩ := row.of_part
  have hmk := hcondition.1.le
  have hkk := hblock.1.le
  have hkj := hother.le fun h => h.1.le
  have hne : bare ≠ .absent := by
    rintro rfl
    rw [legibleBranches_absent, isFrom_of_reserved hif (by decide)] at hlegible
    cases hlegible
  rw [legibleBranches_cons hne, hblock.1.stop?_eq rfl, Bool.and_eq_true, Bool.and_eq_true,
    Bool.and_eq_true] at hlegible
  obtain ⟨⟨⟨hbare, hc⟩, hb⟩, hrest⟩ := hlegible
  obtain ⟨o, rfl⟩ := hcondition.1.eq_of_value (.inl rfl) h
  have hinner := ((hcondition.2 (by omega)).nested (.inl rfl)).bare bare o rfl hbare
  have hfirst : Spans toks (Followed toks) [.reserved "if", .sign "(", .part .expression bare,
      .sign ")", .part .block block] i k' := by
    obtain ⟨_, _, hopen, hinner⟩ := hinner.of_word
    obtain ⟨_, hpart, hinner⟩ := hinner.of_part
    obtain ⟨_, _, hclose, hinner⟩ := hinner.of_word
    cases hinner
    have hfollows := (hblock.2 (by omega)).follows hb
    exact .word hif (.word hopen (.part (hpart hc) (.word hclose
      (.part ⟨hkk, hblock.1.opens, hfollows⟩ (.nil _)))))
  have hmore := traces_otherBranch hreg hother hsize hrest
  rw [script_shortIf, branchList_short hne, append_nil]
  refine Follows.gap ?_ (Nat.le_of_lt hsize)
  intro p hp hle
  have htraces := Scripted.traces hreg (.word (.word (.indent
    (.part (.dedent (.word .last))))))
    (hfirst.moved rfl hp) hkj
  simpa [Word.token, Token.keyword, Token.symbol, Tree.word] using htraces.append hmore

end Conditionals

/-! ### All phrases -/

section Phrases

variable {toks : Array Token} {i j : Nat}

theorem localVariables_inStep (hreg : Regular toks) {names : Tree}
    (row : Spans toks (Reached toks) ([Item.reserved "local", .part .names names] ++
      exps.toList.flatMap fun t => [Item.sign "=", .part .expressions t]) i j) (hsize : j < toks.size) :
    InStep toks .statement (.made .statLocalAssignment [names, .ofOption exps] i j) i j := by
  cases exps with
  | none =>
    exact .of_scripted hreg row hsize (.word (.part .nil))
  | some e =>
    obtain ⟨k, fs, o, rfl⟩ := row.eq_node (s := .expressions) (t := e) (by simp) rfl
    exact .of_scripted hreg row hsize (.word (.part (.word .last)))

theorem give_inStep (hreg : Regular toks)
    (row : Spans toks (Reached toks) (.reserved "return" :: exps.toList.map (.part .expressions)) i j)
    (hsize : j < toks.size) : InStep toks .lastStatement (.made .statReturn [.ofOption exps] i j) i j := by
  cases exps with
  | none => exact .of_scripted hreg row hsize (.word .nil)
  | some e =>
    obtain ⟨k, fs, o, rfl⟩ := row.eq_node (s := .expressions) (t := e) (by simp) rfl
    exact .of_scripted hreg row hsize (.word .last)

theorem givenArguments_inStep (hreg : Regular toks) (row : Spans toks (Reached toks)
      (.sign "(" :: (exps.toList.map (Item.part .expressions) ++ [Item.sign ")"])) i j)
    (hsize : j < toks.size) : InStep toks .arguments (.made .functionArgs [.ofOption exps] i j) i j := by
  cases exps with
  | none =>
    exact .of_scripted hreg row hsize (.word (.indent (.dedent (.word .nil))))
  | some e =>
    obtain ⟨k, fs, o, rfl⟩ := row.eq_node (s := .expressions) (t := e) (by simp) rfl
    exact .of_scripted hreg row hsize (.word (.indent (.part (.dedent (.word .nil)))))

theorem Derived.inStep (hreg : Regular toks) {s : Category} {t : Tree} (h : Derived toks s t i j)
    (hsize : j < toks.size) : InStep toks s t i j := by
  revert hsize
  refine Derived.induct (P := fun s t i j => j < toks.size → InStep toks s t i j) ?_ h
  intro s t i j items rule row hsize
  cases rule with
  | block => exact block_inStep row hsize
  | assignment _ _ vars exps op =>
    exact .of_scripted hreg row hsize (.part (.operator .last))
  | call =>
    exact .of_scripted hreg row hsize .last
  | doBlock =>
    exact .of_scripted hreg row hsize (.word (.indent (.part (.dedent (.word .nil)))))
  | whileLoop =>
    exact .of_scripted hreg row hsize (.word (.part (.word (.indent (.part (.dedent (.word .nil)))))))
  | repeatLoop =>
    exact .of_scripted hreg row hsize (.word (.indent (.part (.dedent (.word .last)))))
  | longIf => exact longIf_inStep hreg row hsize
  | shortIf _ _ h => exact shortIf_inStep hreg h row hsize
  | branch => exact branch_inStep hreg row hsize
  | forStep => exact forStep_inStep hreg row hsize
  | forIn =>
    exact .of_scripted hreg row hsize (.word (.part (.word (.part (.word (.indent (.part (.dedent (.word .nil)))))))))
  | namedFunction =>
    exact .of_scripted hreg row hsize (.word (.part .last))
  | localFunction _ _ t =>
    exact .of_scripted hreg row hsize (.word (.word (.name .last)))
  | localVariables => exact localVariables_inStep hreg row hsize
  | jump _ _ t =>
    exact .of_scripted hreg row hsize (.word (.target .nil))
  | label => exact label_inStep hreg row
  | leave =>
    exact .of_scripted hreg row hsize (.word .nil)
  | give => exact give_inStep hreg row hsize
  | names => exact names_inStep hreg row hsize
  | path => exact path_inStep hreg row hsize
  | body => exact body_inStep hreg row hsize
  | function =>
    exact .of_scripted hreg row hsize (.word .last)
  | table => exact table_inStep row hsize
  | keyField =>
    exact .of_scripted hreg row hsize (.word (.indent (.part (.dedent (.word (.word .last))))))
  | namedField _ _ t =>
    exact .of_scripted hreg row hsize (.name (.word .last))
  | plainField =>
    exact .of_scripted hreg row hsize .last
  | givenArguments => exact givenArguments_inStep hreg row hsize
  | tableArgument =>
    obtain ⟨_, hpart, row⟩ := row.of_part
    cases row
    exact .of_follows rfl fun hgood => (hpart.2 hsize).follows hgood.2
  | stringArgument => exact .of_follows rfl fun hgood => by cases hgood.1
  | «variables» | expressions =>
    exact .of_scripted hreg row hsize (.part .more) (fun hgood => .series (fun _ h => h)
      (by simpa [Good, Tree.made, Tree.legible, legibleAll] using hgood)) rfl
  | single =>
    obtain ⟨_, hpart, row⟩ := row.of_part
    cases row
    have hterm := hpart.2 hsize
    exact ⟨hterm.follows, fun _ => hterm.nested (.inr (.inl rfl)), by simp⟩
  | operation => exact operation_inStep hreg row hsize
  | constant _ _ h => exact constant_inStep hreg h row hsize
  | literal _ _ h => exact literal_inStep hreg h row hsize
  | allArguments =>
    obtain ⟨_, hpart, row⟩ := row.of_part
    cases row
    have hdots := hpart.2 hsize
    obtain ⟨rule, -⟩ := hpart.1
    cases rule
    exact ⟨hdots.follows, fun _ => .of_ne (by decide) _ _, by simp⟩
  | functionValue => exact functionValue_inStep row hsize
  | chainValue => exact chainValue_inStep row hsize
  | bracketed => exact bracketed_inStep row hsize
  | tableValue => exact tableValue_inStep row hsize
  | unary => exact unary_inStep hreg row hsize
  | dots =>
    exact .of_scripted hreg row hsize (.word .nil)
  | «variable» _ _ t =>
    exact .of_scripted hreg row hsize (.name .nil)
  | index _ _ m =>
    exact .of_scripted hreg row hsize (.part (.place (.word (.indent
      (.part (.dedent (.word .nil)))))))
  | «attribute» _ _ m _ t =>
    exact .of_scripted hreg row hsize (.part (.place (.word (.name .nil))))
  | callOf => exact callOf_inStep hreg row hsize
  | methodOf => exact methodOf_inStep hreg row hsize
  | chainBase =>
    obtain ⟨_, hpart, row⟩ := row.of_part
    cases row
    have hchain := hpart.2 hsize
    obtain ⟨k, fs, o, rfl, hk⟩ := hpart.1.eq_chain
    refine .of_follows rfl fun hgood => hchain.follows ?_
    have hnot : isExpression (.node k fs o) = false := by
      simp only [mem_cons, not_mem_nil, or_false] at hk
      obtain rfl | rfl | rfl | rfl | rfl := hk <;> rfl
    simpa [Good, legibleBase, hnot, isNode] using hgood
  | bracketedBase => exact bracketedBase_inStep row hsize
  | given =>
    obtain ⟨_, hpart, row⟩ := row.of_part
    cases row
    have hexp := hpart.2 hsize
    exact ⟨fun hgood => hexp.follows hgood.2, fun _ => hexp.nested (.inl rfl), by simp⟩
  | missing =>
    refine ⟨fun hgood => absurd rfl hgood.1, fun _ => ⟨?_, by simp⟩, by simp⟩
    intro h
    cases h
  | empty => exact .of_follows rfl False.elim
  | emptyBrackets => exact .of_follows rfl False.elim

end Phrases

end Grammar
end Cartridge.Lua
