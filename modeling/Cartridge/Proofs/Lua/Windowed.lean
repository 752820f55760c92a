import Cartridge.Proofs.Lua.Window

/-!
# Programs among other tokens

Each phrase of the grammar is shadowed over the other list because its parts are; blocks and expressions,
which contain themselves, by induction on the depth.  A phrase inside another starts at a later token, so
that the tokens of the window bound the depth in the other list.
-/

namespace Cartridge.Lua

open Lua.Tree
namespace Grammar

variable {c' : Cursor} {first first' : Tree} {start : Nat}

variable {c c₁ : Cursor} {condition condition' r : Option Tree}

section Tokens

variable {toks toks' : Array Token} {d : Shift} {m k : Nat} (w : Window toks toks' d m)
include w

/-! ### Phrases without inner ones -/

theorem nameList_shadows : ShadowsPhrase toks d m k (nameList toks) (nameList toks') := by
  refine .fromHere fun start => .lead w (fun hfirst => ?_) (.pure .none nofun) rfl
  refine .bind (.repeated (R := Token.Same) (.attempt ?_ fun hc hle => ?_) _ w.lt_rounds) ?_
  · exact .lead w (fun _ => (Shadows.accept w rfl).loose) (.pure .none nofun) rfl
  · refine .take (w.onward hc hle) (fun _ x hcomma _ => ?_) (.pure fun _ => hle)
    exact .accept (fun _ _ _ _ => nofun) fun _ _ => w.lt_of_takes hcomma hle (by decide)
  · intro rest rest' hrest
    exact .made (.cons (.list (Moved.tokens (.cons hfirst hrest))) .nil)

theorem functionName_shadows : ShadowsPhrase toks d m k (functionName toks) (functionName toks') := by
  refine .fromHere fun start => .lead w (fun hfirst => ?_) (.pure .none nofun) rfl
  refine .bind (.repeated (R := Token.Same) ?_ _ w.lt_rounds) fun hrest => ?_
  · refine .lead w (fun _ => ?_) (.pure .none nofun) rfl
    exact .bind (.expect w) fun ht => .pure (.some ht) id
  have hpath := Moved.list (d := d) (Moved.tokens (.cons hfirst hrest))
  refine .lead w (fun _ => ?_) (.made (.cons hpath (.cons .absent .nil))) rfl
  exact .bind (.expect w) fun ht => .made (.cons hpath (.cons (.token ht) .nil))

theorem constant_shadows {word : String} {value : Tree} (hvalue : (word, value) ∈ constants) :
    ShadowsPhrase toks d m k (constant toks word value) (constant toks' word value) := by
  have hmoved : Moved d value value := by
    simp only [constants, List.mem_cons, Prod.mk.injEq, List.not_mem_nil, or_false] at hvalue
    obtain ⟨-, rfl⟩ | ⟨-, rfl⟩ | ⟨-, rfl⟩ := hvalue
    · exact .absent
    · exact .truth false
    · exact .truth true
  have hend : (Token.keyword "end").fits (.exact (Token.keyword word)) = false := by
    simp only [constants, List.mem_cons, Prod.mk.injEq, List.not_mem_nil, or_false] at hvalue
    obtain ⟨rfl, -⟩ | ⟨rfl, -⟩ | ⟨rfl, -⟩ := hvalue <;> decide
  refine .fromHere fun start => .lead w (fun _ => ?_) (.pure .none fun h => by cases h) hend
  exact .made (.cons hmoved .nil)

theorem literal_shadows {kind : TokenKind} (h : kind = .number ∨ kind = .string) :
    ShadowsPhrase toks d m k (literal toks kind) (literal toks' kind) := by
  have hsolid : (Pattern.kind kind).Solid := by
    obtain rfl | rfl := h <;> infer_instance
  have hend : (Token.keyword "end").fits (.kind kind) = false := by
    obtain rfl | rfl := h <;> rfl
  refine .fromHere fun start => .lead w (fun ht => ?_) (.pure .none nofun) hend
  exact .made (.cons (.token ht) .nil)

theorem gotoStatement_shadows : ShadowsPhrase toks d m k (gotoStatement toks) (gotoStatement toks') := by
  refine .fromHere fun start => .lead w (fun _ => ?_) (.pure .none nofun) rfl
  refine .bind (.expect w) fun {target target'} htarget => ?_
  have hdata : target'.data = target.data := (congrArg Token.data htarget :)
  rw [hdata]
  exact .made (.cons (.label _) .nil)

theorem labelStatement_shadows : ShadowsPhrase toks d m k (labelStatement toks) (labelStatement toks') := by
  refine .fromHere fun start => .lead w (fun {t t'} ht => ?_) (.pure .none nofun) rfl
  have hdata : t'.data = t.data := (congrArg Token.data ht :)
  simp only [hdata]
  exact .made (.cons (.label _) .nil)

theorem thenOrDo_shadows :
    Shadows toks d m k Found (Option.Rel Token.Same) (firstOf [keyword toks "then", keyword toks "do"])
      (firstOf [keyword toks' "then", keyword toks' "do"]) :=
  .firstOf_cons (.accept w rfl) (.firstOf_cons (.accept w rfl) .firstOf_nil)

theorem thenOrDo_stays (hle : c.pos ≤ m) :
    Ensures (.free toks) (firstOf [keyword toks "then", keyword toks "do"]) c fun r c₁ =>
      c.pos ≤ c₁.pos ∧ c₁.pos ≤ m ∧ (r = none → c₁ = c) := by
  refine .acceptFirst thenOrDo (by decide)
    (fun _ x hword _ => ⟨Nat.le_succ_of_le hword.blank.le, ?_, nofun⟩)
    fun _ => ⟨Nat.le_refl _, hle, fun _ => rfl⟩
  exact w.lt_of_takes hword hle (by decide)

end Tokens

/-! ### Phrases over blocks and expressions -/

structure InnerShadows (toks : Array Token) (d : Shift) (m k : Nat) (inner inner' : Phrase → Parse (Option Tree)) :
    Prop where
  block : ShadowsRest toks d m k (inner .block) (inner' .block)
  expression : ShadowsPhrase toks d m k (inner .expression) (inner' .expression)

def decided (toks : Array Token) (inner : Phrase → Parse (Option Tree)) (start : Nat)
    (condition : Option Tree) (afterCondition : Nat) : Option Token → Parse (Option Tree)
  | some _ => do
      goTo afterCondition
      longIf toks inner start condition
  | none =>
      match condition.bind (fun t => t.stop?.map fun s => (t, s)) with
      | none => throw .missingPart
      | some (t, stop) =>
          if closesBefore toks stop then shortIf toks inner start t stop
          else do
            goTo afterCondition
            longIf toks inner start condition

theorem ifStatement_eq (toks : Array Token) (inner : Phrase → Parse (Option Tree)) :
    ifStatement toks inner = (do
      let start ← here
      match ← keyword toks "if" with
      | none => return none
      | some _ =>
          let condition ← inner .expression
          let afterCondition ← here
          let word ← firstOf [keyword toks "then", keyword toks "do"]
          decided toks inner start condition afterCondition word) :=
  rfl

theorem asValue_shadows (start : Nat) {p q : Parse (Option Tree)} (hpq : ShadowsPhrase toks d m k p q) :
    ShadowsPhrase toks d m k (asValue start p) (asValue (d.place start) q) :=
  .option hpq (fun ht => .made (.cons ht .nil)) (.pure .none nofun)

section Fields

variable {toks toks' : Array Token} {d : Shift} {m k : Nat} (w : Window toks toks' d m)
  {inner inner' : Phrase → Parse (Option Tree)}
  (hinner : InnerShadows toks d m (k + 1) inner inner')

include w hinner

theorem tableField_shadows :
    ShadowsPhrase toks d m (k + 1) (tableField toks inner) (tableField toks' inner') := by
  have hvalue : ∀ {start : Nat} {kind : NodeKind} {key key' : Tree}, Moved d key key' →
      ShadowsRest toks d m (k + 1 + 1)
        (do
          let value ← need toks (inner .expression) "exp value in field"
          return some (.made kind [key, value] start (← here)))
        (do
          let value ← need toks' (inner' .expression) "exp value in field"
          return some (.made kind [key', value] (d.place start) (← here))) :=
    fun hkey => .bind (.need hinner.expression.later _) fun hvalue =>
      .made (.cons hkey (.cons hvalue .nil))
  refine .fromHere fun start => .lead w (fun _ => ?_) ?_ rfl
  · refine .bind (.need hinner.expression.later _) fun hkey => ?_
    exact .skip w (.skip w (hvalue hkey))
  · refine .option (R := Moved d) (.attempt ?_ fun hc hle => ?_)
      (fun hfield => .pure (.some hfield) id) ?_
    · refine .lead w (fun hkey => ?_) (.pure .none nofun) rfl
      refine .lead w (fun _ => ?_) (.pure .none nofun) rfl
      exact (hvalue (.token hkey)).later
    · refine .take (w.onward hc hle) (fun _ x hname hc₁ => ?_) (.pure fun _ => hle)
      refine .take hc₁ (fun _ _ _ _ => ?_) (.pure fun _ => w.lt_of_takes hname hle (by decide))
      exact .andThen .ran fun _ _ _ => .fromHere (.pure nofun)
    · exact .option hinner.expression (fun hvalue => .made (.cons hvalue .nil)) (.pure .none nofun)

theorem table_shadows : ShadowsPhrase toks d m k (table toks inner) (table toks' inner') := by
  have hfield := tableField_shadows w hinner
  refine .fromHere fun start => .lead w (fun _ => ?_) (.pure .none nofun) rfl
  refine .bind hfield fun hfirst => ?_
  refine .bind (.repeated (R := Moved d) ?_ _ w.lt_rounds) fun hrest => ?_
  · exact .option (.firstOf_cons (.accept w rfl) (.firstOf_cons (.accept w rfl) .firstOf_nil))
      (fun _ => hfield.later.loose) (.pure .none nofun)
  · exact .skip w (.made (.cons (.list (List.rel_append (Moved.toList hfirst) hrest)) .nil))

theorem functionBody_shadows :
    ShadowsPhrase toks d m k (functionBody toks inner) (functionBody toks' inner') := by
  refine .fromHere fun start => .lead w (fun _ => ?_) (.pure .none nofun) rfl
  refine .bind (nameList_shadows w) fun {names names'} hnames => ?_
  -- what follows the parameters, whether dots were among them or not
  have hrest : ∀ {dots dots'}, Moved d dots dots' → ShadowsRest toks d m (k + 1)
      (afterParameters toks inner start names dots)
      (afterParameters toks' inner' (d.place start) names' dots') := by
    intro dots dots' hdots
    refine .skip w (.bind (.need hinner.block _) fun hblock => ?_)
    exact .skip w (.made (.cons (.ofOption hnames) (.cons hdots (.cons hblock .nil))))
  have hdots : ∀ i j, Moved d (.made .varargDots [] i j) (.made .varargDots [] (d.place i) (d.place j)) :=
    fun i j => .made .nil i j
  cases hnames with
  | some hsome =>
    refine .lead w (fun _ => ?_) (hrest .absent) rfl
    exact .fromHere fun i => .skip w (.fromHere fun j => (hrest (hdots i j)).later)
  | none =>
    refine .fromHere fun i => .lead w (fun _ => ?_) (hrest .absent) rfl
    exact .fromHere fun j => (hrest (hdots i j)).later

theorem function_shadows : ShadowsPhrase toks d m k (function toks inner) (function toks' inner') := by
  refine .fromHere fun start => .lead w (fun _ => ?_) (.pure .none nofun) rfl
  refine .bind (.need (functionBody_shadows w hinner).later _) fun hbody => ?_
  exact .made (.cons hbody .nil)

theorem unary_shadows (start : Nat) :
    ShadowsPhrase toks d m k (unary toks inner start) (unary toks' inner' (d.place start)) := by
  refine .option (.firstOf_cons (.accept w rfl) (.firstOf_cons (.accept w rfl)
    (.firstOf_cons (.accept w rfl) .firstOf_nil))) (fun hop => ?_) (.pure .none nofun)
  refine .bind (.need hinner.expression _) fun hexp => ?_
  exact .made (.cons (.token hop) (.cons hexp .nil))

end Fields

section Phrases

variable {toks toks' : Array Token} {d : Shift} {m k : Nat} (w : Window toks toks' d m)
  {inner inner' : Phrase → Parse (Option Tree)} (hin : ∀ k, Inner (.free toks) k inner)
  (hinner : InnerShadows toks d m (k + 1) inner inner')

include w hin hinner

theorem expList_shadows : ShadowsPhrase toks d m (k + 1) (expList toks inner) (expList toks' inner') := by
  refine .attempt (.fromHere fun start => .option hinner.expression (fun hfirst => ?_)
    (.pure .none nofun)) fun hc hle =>
      .fromHere (.andThen ((hin 0).expression (w.onward hc hle)) fun r c₁ hr => ?_)
  · refine .bind (.repeated (R := Moved d) ?_ _ w.lt_rounds) fun hrest => ?_
    · refine .lead w (fun _ => ?_) (.pure .none nofun) rfl
      exact .bind (.need hinner.expression.later.later _) fun ht => .pure (.some ht) id
    · exact .made (.cons (.list (.cons hfirst hrest)) .nil)
  · cases r with
    | none => exact .pure fun _ => w.cut ⟨_, .inr (.inr (.inl hr.2.derived))⟩ hle
    | some first => exact .andThen .ran fun _ _ _ => .fromHere (.pure nofun)

theorem arguments_shadows : ShadowsPhrase toks d m k (arguments toks inner) (arguments toks' inner') := by
  refine .fromHere fun start => .lead w (fun _ => ?_) ?_ rfl
  · refine .bind (expList_shadows w hin hinner) fun hexps => ?_
    exact .skip w (.made (.cons (.ofOption hexps) .nil))
  · refine .option (table_shadows w hinner) (fun htable => .pure (.some htable) id) ?_
    exact .lead w (fun ht => .pure (.some (.token ht)) id) (.pure .none nofun) rfl

theorem suffix_shadows (hfirst : Moved d first first') :
    ShadowsPhrase toks d m k (suffix toks inner first) (suffix toks' inner' first') := by
  have hargs := arguments_shadows w hin hinner
  refine .fromHere fun start => .lead w (fun _ => ?_) ?_ rfl
  · refine .bind (.need hinner.expression _) fun hkey => ?_
    exact .skip w (.made (.cons hfirst (.cons hkey .nil)))
  refine .lead w (fun _ => ?_) ?_ rfl
  · exact .bind (.expect w) fun hattr => .made (.cons hfirst (.cons (.token hattr) .nil))
  refine .option hargs (fun h => .made (.cons hfirst (.cons h .nil))) ?_
  refine .lead w (fun _ => ?_) (.pure .none nofun) rfl
  refine .bind (.expect w) fun hmethod => ?_
  refine .bind (.need hargs.later _) fun h => ?_
  exact .made (.cons hfirst (.cons (.token hmethod) (.cons h .nil)))

theorem prefixed_shadows : ShadowsPhrase toks d m k (prefixed toks inner) (prefixed toks' inner') := by
  have hsuffix : ∀ {t t'}, Moved d t t' → ShadowsPhrase toks d m (k + 1) (suffix toks inner t) (suffix toks' inner' t') :=
    fun ht => (suffix_shadows w hin hinner ht).later
  refine .fromHere fun start => .lead w (fun hn => ?_) ?_ rfl
  · refine .fromHere fun stop => .bind (.extended hsuffix _ w.lt_rounds ?_) ?_
    · exact .made (.cons (.token hn) .nil) start stop
    · exact fun ht => .pure (.some ht) id
  refine .lead w (fun _ => ?_) (.pure .none nofun) rfl
  refine .bind hinner.expression fun hexp => .skip w ?_
  refine .bind (.extended hsuffix _ w.lt_rounds (.ofOption hexp)) fun {t t'} ht => ?_
  -- both find that the parentheses stand for nothing, or neither does
  by_cases habsent : t = .absent
  · obtain rfl := ht.eq_absent_iff.mpr habsent
    subst habsent
    exact .pure .none id
  · have habsent' : t' ≠ .absent := fun h => habsent (ht.eq_absent_iff.mp h)
    simp only
    exact .pure (.some ht) id

theorem term_shadows : ShadowsPhrase toks d m k (term toks inner) (term toks' inner') := by
  refine .fromHere fun start => ?_
  refine .firstOf_cons (constant_shadows w List.mem_cons_self)
    (.firstOf_cons (constant_shadows w (List.mem_cons_of_mem _ List.mem_cons_self))
    (.firstOf_cons (constant_shadows w (List.mem_cons_of_mem _ (List.mem_cons_of_mem _ List.mem_cons_self)))
    (.firstOf_cons (literal_shadows w (.inl rfl))
    (.firstOf_cons (literal_shadows w (.inr rfl)) (.firstOf_cons ?_
    (.firstOf_cons (asValue_shadows start (function_shadows w hinner))
    (.firstOf_cons (asValue_shadows start (prefixed_shadows w hin hinner))
    (.firstOf_cons (asValue_shadows start (table_shadows w hinner))
    (.firstOf_cons (unary_shadows w hinner start) .firstOf_nil)))))))))
  exact .lead w (fun _ => .made .nil) (.pure .none nofun) rfl

theorem operation_shadows (hfirst : Moved d first first') :
    ShadowsPhrase toks d m k (operation toks inner first) (operation toks' inner' first') := by
  have hsolid : ∀ p ∈ binaryOperators, p.isSolid = true := by decide
  have hend : ∀ p ∈ binaryOperators, (Token.keyword "end").fits p = false := by decide
  refine .fromHere fun start => .option (.firstOf_map fun p hp => have : p.Solid := ⟨hsolid p hp⟩; .accept w (hend p hp))
    (fun hop => ?_) (.pure .none nofun)
  refine .bind (.need (term_shadows w hin hinner).later _) fun hsecond => ?_
  exact .made (.cons hfirst (.cons (.token hop) (.cons hsecond .nil)))

theorem expression_shadows : ShadowsPhrase toks d m k (expression toks inner) (expression toks' inner') := by
  refine .option (term_shadows w hin hinner) (fun hfirst => ?_) (.pure .none nofun)
  refine .bind (.extended (fun ht => ?_) _ w.lt_rounds hfirst) fun ht => .pure (.some ht) id
  exact (operation_shadows w hin hinner ht).later

/-! ### Statements -/

omit hinner in
theorem prefixed_stays (hc : c.Sound toks) (hle : c.pos ≤ m) :
    Ensures (.free toks) (prefixed toks inner) c fun _ c₁ => c₁.pos ≤ m := by
  refine (prefixed_finds (hin 1) (w.onward hc hle)).mono fun r c₁ hr => w.cut ?_ hle
  cases r with
  | none => exact ⟨_, .inr (.inr (.inl hr.2.derived))⟩
  | some t =>
    exact ⟨t, hr.2.elim (fun h => .inl h.derived) fun h => .inr (.inr (.inr (h.mono Parsed.derived)))⟩

omit hinner in
theorem assignable_stays (hc : c.Sound toks) (hle : c.pos ≤ m) :
    Ensures (.free toks) (assignable toks inner) c fun _ c₁ => c₁.pos ≤ m := by
  refine .andThen (prefixed_stays w hin hc hle) fun r c₁ hr => ?_
  cases r with
  | none => exact .pure hr
  | some t =>
    show Ensures (.free toks) (if _ then _ else _) c₁ _
    split
    · exact .pure hr
    · exact .pure hr

omit hinner in
theorem varList_stays (hc : c.Sound toks) (hle : c.pos ≤ m) :
    Ensures (.free toks) (varList toks inner) c fun _ c₁ => c₁.pos ≤ m := by
  have hnone : Ensures (.free toks) (varList toks inner) c fun r c₁ => r = none → c₁.pos ≤ m := by
    refine .fromHere (.andThen (assignable_stays w hin hc hle) fun r c₁ hr => ?_)
    cases r with
    | none => exact .pure fun _ => hr
    | some first => exact .andThen .ran fun _ _ _ => .fromHere (.pure nofun)
  refine ((varList_finds (hin 1) (w.onward hc hle)).and hnone).mono fun r c₁ h => ?_
  cases r with
  | none => exact h.2 rfl
  | some t => exact w.cut ⟨t, .inr (.inl h.1.2.derived)⟩ hle

theorem assignable_shadows : ShadowsPhrase toks d m k (assignable toks inner) (assignable toks' inner') := by
  refine .option (prefixed_shadows w hin hinner) (fun ht => ?_) (.pure .none nofun)
  simp only [ht.isA_eq]
  split
  · exact .pure (.some ht) id
  · exact .pure .none id

theorem varList_shadows : ShadowsPhrase toks d m k (varList toks inner) (varList toks' inner') := by
  have hvariable := assignable_shadows w hin hinner
  refine .fromHere fun start => .option hvariable (fun hfirst => ?_) (.pure .none nofun)
  refine .bind (.repeated (R := Moved d) ?_ _ w.lt_rounds) fun hrest => ?_
  · refine .lead w (fun _ => ?_) (.pure .none nofun) rfl
    exact .bind (.need hvariable.later.later _) fun ht => .pure (.some ht) id
  · exact .made (.cons (.list (.cons hfirst hrest)) .nil)

theorem assignment_shadows : ShadowsPhrase toks d m k (assignment toks inner) (assignment toks' inner') := by
  refine .attempt (.fromHere fun start => .option (varList_shadows w hin hinner)
    (fun hvars => ?_) (.pure .none nofun)) fun hc hle => .fromHere ?_
  · have hend : ∀ s ∈ assignSigns, (Token.keyword "end").fits (.exact (Token.symbol s)) = false := by
      decide
    refine .option (.firstOf_map fun s hs => .accept w (hend s hs)) (fun hop => ?_)
      (.pure .none id)
    refine .bind (.need (expList_shadows w hin hinner).later _) fun hexps => ?_
    exact .made (.cons hvars (.cons (.token hop) (.cons hexps .nil)))
  · refine .andThen (varList_stays w hin hc hle) fun r c₁ hr => ?_
    cases r with
    | none => exact .pure fun _ => hr
    | some vars =>
      refine .bind (.acceptFirst assignOperators (by decide) (fun _ _ _ _ => ?_) fun _ => .pure fun _ => hr)
      exact .andThen .ran fun _ _ _ => .fromHere (.pure nofun)

theorem callStatement_shadows :
    ShadowsPhrase toks d m k (callStatement toks inner) (callStatement toks' inner') := by
  refine .attempt (.fromHere fun start => .option (prefixed_shadows w hin hinner)
    (fun ht => ?_) (.pure .none nofun)) fun hc hle => .fromHere ?_
  · simp only [ht.isA_eq]
    split
    · exact .made (.cons ht .nil)
    · exact .pure .none id
  · refine .andThen (prefixed_stays w hin hc hle) fun r c₁ hr => ?_
    cases r with
    | none => exact .pure fun _ => hr
    | some t =>
      show Ensures (.free toks) (if _ then _ else _) c₁ _
      split
      · exact .fromHere (.pure nofun)
      · exact .pure fun _ => hr

omit hin in
theorem doStatement_shadows : ShadowsPhrase toks d m k (doStatement toks inner)
      (doStatement toks' inner') := by
  refine .fromHere fun start => .lead w (fun _ => ?_) (.pure .none nofun) rfl
  refine .bind (.need hinner.block _) fun hblock => ?_
  exact .skip w (.made (.cons hblock .nil))

omit hin in
theorem whileStatement_shadows :
    ShadowsPhrase toks d m k (whileStatement toks inner) (whileStatement toks' inner') := by
  refine .fromHere fun start => .lead w (fun _ => ?_) (.pure .none nofun) rfl
  refine .bind (.need hinner.expression _) fun hexp => .skip w ?_
  refine .bind (.need hinner.block _) fun hblock => ?_
  exact .skip w (.made (.cons hexp (.cons hblock .nil)))

omit hin in
theorem repeatStatement_shadows :
    ShadowsPhrase toks d m k (repeatStatement toks inner) (repeatStatement toks' inner') := by
  refine .fromHere fun start => .lead w (fun _ => ?_) (.pure .none nofun) rfl
  refine .bind (.need hinner.block _) fun hblock => .skip w ?_
  refine .bind (.need hinner.expression _) fun hexp => ?_
  exact .made (.cons hblock (.cons hexp .nil))

omit hin in
theorem onLine_shadows (start : Nat) {condition condition' : Tree}
    (hcondition : Moved d condition condition') :
    ShadowsRest toks d m (k + 1) (onLine toks inner start condition)
      (onLine toks' inner' (d.place start) condition') := by
  refine .bind (.need hinner.block _) fun {block block'} hblock => ?_
  have hrest : ∀ {o o' : Option Tree}, Option.Rel (Moved d) o o' → ShadowsRest toks d m (k + 1)
      (closedLine start condition block o) (closedLine (d.place start) condition' block' o') := by
    intro o o' ho
    refine .bind .liftLimit fun _ => ?_
    refine .bind (.lift fun v hv => hcondition.field hv) fun hbare => ?_
    refine .fromHere fun stop => .pure (.some ?_) id
    exact .node (.cons (.list (.cons (.branch hbare hblock) (Moved.otherBranch ho))) .nil) _
  refine .lead w (fun _ => ?_) (hrest .none) rfl
  exact .bind hinner.block.later fun ho => (hrest ho).later

omit hin in
theorem afterThen_shadows (start : Nat) (hcondition : Option.Rel (Moved d) condition condition') :
    ShadowsRest toks d m (k + 1) (afterThen toks inner start condition)
      (afterThen toks' inner' (d.place start) condition') := by
  refine .bind (.need hinner.block _) fun {block block'} hblock => ?_
  refine .bind (.repeated (R := Moved d) ?_ _ w.lt_rounds) fun {rest rest'} hrest => ?_
  · refine .lead w (fun _ => ?_) (.pure .none nofun) rfl
    refine .bind hinner.expression.later fun hcondition => .skip w ?_
    refine .bind (.need hinner.block.later _) fun hblock => ?_
    exact .pure (.some (.branch (.ofOption hcondition) hblock)) id
  have hend : ∀ {other other' : List Tree}, List.Forall₂ (Moved d) other other' → ShadowsRest toks d m (k + 1)
      (closedIf toks start (branch (.ofOption condition) block :: rest ++ other))
      (closedIf toks' (d.place start) (branch (.ofOption condition') block' :: rest' ++ other')) :=
    fun hother => .skip w (.made (.cons (.list (List.rel_append
      (.cons (.branch (.ofOption hcondition) hblock) hrest) hother)) .nil))
  refine .lead w (fun _ => ?_) (hend .nil) rfl
  refine .bind (.need hinner.block.later _) fun hlast => ?_
  exact (hend (.cons (.branch .absent hlast) .nil)).later

omit hin in
theorem longIf_shadows (start : Nat) (hcondition : Option.Rel (Moved d) condition condition') :
    ShadowsRest toks d m (k + 1) (longIf toks inner start condition)
      (longIf toks' inner' (d.place start) condition') := by
  have hrest := afterThen_shadows w hinner start hcondition
  exact .lead w (fun _ => hrest.later) (.skip w hrest) rfl

omit hin in
theorem functionStatement_shadows :
    ShadowsPhrase toks d m k (functionStatement toks inner) (functionStatement toks' inner') := by
  refine .fromHere fun start => .lead w (fun _ => ?_) (.pure .none nofun) rfl
  refine .bind (.need (functionName_shadows w) _) fun hname => ?_
  refine .bind (.need (functionBody_shadows w hinner).later _) fun hbody => ?_
  exact .made (.cons hname (.cons hbody .nil))

theorem localStatement_shadows :
    ShadowsPhrase toks d m k (localStatement toks inner) (localStatement toks' inner') := by
  refine .fromHere fun start => .lead w (fun _ => ?_) (.pure .none nofun) rfl
  refine .lead w (fun _ => ?_) ?_ rfl
  · refine .bind (.expect w) fun hname => ?_
    refine .bind (.need (functionBody_shadows w hinner).later.later _) fun hbody => ?_
    exact .made (.cons (.token hname) (.cons hbody .nil))
  · refine .bind (.need (nameList_shadows w) _) fun hnames => ?_
    refine .lead w (fun _ => ?_) (.made (.cons hnames (.cons .absent .nil))) rfl
    refine .bind (.need (expList_shadows w hin hinner).later _) fun hexps => ?_
    exact .made (.cons hnames (.cons hexps .nil))

theorem lastStatement_shadows :
    ShadowsPhrase toks d m k (lastStatement toks inner) (lastStatement toks' inner') := by
  refine .fromHere fun start => .lead w (fun _ => .made .nil) ?_ rfl
  refine .lead w (fun _ => ?_) (.pure .none nofun) rfl
  refine .bind (expList_shadows w hin hinner) fun hexps => ?_
  exact .made (.cons (.ofOption hexps) .nil)

omit hin in
theorem shortIf_shadowed (start : Nat) {condition condition' : Tree}
    (hcondition : Moved d condition condition') (hc : Abreast toks d m c c')
    (hk : k + 1 ≤ c.pos) (hrun : (shortIf toks inner start condition c.pos).run c = .ok (r, c₁))
    (hm : c₁.pos ≤ m) :
    ∃ r' c₁', (shortIf toks' inner' (d.place start) condition' (d.place c.pos)).run c' = .ok (r', c₁') ∧
      Option.Rel (Moved d) r r' ∧ Abreast toks d m c₁ c₁' := by
  have hline : Abreast toks d m ⟨c.pos, some (lineStop toks c.pos)⟩
      ⟨c'.pos, some (lineStop toks' (d.place c.pos))⟩ :=
    ⟨hc.pos, hc.le, sound_lineStop toks c.pos, fun i hi => by
      simp [Shift.place_of_pos (by omega : 0 < c.pos), w.lt_lineStop_iff hc.le hi]⟩
  exact (onLine_shadows w hinner start hcondition).shadowed hline hk hrun hm

omit hin in
theorem decided_advances {word : Option Token} {i : Nat} (hi : i ≤ c.pos)
    (hrun : (decided toks inner start condition i word).run c = .ok (r, c₁)) : i ≤ c₁.pos := by
  obtain ⟨condition', hcondition⟩ := Matched.exists_rel (R := Option.Rel (Moved d)) condition
  have hlong := longIf_shadows w hinner start hcondition
  cases word with
  | some _ => exact (hlong.advances hrun).1
  | none =>
    cases condition with
    | none => cases hrun
    | some t =>
      cases hcondition with
      | some ht =>
      unfold decided at hrun
      simp only [Option.bind_some] at hrun
      cases hstop : t.stop? with
      | none =>
        rw [hstop] at hrun
        cases hrun
      | some stop =>
        simp only [hstop, Option.map_some] at hrun
        split at hrun
        · exact Nat.le_trans hi ((onLine_shadows w hinner start ht).advances hrun).1
        · exact (hlong.advances hrun).1

omit hin in
theorem decided_shadowed (start : Nat) (hcondition : Option.Rel (Moved d) condition condition')
    (hstop : ∀ t ∈ condition, t.stop? = some c.pos) (hc : Abreast toks d m c c')
    (hk : k + 1 ≤ c.pos) (hrun : (firstOf [keyword toks "then", keyword toks "do"] >>=
      decided toks inner start condition c.pos).run c = .ok (r, c₁)) (hm : c₁.pos ≤ m) :
    ∃ r' c₁', (firstOf [keyword toks' "then", keyword toks' "do"] >>=
        decided toks' inner' (d.place start) condition' c'.pos).run c' = .ok (r', c₁') ∧
      Option.Rel (Moved d) r r' ∧ Abreast toks d m c₁ c₁' := by
  have hlong := longIf_shadows w hinner start hcondition
  obtain ⟨word, c₂, hword, hrest⟩ := exists_of_run_bind hrun
  obtain ⟨hle, hstay, hnone⟩ := (thenOrDo_stays w hc.le).left hword
  obtain ⟨word', c₂', hword', hsame, hc₂⟩ := (thenOrDo_shadows w).shadowed hc hk hword hstay
  rw [run_bind_of hword']
  -- going back to where the condition has ended
  have hback : Abreast toks d m { c₂ with pos := c.pos } { c₂' with pos := c'.pos } :=
    ⟨hc.pos, hc.le, hc₂.sound.goBack hle, hc₂.reach⟩
  cases hsame with
  | some _ => exact hlong.shadowed hback hk hrest hm
  | none =>
    obtain rfl := hnone rfl
    cases hcondition with
    | none => cases hrest
    | @some t t' ht =>
      have hstop₁ := hstop t rfl
      have hstop₂ : t'.stop? = some (d.place c₂.pos) := by rw [ht.stop?_eq, hstop₁]; rfl
      have hcloses : closesBefore toks' (d.place c₂.pos) = closesBefore toks c₂.pos := by
        have hpos : 0 < c₂.pos := by omega
        rw [Shift.place_of_pos hpos, w.closesBefore_eq hc.le hpos]
      unfold decided at hrest ⊢
      simp only [Option.bind_some, hstop₁, hstop₂, Option.map_some, hcloses] at hrest ⊢
      split at hrest
      · next hclosed =>
        rw [if_pos hclosed]
        exact shortIf_shadowed w hinner start ht hc₂ hk hrest hm
      · next hopen =>
        rw [if_neg hopen]
        exact hlong.shadowed hback hk hrest hm

theorem ifStatement_shadows :
    ShadowsPhrase toks d m k (ifStatement toks inner) (ifStatement toks' inner') := by
  have hwords : ∀ {c c₁ : Cursor} {r : Option Token},
      (firstOf [keyword toks "then", keyword toks "do"]).run c = .ok (r, c₁) → c.pos ≤ c₁.pos :=
    fun hrun => ((thenOrDo_shadows w (k := k)).advances hrun).1
  rw [ifStatement_eq, ifStatement_eq]
  refine .fromHere fun start => .lead w (fun _ => ⟨fun hrun => ?_, fun hc hk hrun hm => ?_⟩)
    (.pure .none nofun) rfl
  · obtain ⟨condition, c₁, hcondition, hrest⟩ := exists_of_run_bind hrun
    obtain ⟨_, _, ⟨⟩, hrest⟩ := exists_of_run_bind hrest
    obtain ⟨word, c₂, hword, hrest⟩ := exists_of_run_bind hrest
    have hle := (hinner.expression.advances hcondition).1
    exact ⟨Nat.le_trans hle (decided_advances w hinner (hwords hword) hrest), False.elim⟩
  · obtain ⟨condition, c₁, hcondition, hrest⟩ := exists_of_run_bind hrun
    obtain ⟨_, _, ⟨⟩, hrest⟩ := exists_of_run_bind hrest
    have hle := (hinner.expression.advances hcondition).1
    have hnext : c₁.pos ≤ m := by
      obtain ⟨word, c₂, hword, hrest⟩ := exists_of_run_bind hrest
      exact Nat.le_trans (decided_advances w hinner (hwords hword) hrest) hm
    have hfound := ((hin 0).expression (w.onward hc.sound hc.le)).left hcondition
    obtain ⟨condition', c₁', hcondition', hmoved, hc₁⟩ :=
      hinner.expression.shadowed hc hk hcondition hnext
    rw [run_bind_of hcondition']
    refine decided_shadowed w hinner start hmoved (fun t ht => ?_) hc₁ (by omega) hrest hm
    cases ht
    exact hfound.2.derived.stop?_eq rfl

theorem afterFor_shadows :
    ShadowsRest toks d m (k + 1)
      (do
        let afterFor ← here
        let counter ← name toks
        afterCounter toks inner start afterFor counter)
      (do
        let afterFor ← here
        let counter ← name toks'
        afterCounter toks' inner' (d.place start) afterFor counter) := by
  -- the two kinds of loops, from where they part
  have hcounting : ∀ {counter counter' : Option Token}, Option.Rel Token.Same counter counter' →
      ShadowsRest toks d m (k + 1) (counting toks inner start counter)
        (counting toks' inner' (d.place start) counter') := by
    intro counter counter' hcounter
    refine .bind (.need hinner.expression _) fun {first first'} hfirst => .skip w ?_
    refine .bind (.need hinner.expression _) fun {last last'} hlast => ?_
    have hbody : ∀ {step step'}, Moved d step step' → ShadowsRest toks d m (k + 1)
        (countedBody toks inner start counter first last step)
        (countedBody toks' inner' (d.place start) counter' first' last' step') := by
      intro step step' hstep
      refine .skip w (.bind (.need hinner.block _) fun hblock => ?_)
      exact .skip w (.made (.cons (.ofToken? hcounter) (.cons hfirst (.cons hlast
        (.cons hstep (.cons hblock .nil))))))
    refine .lead w (fun _ => ?_) (hbody .absent) rfl
    exact .bind (.need hinner.expression.later _) fun hstep => (hbody hstep).later
  have hwalking : ShadowsRest toks d m (k + 1)
      (walking toks inner start) (walking toks' inner' (d.place start)) := by
    refine .bind (.need (nameList_shadows w) _) fun hnames => .skip w ?_
    refine .bind (.need (expList_shadows w hin hinner) _) fun hexps => .skip w ?_
    refine .bind (.need hinner.block _) fun hblock => ?_
    exact .skip w (.made (.cons hnames (.cons hexps (.cons hblock .nil))))
  refine ⟨fun hrun => ⟨?_, False.elim⟩, fun hc hk hrun hm => ?_⟩
  · obtain ⟨_, _, ⟨⟩, hrest⟩ := exists_of_run_bind hrun
    obtain ⟨counter, c₁, hcounter, hrest⟩ := exists_of_run_bind hrest
    obtain ⟨equal, c₂, hequal, hrest⟩ := exists_of_run_bind hrest
    obtain ⟨counter', hsame⟩ := Matched.exists_rel (R := Option.Rel Token.Same) counter
    have hle₁ := (advances_accept rfl hcounter).1
    have hle₂ := (advances_accept rfl hequal).1
    cases equal with
    | some _ => exact Nat.le_trans (Nat.le_trans hle₁ hle₂) ((hcounting hsame).advances hrest).1
    | none => exact (hwalking.advances hrest).1
  · obtain ⟨_, _, ⟨⟩, hrest⟩ := exists_of_run_bind hrun
    obtain ⟨counter, c₁, hcounter, hrest⟩ := exists_of_run_bind hrest
    obtain ⟨equal, c₂, hequal, hrest⟩ := exists_of_run_bind hrest
    have hle₁ := (advances_accept rfl hcounter).1
    have hle₂ := (advances_accept rfl hequal).1
    -- neither the name nor the sign is the `function` behind the window
    have hin₁ : c₁.pos ≤ m := le_of_accept w rfl (by decide) hc.le hcounter
    have hin₂ : c₂.pos ≤ m := le_of_accept w rfl (by decide) hin₁ hequal
    obtain ⟨counter', c₁', hcounter', hsame, hc₁⟩ :=
      (Shadows.accept w rfl).shadowed hc hk hcounter hin₁
    obtain ⟨equal', c₂', hequal', hequals, hc₂⟩ :=
      (Shadows.accept w rfl).shadowed hc₁ (Nat.le_trans hk hle₁) hequal hin₂
    have hk₂ : k + 1 ≤ c₂.pos := Nat.le_trans hk (Nat.le_trans hle₁ hle₂)
    cases hequals with
    | some _ =>
      obtain ⟨r', c₃', hr', hr, hc₃⟩ := (hcounting hsame).shadowed hc₂ hk₂ hrest hm
      exact ⟨r', c₃', (run_bind_of hcounter').trans ((run_bind_of hequal').trans hr'), hr, hc₃⟩
    | none =>
      have hback : Abreast toks d m { c₂ with pos := _ } { c₂' with pos := _ } :=
        ⟨hc.pos, hc.le, hc₂.sound.goBack (Nat.le_trans hle₁ hle₂), hc₂.reach⟩
      obtain ⟨r', c₃', hr', hr, hc₃⟩ := hwalking.shadowed hback hk hrest hm
      exact ⟨r', c₃', (run_bind_of hcounter').trans ((run_bind_of hequal').trans hr'), hr, hc₃⟩

theorem forStatement_shadows :
    ShadowsPhrase toks d m k (forStatement toks inner) (forStatement toks' inner') :=
  .fromHere fun _ => .lead w (fun _ => afterFor_shadows w hin hinner) (.pure .none nofun) rfl

omit hin hinner in
theorem semicolons_shadows : Shadows toks d m k Loose Eq (semicolons toks) (semicolons toks') :=
  .passAll (.accept w rfl) _ w.lt_rounds

theorem statement_shadows : ShadowsPhrase toks d m k (statement toks inner) (statement toks' inner') :=
  .firstOf_cons (assignment_shadows w hin hinner) (.firstOf_cons (callStatement_shadows w hin hinner)
    (.firstOf_cons (doStatement_shadows w hinner) (.firstOf_cons (whileStatement_shadows w hinner)
    (.firstOf_cons (repeatStatement_shadows w hinner) (.firstOf_cons (ifStatement_shadows w hin hinner)
    (.firstOf_cons (forStatement_shadows w hin hinner)
    (.firstOf_cons (functionStatement_shadows w hinner)
    (.firstOf_cons (localStatement_shadows w hin hinner) (.firstOf_cons (gotoStatement_shadows w)
    (.firstOf_cons (labelStatement_shadows w) .firstOf_nil))))))))))

theorem block_shadows : ShadowsRest toks d m k (block toks inner) (block toks' inner') := by
  have hsemicolons := semicolons_shadows w (k := k)
  refine .fromHere fun start => .bind (.repeated (R := Moved d) ?_ _ w.lt_rounds) ?_
  · exact .bind hsemicolons fun _ => statement_shadows w hin hinner
  intro stats stats' hstats
  refine .bind hsemicolons fun _ => ?_
  refine .bind (lastStatement_shadows w hin hinner) fun hlast => ?_
  refine .bind hsemicolons fun _ => ?_
  exact .made (.cons (.list (List.rel_append hstats (Moved.toList hlast))) .nil)

end Phrases

/-! ### The whole grammar -/

/-- **The phrases of a window are found in the other list**, as far as the tokens behind `k` and the
levels together outnumber the tokens of the window. -/
theorem phrase_shadows {toks' : Array Token} (w : Window toks toks' d m) (n : Nat)
    {n' : Nat} (hn : m < n' + k) : InnerShadows toks d m k (phrase toks n) (phrase toks' n') := by
  induction n generalizing n' k with
  | zero => exact ⟨.throw _ _, .throw _ _⟩
  | succ n ih =>
    have hin := inner_free toks n
    cases n' with
    | zero =>
      -- the window has been left, so that there is nothing to be found
      have hless : m < m + (0 + 1) := Nat.lt_succ_self m
      have hinner := ih hless
      have hbeyond : m < k := by omega
      exact ⟨(block_shadows w hin hinner).beyond hbeyond _,
        (expression_shadows w hin hinner).beyond hbeyond _⟩
    | succ n' =>
      have hless : m < n' + (k + 1) := by omega
      have hinner := ih hless
      exact ⟨block_shadows w hin hinner, expression_shadows w hin hinner⟩

end Grammar
end Cartridge.Lua
