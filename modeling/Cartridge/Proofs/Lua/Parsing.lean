import Cartridge.Proofs.Lua.Ensures

/-!
# What the grammar finds is derived

Whatever tree the grammar finds, the tokens it has passed over are a phrase that the tree stands for.
The parser goes back in many places and drops what it has found; what it keeps in the end is one row of
items after another.  A parser of a phrase finds one and leaves the cursor behind it, or it finds
nothing and leaves the cursor where it was.  The exceptions are expressions, which may pass over empty
parentheses and find nothing.

A repetition has a round for every token, and a phrase may hold as many levels as there are tokens.  So
neither bound is ever reached, if a round that finds something has taken a token, and if a token stands
before every inner phrase.  Both are seen from the number of tokens before the cursor.

The end of the line is the limit for a conditional in its one-line form: no word at or past it is taken
until the conditional has been read.  There is one limit only, and it is lifted when a conditional has
been read, also if that one stands inside another.
-/

namespace Cartridge.Lua

namespace Tree

variable {condition r : Option Tree} {first : Tree} {m : Nat} {u : Token}

def isShort : Tree → Bool
  | .node _ _ o => o.short
  | _ => false

def shortSpan? : Tree → Option Span
  | .node .statIf [.list (.list [_, block] :: _)] { span := some s, short := true } =>
      block.start?.map fun start => ⟨start, s.stop⟩
  | _ => none

end Tree

namespace Grammar

variable {toks : Array Token} {A : Account toks} {c₀ c c' : Cursor} {i j k start : Nat} {s : Category}
  {t : Tree}

/-! ### Parts of parsers -/

section Parts

variable (toks : Array Token) (inner : Phrase → Parse (Option Tree)) (start : Nat)

def afterParameters (names : Option Tree) (dots : Tree) : Parse (Option Tree) := do
  discard (expectSymbol toks ")")
  let block ← need toks (inner .block) "block in funcbody"
  discard (expectKeyword toks "end")
  return some (.made .functionBody [.ofOption names, dots, block] start (← here))

def closedLine (condition block : Tree) (otherwise : Option Tree) : Parse (Option Tree) := do
  limitTo none
  let bare ← condition.field .value
  let stop ← here
  return some (.node .statIf [.list (branch bare block :: otherBranch otherwise)]
    { span := some ⟨start, stop⟩, short := true })

def onLine (condition : Tree) : Parse (Option Tree) := do
  let block ← need toks (inner .block) "valid chunk in short-if"
  let otherwise ← do
    match ← keyword toks "else" with
    | none => pure none
    | some _ => inner .block
  closedLine start condition block otherwise

def furtherBranch : Parse (Option Tree) := do
  match ← keyword toks "elseif" with
  | none => return none
  | some _ =>
      let condition ← inner .expression
      discard (expectKeyword toks "then")
      let block ← need toks (inner .block) "Expected block in elseif"
      return some (branch (.ofOption condition) block)

def closedIf (branches : List Tree) : Parse (Option Tree) := do
  discard (expectKeyword toks "end")
  return some (.made .statIf [.list branches] start (← here))

def afterThen (condition : Option Tree) : Parse (Option Tree) := do
  let block ← need toks (inner .block) "Expected block in if"
  let rest ← repeated (furtherBranch toks inner) (rounds toks)
  let other ← do
    match ← keyword toks "else" with
    | none => pure []
    | some _ => pure [branch .absent (← need toks (inner .block) "Expected block in else")]
  closedIf toks start (branch (.ofOption condition) block :: rest ++ other)

def countedBody (counter : Option Token) (first last step : Tree) : Parse (Option Tree) := do
  discard (expectKeyword toks "do")
  let block ← need toks (inner .block) "block in for"
  discard (expectKeyword toks "end")
  return some (.made .statForStep [.ofToken? counter, first, last, step, block] start (← here))

def counting (counter : Option Token) : Parse (Option Tree) := do
  let first ← need toks (inner .expression) "exp-init in for"
  discard (expectSymbol toks ",")
  let last ← need toks (inner .expression) "exp-end in for"
  let step ← do
    match ← symbol toks "," with
    | none => pure Tree.absent
    | some _ => need toks (inner .expression) "exp-step in for"
  countedBody toks inner start counter first last step

def walking : Parse (Option Tree) := do
  let names ← need toks (nameList toks) "namelist in for-in"
  discard (expectKeyword toks "in")
  let exps ← need toks (expList toks inner) "explist in for-in"
  discard (expectKeyword toks "do")
  let block ← need toks (inner .block) "block in for-in"
  discard (expectKeyword toks "end")
  return some (.made .statForIn [names, exps, block] start (← here))

/-- A loop from behind the first name on.  Without the sign of a counting loop its names are read again,
from `afterFor` on. -/
def afterCounter (afterFor : Nat) (counter : Option Token) : Parse (Option Tree) := do
  match ← symbol toks "=" with
  | some _ => counting toks inner start counter
  | none =>
      goTo afterFor
      walking toks inner start

end Parts

def asValue (start : Nat) (p : Parse (Option Tree)) : Parse (Option Tree) := do
  match ← p with
  | none => return none
  | some t => return some (.made .expValue [t] start (← here))

/-! ### Phrases -/

/-- A conditional on one line has a range, and stays on its line if no other one may lift the limit
there. -/
def StaysOnLine (A : Account toks) (t : Tree) : Prop :=
  t.isShort = true → ∃ b j, t.shortSpan? = some ⟨b, j⟩ ∧
    ((∀ q, b ≤ q → q < lineStop toks b → ¬A.lifts q (lineStop toks b)) → OnOneLine toks b j)

/-- The tokens from `i` up to `j` are a phrase of the category, the tree stands for it, and all its
conditionals stay on their lines. -/
structure Parsed (A : Account toks) (s : Category) (t : Tree) (i j : Nat) : Prop where
  derived : Derived toks s t i j
  tidy : ∀ n ∈ t.nodes, StaysOnLine A n

theorem Parsed.le (h : Parsed A s t i j) : i ≤ j := h.derived.le

theorem Parsed.own (h : Parsed A s t i j) : StaysOnLine A t := by
  intro hshort
  cases t with
  | node => exact h.tidy _ List.mem_cons_self hshort
  | _ => cases hshort

theorem Parsed.intro {items : List Item} (rule : Rule s i j t items)
    (row : Spans toks (Parsed A) items i j) (hown : StaysOnLine A t) : Parsed A s t i j := by
  refine ⟨.intro rule (row.mono Parsed.derived), fun n hn => ?_⟩
  rcases rule.mem_nodes hn with rfl | hn
  · exact hown
  · obtain ⟨item, hitem, hn⟩ := List.mem_flatMap.mp hn
    cases item with
    | part s' t' =>
      obtain ⟨i', j', hpart⟩ := row.ok_of_mem hitem
      exact hpart.tidy n hn
    | _ => cases hn

/-- A phrase of the category is found, or nothing, and then the cursor is where it was.  If a phrase is
found, there are `j` tokens before the cursor. -/
def Finds (A : Account toks) (c₀ : Cursor) (k j : Nat) (s : Category) (i : Nat) :
    Option Tree → Cursor → Prop
  | some t, c' => Onward A c₀ j c' ∧ Parsed A s t i c'.pos
  | none, c' => Onward A c₀ k c' ∧ c'.pos = i

/-- A phrase of the category is found, or nothing, and then empty parentheses may have been passed
over. -/
def FindsOrPasses (A : Account toks) (c₀ : Cursor) (k : Nat) (s : Category) (i : Nat) (r : Option Tree)
    (c' : Cursor) : Prop :=
  Onward A c₀ k c' ∧ match r with
    | some t => Parsed A s t i c'.pos
    | none => Parsed A .nothing .absent i c'.pos

theorem Finds.none (hc : Onward A c₀ k c) : Finds A c₀ k j s c.pos none c :=
  ⟨hc, rfl⟩

theorem Finds.onward (h : Finds A c₀ k j s i r c') (hkj : k ≤ j) : Onward A c₀ k c' := by
  cases r with
  | some t => exact h.1.counting (Nat.le_trans hkj h.1.room)
  | none => exact h.1

theorem Finds.row {r : Option Tree} (h : Finds A c₀ k j s i r c') :
    Spans toks (Parsed A) (r.toList.map (.part s)) i c'.pos := by
  cases r with
  | some t => exact .part h.2 (.nil _)
  | none =>
    have hpos : c'.pos = i := h.2
    rw [hpos]
    exact .nil _

theorem FindsOrPasses.perhaps (h : FindsOrPasses A c₀ k .expression i r c') :
    Parsed A .perhaps (.ofOption r) i c'.pos := by
  cases r with
  | some t => exact .intro (.given _ _ t) (.part h.2 (.nil _)) h.2.own
  | none => exact .intro (.missing _ _) (.part h.2 (.nil _)) nofun

/-- A round of a repetition finds a row of items and has taken a token, or leaves what `E` says. -/
def Round {α : Type} (A : Account toks) (c₀ : Cursor) (k : Nat) (row : α → List Item)
    (E : Nat → Nat → Prop) (i : Nat) : Option α → Cursor → Prop
  | some a, c' => Onward A c₀ (k + 1) c' ∧ Spans toks (Parsed A) (row a) i c'.pos
  | none, c' => Onward A c₀ k c' ∧ E i c'.pos

namespace Ensures

theorem repeated {α : Type} {p : Parse (Option α)} (row : α → List Item) {E : Nat → Nat → Prop}
    (h : ∀ {j c}, k ≤ j → Onward A c₀ j c → Ensures A p c (Round A c₀ j row E c.pos))
    (hc : Onward A c₀ k c) : Ensures A (repeated p (rounds toks)) c fun as c' => Onward A c₀ k c' ∧
      ∃ m, Spans toks (Parsed A) (as.flatMap row) c.pos m ∧ E m c'.pos := by
  refine rounds_induct (P := fun n c => Onward A c₀ k c → Ensures A (Grammar.repeated p n) c
    fun as c' => Onward A c₀ k c' ∧ ∃ m, Spans toks (Parsed A) (as.flatMap row) c.pos m ∧ E m c'.pos)
    (fun n c ih hc => ?_) c hc.size hc
  refine .andThen (h hc.room (hc.counting (Nat.le_refl _))) fun r c₁ hr => ?_
  cases r with
  | none => exact .pure ⟨hr.1.counting (Nat.le_trans hc.room hr.1.room), c.pos, .nil c.pos, hr.2⟩
  | some a =>
    have hc₁ := hr.1.less.counting (Nat.le_trans hc.room hr.1.less.room)
    refine .andThen (ih c₁ hr.1.room hr.1.size hc₁) fun as c₂ has => .pure ?_
    obtain ⟨hc₂, m, hrows, hE⟩ := has
    exact ⟨hc₂, m, hr.2.append hrows, hE⟩

theorem extended {p : Tree → Parse (Option Tree)} {I : Tree → Cursor → Prop}
    (h : ∀ {j t c}, k ≤ j → Onward A c₀ j c → I t c → Ensures A (p t) c fun r c' => match r with
      | some t' => Onward A c₀ (j + 1) c' ∧ I t' c'
      | none => Onward A c₀ j c' ∧ I t c')
    {t : Tree} (hc : Onward A c₀ k c) (ht : I t c) :
    Ensures A (extended p (rounds toks) t) c fun t' c' => Onward A c₀ k c' ∧ I t' c' := by
  refine rounds_induct (P := fun n c => ∀ t, Onward A c₀ k c → I t c →
    Ensures A (Grammar.extended p n t) c fun t' c' => Onward A c₀ k c' ∧ I t' c')
    (fun n c ih t hc ht => ?_) c hc.size t hc ht
  refine .andThen (h hc.room (hc.counting (Nat.le_refl _)) ht) fun r c₁ hr => ?_
  cases r with
  | none => exact .pure ⟨hr.1.counting (Nat.le_trans hc.room hr.1.room), hr.2⟩
  | some t' =>
    exact ih c₁ hr.1.room hr.1.size t' (hr.1.less.counting (Nat.le_trans hc.room hr.1.less.room)) hr.2

theorem firstOf_finds {ps rest : List (Parse (Option Tree))} {Q : Option Tree → Cursor → Prop}
    (h : ∀ p ∈ ps, ∀ c, Onward A c₀ k c → c.pos = i → Ensures A p c (Finds A c₀ k (k + 1) s i))
    (hsome : ∀ t c, Onward A c₀ (k + 1) c → Parsed A s t i c.pos → Q (some t) c)
    (hnone : ∀ c, Onward A c₀ k c → c.pos = i → Ensures A (firstOf rest) c Q) (hc : Onward A c₀ k c)
    (hpos : c.pos = i) : Ensures A (firstOf (ps ++ rest)) c Q := by
  induction ps generalizing c with
  | nil => exact hnone c hc hpos
  | cons p ps ih =>
    refine .firstOf_cons ((h p List.mem_cons_self c hc hpos).mono fun r c' hr => ?_)
    cases r with
    | some t => exact hsome t c' hr.1 hr.2
    | none => exact ih (fun q hq => h q (List.mem_cons_of_mem p hq)) hr.1 hr.2

end Ensures

/-! ### Phrases without inner ones -/

section Tokens

theorem nameList_finds (hc : Onward A c₀ k c) :
    Ensures A (nameList toks) c (Finds A c₀ k (k + 1) .names c.pos) := by
  refine .fromHere (.lead hc (fun first m hfirst hc₁ => ?_) (.pure (.none hc)))
  refine .andThen (.repeated (fun t => [.sign ",", .name t]) (E := Eq) (fun _ hc => ?_) hc₁) ?_
  · refine .attempt (.lead hc (fun _ n hcomma hc' => ?_) (.pure ⟨hc, rfl⟩))
    refine .accept (fun t m ht hreach => ?_) fun _ => ?_
    · exact ⟨(hc'.take ht hreach).less, .word hcomma (.leaf ht (.nil _))⟩
    · exact ⟨hc'.goBack hc (Nat.le_succ_of_le hcomma.blank.le), rfl⟩
  · rintro rest c₂ ⟨hc₂, m, hrest, rfl⟩
    exact .fromHere (.pure ⟨hc₂, .intro (.names _ _ first rest) (.leaf hfirst hrest) nofun⟩)

theorem functionName_finds (hc : Onward A c₀ k c) :
    Ensures A (functionName toks) c (Finds A c₀ k (k + 1) .path c.pos) := by
  refine .fromHere (.lead hc (fun first m hfirst hc₁ => ?_) (.pure (.none hc)))
  refine .andThen (.repeated (fun t => [.sign ".", .name t]) (E := Eq) (fun _ hc => ?_) hc₁) ?_
  · refine .lead hc (fun _ n hpoint hc' => ?_) (.pure ⟨hc, rfl⟩)
    exact .expect hc' fun t k ht hc'' => .pure ⟨hc'', .word hpoint (.leaf ht (.nil _))⟩
  · rintro rest c₂ ⟨hc₂, m, hrest, rfl⟩
    refine .take hc₂ (fun _ n hcolon hc₃ => ?_) (.bind (.pure ?_))
    · refine .expect hc₃ fun t k ht hc₄ => .bind (.pure (.fromHere (.pure ⟨hc₄, ?_⟩)))
      exact .intro (.path _ _ first rest (some t))
        (.leaf hfirst (hrest.append (.word hcolon (.leaf ht (.nil _))))) nofun
    · refine .fromHere (.pure ⟨hc₂, ?_⟩)
      exact .intro (.path _ _ first rest none) (.leaf hfirst (hrest.append (.nil _))) nofun

theorem constant_finds {word : String} {value : Tree} (h : (word, value) ∈ constants)
    (hc : Onward A c₀ k c) :
    Ensures A (constant toks word value) c (Finds A c₀ k (k + 1) .term c.pos) := by
  refine .fromHere (.lead hc (fun _ m hword hc₁ => ?_) (.pure (.none hc)))
  exact .fromHere (.pure ⟨hc₁, .intro (.constant _ _ h) (.word hword (.nil _)) nofun⟩)

theorem literal_finds {kind : TokenKind} (h : kind = .number ∨ kind = .string)
    (hc : Onward A c₀ k c) : Ensures A (literal toks kind) c (Finds A c₀ k (k + 1) .term c.pos) := by
  have hsolid : (Pattern.kind kind).Solid := by
    rcases h with rfl | rfl <;> infer_instance
  refine .fromHere (.lead hc (fun t m ht hc₁ => ?_) (.pure (.none hc)))
  exact .fromHere (.pure ⟨hc₁, .intro (.literal _ _ h t) (.leaf ht (.nil _)) nofun⟩)

theorem gotoStatement_finds (hc : Onward A c₀ k c) :
    Ensures A (gotoStatement toks) c (Finds A c₀ k (k + 1) .statement c.pos) := by
  refine .fromHere (.lead hc (fun _ m hgoto hc₁ => ?_) (.pure (.none hc)))
  refine .expect hc₁ fun t m₂ ht hc₂ => .fromHere (.pure ⟨hc₂, ?_⟩)
  exact .intro (.jump _ _ t) (.word hgoto (.leaf ht (.nil _))) nofun

theorem labelStatement_finds (hc : Onward A c₀ k c) :
    Ensures A (labelStatement toks) c (Finds A c₀ k (k + 1) .statement c.pos) := by
  refine .fromHere (.lead hc (fun t m ht hc₁ => ?_) (.pure (.none hc)))
  exact .fromHere (.pure ⟨hc₁, .intro (.label _ _ t) (.leaf ht (.nil _)) nofun⟩)

end Tokens

/-! ### Phrases over blocks and expressions -/

def Settled (toks : Array Token) (c : Cursor) : Prop :=
  (firstOf (binaryOperators.map (accept toks))).run c = .ok (none, c)

abbrev thenOrDo : List Pattern := [.exact (Token.keyword "then"), .exact (Token.keyword "do")]

/-- Account is taken of the conditionals whose conditions are read behind an `if`. -/
structure Watched (A : Account toks) (inner : Phrase → Parse (Option Tree)) : Prop where
  /-- The condition ends with a parenthesis, and no further word is within the limit: then a conditional
  on one line opens. -/
  opens : ∀ {m l t c}, HasIf toks m → Cursor.Sound toks ⟨m + 1, some l⟩ →
    (inner .expression).run ⟨m + 1, some l⟩ = .ok (some t, c) → closesBefore toks c.pos = true →
    (∀ u n, Takes toks thenOrDo c.pos u n → l ≤ n) → A.lifts m l
  /-- There is no condition, or it ends with a parenthesis and has no value: then the conditional has
  none. -/
  odd : ∀ {c₀ j m l r c}, HasIf toks m → Onward A c₀ j ⟨m + 1, l⟩ → c₀.pos ≤ m →
    (inner .expression).run ⟨m + 1, l⟩ = .ok (r, c) →
    (∀ u n, Takes toks thenOrDo c.pos u n → ∃ l', c.limit = some l' ∧ l' ≤ n) →
    (∀ t ∈ r, closesBefore toks c.pos = true ∧ t.isA .expValue = false) → A.fails .missingPart

/-- The inner phrases are found wherever there are `k` tokens before the cursor. -/
structure Inner (A : Account toks) (k : Nat) (inner : Phrase → Parse (Option Tree)) : Prop where
  block : ∀ {c₀ c : Cursor}, Onward A c₀ k c →
    Ensures A (inner .block) c fun r c' => r ≠ none ∧ Finds A c₀ k k .block c.pos r c'
  expression : ∀ {c₀ c : Cursor}, Onward A c₀ k c →
    Ensures A (inner .expression) c (FindsOrPasses A c₀ k .expression c.pos)
  settles : ∀ c, Ensures (.free toks) (inner .expression) c fun r c' => r ≠ none → Settled toks c'
  watched : Watched A inner

theorem Inner.later {inner : Phrase → Parse (Option Tree)} (h : Inner A k inner) (hk : k ≤ j) :
    Inner A j inner := by
  refine ⟨fun hc => ?_, fun hc => ?_, h.settles, h.watched⟩
  · refine (h.block (hc.counting (Nat.le_trans hk hc.room))).mono fun r c' hr => ⟨hr.1, ?_⟩
    cases r with
    | some t => exact ⟨hr.2.1.counting (Nat.le_trans hc.room hr.2.2.le), hr.2.2⟩
    | none => exact absurd rfl hr.1
  · refine (h.expression (hc.counting (Nat.le_trans hk hc.room))).mono fun r c' hr => ?_
    cases r with
    | some t => exact ⟨hr.1.counting (Nat.le_trans hc.room hr.2.le), hr.2⟩
    | none => exact ⟨hr.1.counting (Nat.le_trans hc.room hr.2.le), hr.2⟩

def Closes (A : Account toks) (i j : Nat) : Prop :=
  ∃ closing : Bool, Spans toks (Parsed A)
    (if closing then [.separator, .part .nothing .absent] else []) i j

section Phrases

variable {inner : Phrase → Parse (Option Tree)} (hin : Inner A (k + 1) inner)
include hin

theorem expList_finds (hc : Onward A c₀ (k + 1) c) :
    Ensures A (expList toks inner) c (Finds A c₀ (k + 1) (k + 1) .expressions c.pos) := by
  refine .attempt (.fromHere (.andThen (hin.expression hc) fun r c₁ hr => ?_))
  obtain ⟨hc₁, hr⟩ := hr
  cases r with
  | none => exact .pure ⟨hc₁.goBack hc hr.le, rfl⟩
  | some first =>
    refine .andThen (.repeated (fun t => [.sign ",", .part .expression t]) (E := Eq) (fun hj hc => ?_)
      hc₁) ?_
    · refine .lead hc (fun _ n hcomma hc' => ?_) (.pure ⟨hc, rfl⟩)
      have hin := hin.later (Nat.le_succ_of_le hj)
      refine .require (hin.expression hc') fun t c'' ht => .pure ⟨ht.1, ?_⟩
      exact .word hcomma (.part ht.2 (.nil _))
    · rintro rest c₂ ⟨hc₂, m, hrest, rfl⟩
      exact .fromHere (.pure ⟨hc₂, .intro (.expressions _ _ first rest) (.part hr hrest) nofun⟩)

theorem tableField_finds (hc : Onward A c₀ (k + 1) c) :
    Ensures A (tableField toks inner) c (FindsOrPasses A c₀ (k + 1) .field c.pos) := by
  refine .fromHere (.take hc (fun _ m hopen hc₁ => ?_) ?_)
  · refine .require (hin.expression hc₁) fun key c₂ hkey => ?_
    refine .skip hkey.1 fun _ m₃ hclose hc₃ => .skip hc₃ fun _ m₄ hequal hc₄ => ?_
    refine .require (hin.expression hc₄) fun value c₅ hvalue => .fromHere (.pure ⟨hvalue.1, ?_⟩)
    exact .intro (.keyField _ _ key value)
      (.word hopen (.part hkey.2 (.word hclose (.word hequal (.part hvalue.2 (.nil _)))))) nofun
  · -- a field without a name starts where the search for a name has started
    have hplain : ∀ c', Onward A c₀ (k + 1) c' → c'.pos = c.pos → Ensures A (do
        match ← inner .expression with
        | some value => return some (.made .fieldExp [value] c.pos (← here))
        | none => return none) c' (FindsOrPasses A c₀ (k + 1) .field c.pos) := by
      intro c' hc' hpos
      refine .andThen (hin.expression hc') fun r c₁ hr => ?_
      rw [hpos] at hr
      cases r with
      | some value =>
        exact .fromHere (.pure ⟨hr.1, .intro (.plainField _ _ value) (.part hr.2 (.nil _)) nofun⟩)
      | none => exact .pure ⟨hr.1, hr.2⟩
    refine .bind (.attempt (.take hc (fun key m hkey hc₁ => ?_) (.pure (hplain _ hc rfl))))
    have hback : Onward A c₀ (k + 1) { pos := c.pos, limit := c.limit } := hc
    refine .take hc₁ (fun _ m₂ hequal hc₂ => ?_) (.pure (hplain _ hback rfl))
    refine .require (hin.expression hc₂) fun value c₃ hvalue => .fromHere (.pure (.pure ?_))
    refine ⟨hvalue.1, .intro (.namedField _ _ key value) ?_ nofun⟩
    exact .leaf hkey (.word hequal (.part hvalue.2 (.nil _)))

theorem furtherField_finds (hc : Onward A c₀ k c) :
    Ensures A (do
      match ← firstOf [symbol toks ",", symbol toks ";"] with
      | none => return none
      | some _ => tableField toks inner) c
      (Round A c₀ k (fun t => [.separator, .part .field t]) (Closes A) c.pos) := by
  refine .bind (.leadFirst [.exact (Token.symbol ","), .exact (Token.symbol ";")]
    (by decide) hc (fun _ m hseparator hc' => ?_) (.pure ⟨hc, false, .nil _⟩))
  refine (tableField_finds hin hc').mono fun r c₁ hr => ?_
  cases r with
  | some t => exact ⟨hr.1, .word hseparator (.part hr.2 (.nil _))⟩
  | none => exact ⟨hr.1.less, true, .word hseparator (.part hr.2 (.nil _))⟩

theorem table_finds (hc : Onward A c₀ k c) :
    Ensures A (table toks inner) c (Finds A c₀ k (k + 1) .table c.pos) := by
  refine .fromHere (.lead hc (fun _ m hopen hc₁ => ?_) (.pure (.none hc)))
  refine .andThen (tableField_finds hin hc₁) fun first c₂ hfirst => ?_
  refine .andThen (.repeated _ (fun hj hc => furtherField_finds (hin.later (Nat.le_succ_of_le hj)) hc)
    hfirst.1) ?_
  rintro rest c₃ ⟨hc₃, m, hrest, closing, hclosing⟩
  refine .skip hc₃ fun _ m₄ hclose hc₄ => .fromHere (.pure ⟨hc₄, ?_⟩)
  refine .intro (.table _ _ first rest closing) (.word hopen (.append ?_ (hrest.append
    (hclosing.append (.word hclose (.nil _)))))) nofun
  cases first with
  | some t => exact .part hfirst.2 (.nil _)
  | none => exact .part hfirst.2 (.nil _)

theorem arguments_finds (hc : Onward A c₀ k c) :
    Ensures A (arguments toks inner) c (Finds A c₀ k (k + 1) .arguments c.pos) := by
  refine .fromHere (.lead hc (fun _ m hopen hc₁ => ?_) ?_)
  · refine .andThen (expList_finds hin hc₁) fun exps c₂ hexps => ?_
    refine .skip (hexps.onward (Nat.le_refl _)) fun _ m₃ hclose hc₃ => .fromHere (.pure ⟨hc₃, ?_⟩)
    exact .intro (.givenArguments _ _ exps)
      (.word hopen (hexps.row.append (.word hclose (.nil _)))) nofun
  · refine .andThen (table_finds hin hc) fun r c₁ hr => ?_
    cases r with
    | some t => exact .pure ⟨hr.1, .intro (.tableArgument _ _ t) (.part hr.2 (.nil _)) hr.2.own⟩
    | none =>
      have hpos : c₁.pos = c.pos := hr.2
      refine .lead hr.1 (fun t m ht hc₂ => .pure ⟨hc₂, ?_⟩) (.pure hr)
      rw [hpos] at ht
      exact .intro (.stringArgument _ _ t) (.leaf ht (.nil _)) nofun

theorem suffix_finds (hc : Onward A c₀ k c) (hfirst : Parsed A .base first i c.pos) :
    Ensures A (suffix toks inner first) c fun r c' => match r with
      | some t => Onward A c₀ (k + 1) c' ∧ Parsed A .chain t i c'.pos
      | none => Onward A c₀ k c' ∧ c'.pos = c.pos := by
  refine .fromHere (.lead hc (fun _ m hopen hc₁ => ?_) ?_)
  · refine .require (hin.expression hc₁) fun key c₂ hkey => ?_
    refine .skip hkey.1 fun _ m₃ hclose hc₃ => .fromHere (.pure ⟨hc₃, ?_⟩)
    exact .intro (.index _ _ _ first key)
      (.part hfirst (.place (.word hopen (.part hkey.2 (.word hclose (.nil _)))))) nofun
  refine .lead hc (fun _ m hpoint hc₁ => ?_) ?_
  · refine .expect hc₁ fun t m₂ ht hc₂ => .fromHere (.pure ⟨hc₂, ?_⟩)
    exact .intro (.attribute _ _ _ first t)
      (.part hfirst (.place (.word hpoint (.leaf ht (.nil _))))) nofun
  refine .andThen (arguments_finds hin hc) fun r c₁ hr => ?_
  cases r with
  | some args =>
    refine .fromHere (.pure ⟨hr.1, ?_⟩)
    exact .intro (.callOf _ _ _ first args) (.part hfirst (.place (.part hr.2 (.nil _)))) nofun
  | none =>
    have hpos : c₁.pos = c.pos := hr.2
    refine .lead hr.1 (fun _ m₂ hcolon hc₂ => ?_) (.pure hr)
    refine .expect hc₂ fun t m₃ ht hc₃ => ?_
    refine .require (arguments_finds hin hc₃.less) fun args c₄ hargs => .fromHere (.pure ⟨hargs.1, ?_⟩)
    rw [hpos] at hcolon
    exact .intro (.methodOf _ _ _ first args t)
      (.part hfirst (.place (.word hcolon (.leaf ht (.part hargs.2 (.nil _)))))) nofun

theorem prefixed_finds (hc : Onward A c₀ k c) :
    Ensures A (prefixed toks inner) c fun r c' => match r with
      | some t => Onward A c₀ (k + 1) c' ∧ (Parsed A .chain t c.pos c'.pos ∨
          Spans toks (Parsed A) [.sign "(", .part .expression t, .sign ")"] c.pos c'.pos)
      | none => Onward A c₀ k c' ∧ Parsed A .nothing .absent c.pos c'.pos := by
  refine .fromHere (.lead hc (fun n m hname hc₁ => .fromHere ?_) ?_)
  · have hfirst : Parsed A .chain (.made .varName [.token n] c.pos (m + 1)) c.pos (m + 1) :=
      .intro (.variable _ _ n) (.leaf hname (.nil _)) nofun
    refine .andThen (.extended (I := fun t c' => Parsed A .chain t c.pos c'.pos) (fun hj hc ht => ?_)
      hc₁ hfirst) fun t c₂ ht => .pure ⟨ht.1, .inl ht.2⟩
    have hbase := Parsed.intro (.chainBase _ _ _) (.part ht (.nil _)) ht.own
    refine (suffix_finds (hin.later (Nat.le_succ_of_le hj)) hc hbase).mono fun r c' hr => ?_
    cases r with
    | some t' => exact hr
    | none => exact ⟨hr.1, hr.2 ▸ ht⟩
  refine .lead hc (fun _ m hopen hc₁ => ?_) (.pure ⟨hc, .intro (.empty _ _) (.nil _) nofun⟩)
  refine .andThen (hin.expression hc₁) fun exp c₂ hexp => ?_
  refine .skip hexp.1 fun _ m₃ hclose hc₃ => ?_
  have hbase : Parsed A .base (.ofOption exp) c.pos (m₃ + 1) :=
    .intro (.bracketedBase _ _ _) (.word hopen (.part hexp.perhaps (.word hclose (.nil _))))
      hexp.perhaps.own
  -- as long as nothing follows, the parentheses are the whole phrase
  refine .andThen (.extended (I := fun t c' => Parsed A .chain t c.pos c'.pos ∨
    t = .ofOption exp ∧ c'.pos = m₃ + 1) (fun {j t c'} hj hc' ht => ?_) hc₃ (.inr ⟨rfl, rfl⟩)) ?_
  · have hbase' : Parsed A .base t c.pos c'.pos := by
      rcases ht with hchain | ⟨rfl, hk⟩
      · exact .intro (.chainBase _ _ _) (.part hchain (.nil _)) hchain.own
      · rw [hk]
        exact hbase
    refine (suffix_finds (hin.later (Nat.le_succ_of_le hj)) hc' hbase').mono fun r c'' hr => ?_
    cases r with
    | some t' => exact ⟨hr.1, .inl hr.2⟩
    | none => exact ⟨hr.1, hr.2 ▸ ht⟩
  rintro t c₄ ⟨hc₄, hchain | ⟨rfl, hk⟩⟩
  · have hne := hchain.derived.ne_absent rfl
    split
    · exact absurd rfl hne
    · exact .pure ⟨hc₄, .inl hchain⟩
  · cases exp with
    | none =>
      refine .pure ⟨hc₄.less, ?_⟩
      rw [hk]
      exact .intro (.emptyBrackets _ _) (.word hopen (.part hexp.2 (.word hclose (.nil _)))) nofun
    | some t =>
      have hrow : Spans toks (Parsed A) [.sign "(", .part .expression t, .sign ")"] c.pos
          (m₃ + 1) := .word hopen (.part hexp.2 (.word hclose (.nil _)))
      have hne := hexp.2.derived.ne_absent rfl
      dsimp only [Tree.ofOption]
      split
      · exact absurd rfl hne
      · exact .pure ⟨hc₄, .inr (hk ▸ hrow)⟩

theorem functionBody_finds (hc : Onward A c₀ k c) :
    Ensures A (functionBody toks inner) c (Finds A c₀ k (k + 1) .body c.pos) := by
  refine .fromHere (.lead hc (fun _ m hopen hc₁ => ?_) (.pure (.none hc)))
  refine .andThen (nameList_finds hc₁) fun names c₂ hnames => ?_
  have hc₂ := hnames.onward (Nat.le_succ _)
  -- what follows the parameters, whether dots were among them or not
  have hrest : ∀ (dots : Option Tree) (c₃ : Cursor), Onward A c₀ (k + 1) c₃ →
      Spans toks (Parsed A) (dots.toList.flatMap fun t =>
        (if names.isSome then [.sign ","] else []) ++ [.part .dots t]) c₂.pos c₃.pos →
      Ensures A (afterParameters toks inner c.pos names (.ofOption dots)) c₃
        (Finds A c₀ k (k + 1) .body c.pos) := by
    intro dots c₃ hc₃ hdots
    refine .skip hc₃ fun _ m₄ hclose hc₄ => ?_
    refine .require (hin.block hc₄) fun block c₅ hblock => ?_
    refine .skip hblock.2.1 fun _ m₆ hend hc₆ => .fromHere (.pure ⟨hc₆, ?_⟩)
    exact .intro (.body _ _ names dots block) (.word hopen (hnames.row.append (hdots.append
      (.word hclose (.part hblock.2.2 (.word hend (.nil _))))))) nofun
  cases names with
  | some t =>
    refine .take hc₂ (fun _ m₃ hcomma hc₃ => .fromHere ?_)
      (.bind (.pure (hrest none _ hc₂ (.nil _))))
    refine .skip hc₃ fun _ m₄ hdots hc₄ => .fromHere (.bind (.pure ?_))
    have hpart : Parsed A .dots (.made .varargDots [] (m₃ + 1) (m₄ + 1)) (m₃ + 1) (m₄ + 1) :=
      .intro (.dots _ _) (.word hdots (.nil _)) nofun
    exact hrest (some _) _ hc₄ (.word hcomma (.part hpart (.nil _)))
  | none =>
    refine .fromHere (.take hc₂ (fun _ m₃ hdots hc₃ => .fromHere (.bind (.pure ?_)))
      (.bind (.pure (hrest none _ hc₂ (.nil _)))))
    have hpart : Parsed A .dots (.made .varargDots [] c₂.pos (m₃ + 1)) c₂.pos (m₃ + 1) :=
      .intro (.dots _ _) (.word hdots (.nil _)) nofun
    exact hrest (some _) _ hc₃ (.part hpart (.nil _))

theorem function_finds (hc : Onward A c₀ k c) :
    Ensures A (function toks inner) c (Finds A c₀ k (k + 1) .function c.pos) := by
  refine .fromHere (.lead hc (fun _ m hfunction hc₁ => ?_) (.pure (.none hc)))
  refine .require (functionBody_finds hin hc₁.less) fun body c₂ hbody =>
    .fromHere (.pure ⟨hbody.1, ?_⟩)
  exact .intro (.function _ _ body) (.word hfunction (.part hbody.2 (.nil _))) nofun

theorem unary_finds (hc : Onward A c₀ k c) (hpassed : Parsed A .nothing .absent i c.pos) :
    Ensures A (unary toks inner i) c fun r c' => match r with
      | some t => Onward A c₀ (k + 1) c' ∧ Parsed A .term t i c'.pos
      | none => Onward A c₀ k c' ∧ c'.pos = c.pos := by
  refine .bind (.leadFirst unaryOperators (by decide) hc (fun op m hop hc₁ => ?_)
    (.pure ⟨hc, rfl⟩))
  refine .require (hin.expression hc₁) fun exp c₂ hexp => .fromHere (.pure ⟨hexp.1, ?_⟩)
  exact .intro (.unary _ _ op exp) (.part hpassed (.leaf hop (.part hexp.2 (.nil _)))) nofun

def furtherArguments (toks : Array Token) (start : Nat) : Parse (Option Tree) := do
  match ← symbol toks "..." with
  | none => return none
  | some _ => return some (.made .varargDots [] start (← here))

theorem term_finds (hc : Onward A c₀ k c) :
    Ensures A (term toks inner) c (FindsOrPasses A c₀ k .term c.pos) := by
  refine .fromHere ?_
  have hplain : ∀ p ∈ [constant toks "nil" .absent, constant toks "false" (.truth false),
      constant toks "true" (.truth true), literal toks .number, literal toks .string,
      furtherArguments toks c.pos, asValue c.pos (function toks inner)],
      ∀ c', Onward A c₀ k c' → c'.pos = c.pos → Ensures A p c' (Finds A c₀ k (k + 1) .term c.pos) := by
    intro p hp c' hc' hpos
    simp only [List.mem_cons, List.not_mem_nil, or_false] at hp
    rw [← hpos] at hp ⊢
    rcases hp with rfl | rfl | rfl | rfl | rfl | rfl | rfl
    · exact constant_finds List.mem_cons_self hc'
    · exact constant_finds (List.mem_cons_of_mem _ List.mem_cons_self) hc'
    · exact constant_finds (List.mem_cons_of_mem _ (List.mem_cons_of_mem _ List.mem_cons_self)) hc'
    · exact literal_finds (.inl rfl) hc'
    · exact literal_finds (.inr rfl) hc'
    · refine .lead hc' (fun _ m hdots hc₁ => .fromHere (.pure ⟨hc₁, ?_⟩)) (.pure (.none hc'))
      have hpart : Parsed A .dots (.made .varargDots [] c'.pos (m + 1)) c'.pos (m + 1) :=
        .intro (.dots _ _) (.word hdots (.nil _)) nofun
      exact .intro (.allArguments _ _ _) (.part hpart (.nil _)) nofun
    · refine .andThen (function_finds hin hc') fun r c₁ hr => ?_
      cases r with
      | some t =>
        exact .fromHere (.pure ⟨hr.1, .intro (.functionValue _ _ t) (.part hr.2 (.nil _)) nofun⟩)
      | none => exact .pure hr
  refine .firstOf_finds hplain (fun t c' hc' ht => ⟨hc'.less, ht⟩) (fun c₁ hc₁ hpos => ?_) hc rfl
  rw [← hpos]
  refine .firstOf_cons (.andThen (prefixed_finds hin hc₁) fun r c₂ hr => ?_)
  cases r with
  | some t =>
    refine .fromHere (.pure ⟨hr.1.less, ?_⟩)
    rcases hr.2 with hchain | hrow
    · exact .intro (.chainValue _ _ t) (.part hchain (.nil _)) nofun
    · exact .intro (.bracketed _ _ t) hrow nofun
  | none =>
    -- empty parentheses may have been passed over
    refine .pure (.firstOf_cons (.andThen (table_finds hin hr.1) fun r c₃ hr₃ => ?_))
    cases r with
    | some t =>
      refine .fromHere (.pure ⟨hr₃.1.less, ?_⟩)
      exact .intro (.tableValue _ _ t) (.part hr.2 (.part hr₃.2 (.nil _))) nofun
    | none =>
      have hpassed : Parsed A .nothing .absent c₁.pos c₃.pos := hr₃.2 ▸ hr.2
      refine .pure (.firstOf_cons ((unary_finds hin hr₃.1 hpassed).mono fun r c₄ hr₄ => ?_))
      cases r with
      | some t => exact ⟨hr₄.1.less, hr₄.2⟩
      | none => exact .firstOf_nil ⟨hr₄.1, hr₄.2 ▸ hpassed⟩

omit hin in
theorem expression_settles (c : Cursor) :
    Ensures (.free toks) (expression toks inner) c fun r c' => r ≠ none → Settled toks c' := by
  have hloop : ∀ n t c, Ensures (.free toks) (extended (operation toks inner) n t) c
      fun _ c' => Settled toks c' := by
    intro n
    induction n with
    | zero => exact fun _ _ => .throw trivial
    | succ n ih =>
      intro t c
      have hstill : Ensures (.free toks) (firstOf (binaryOperators.map (accept toks))) c
          fun r c' => r = none → c' = c :=
        .acceptFirst _ (by decide) (fun _ _ _ _ => nofun) fun _ _ => rfl
      refine .bind (.fromHere (.andThen (hstill.and .ran) fun r c₁ hr => ?_))
      cases r with
      | none =>
        obtain rfl := hr.1 rfl
        exact .pure (.pure hr.2)
      | some op => exact .andThen .ran fun second c₂ _ => .fromHere (.pure (ih _ _))
  refine .andThen .ran fun r c₁ _ => ?_
  cases r with
  | none => exact .pure (absurd rfl)
  | some first => exact .andThen (hloop _ first c₁) fun t c₂ ht => .pure fun _ => ht

theorem term_settles (c : Cursor) :
    Ensures (.free toks) (term toks inner) c fun r c' => ∀ t ∈ r, t.endsUnary = true → Settled toks c' := by
  have hmade : ∀ {k fs start}, (∀ stop, (Tree.made k fs start stop).endsUnary = false) → ∀ c : Cursor,
      Ensures (.free toks) (do return some (Tree.made k fs start (← here))) c fun r c' =>
        ∀ t ∈ r, t.endsUnary = true → Settled toks c' := by
    intro k fs start hk c
    refine .fromHere (.pure ?_)
    rintro t ⟨⟩ ht
    cases (hk c.pos).symm.trans ht
  refine .fromHere (.firstOf_each (fun p hp c' => ?_) c)
  simp only [List.mem_cons, List.not_mem_nil, or_false] at hp
  rcases hp with rfl | rfl | rfl | rfl | rfl | rfl | rfl | rfl | rfl | rfl
  iterate 5
    refine .fromHere (.andThen .ran fun r c₁ _ => ?_)
    cases r with
    | none => exact .pure nofun
    | some a => exact hmade (fun _ => rfl) c₁
  iterate 4
    refine .andThen .ran fun r c₁ _ => ?_
    cases r with
    | none => exact .pure nofun
    | some a => exact hmade (fun _ => rfl) c₁
  refine .andThen .ran fun r c₁ _ => ?_
  cases r with
  | none => exact .pure nofun
  | some op =>
    refine .require (hin.settles c₁) fun exp c₂ hexp => .fromHere (.pure ?_)
    rintro t ⟨⟩ _
    exact hexp nofun

theorem operation_finds (hc : Onward A c₀ k c) (hfirst : Parsed A .expression first i c.pos)
    (hopen : first.endsUnary = true → Settled toks c) :
    Ensures A (operation toks inner first) c fun r c' => match r with
      | some t => Onward A c₀ (k + 1) c' ∧ Parsed A .expression t i c'.pos ∧
          (t.endsUnary = true → Settled toks c')
      | none => Onward A c₀ k c' ∧ c' = c := by
  have htaken := Ensures.leadFirst binaryOperators (by decide) hc
    (Q := fun r c' => match r with
      | some op => Onward A c₀ (k + 1) c' ∧ ∃ m, Takes toks binaryOperators c.pos op m ∧ c'.pos = m + 1
      | none => c' = c) (fun op m hop hc₁ => ⟨hc₁, m, hop, rfl⟩) rfl
  refine .fromHere (.andThen (htaken.and .ran) fun r c₁ hr => ?_)
  obtain ⟨hop, hrun⟩ := hr
  cases r with
  | none =>
    obtain rfl : c₁ = c := hop
    exact .pure ⟨hc, rfl⟩
  | some op =>
    obtain ⟨hc₁, m, hop, hpos⟩ := hop
    have hunary : first.endsUnary = false :=
      Bool.eq_false_iff.mpr fun h => nomatch (hopen h).symm.trans hrun
    refine .require ((term_finds hin hc₁.less).and (term_settles hin c₁)) fun second c₂ hsecond =>
      .fromHere (.pure ⟨?_, ?_, fun h => ?_⟩)
    · exact hsecond.1.1.counting (Nat.le_trans hc₁.room hsecond.1.2.le)
    · rw [FindsOrPasses, hpos] at hsecond
      exact .intro (.operation _ _ _ first second op hunary)
        (.part hfirst (.place (.leaf hop (.part hsecond.1.2 (.nil _))))) nofun
    · rw [Tree.made, Tree.endsUnary] at h
      exact hsecond.2 second rfl h

theorem expression_finds (hc : Onward A c₀ k c) :
    Ensures A (expression toks inner) c (FindsOrPasses A c₀ k .expression c.pos) := by
  refine .andThen ((term_finds hin hc).and (term_settles hin c)) fun r c₁ hr => ?_
  cases r with
  | none => exact .pure hr.1
  | some first =>
    have hfirst : Parsed A .expression first c.pos c₁.pos :=
      .intro (.single _ _ first) (.part hr.1.2 (.nil _)) hr.1.2.own
    refine .andThen (.extended (I := fun t c' => Parsed A .expression t c.pos c'.pos ∧
      (t.endsUnary = true → Settled toks c')) (fun hj hc ht => ?_) hr.1.1 ⟨hfirst, hr.2 first rfl⟩)
      fun t c₂ ht => .pure ⟨ht.1, ht.2.1⟩
    refine (operation_finds (hin.later (Nat.succ_le_succ hj)) hc ht.1 ht.2).mono fun r c' hr => ?_
    cases r with
    | some t' => exact hr
    | none =>
      obtain ⟨hc', rfl⟩ := hr
      exact ⟨hc', ht⟩

/-! ### Statements -/

theorem assignable_finds (hc : Onward A c₀ k c) :
    Ensures A (assignable toks inner) c fun r c' => match r with
      | some t => Onward A c₀ (k + 1) c' ∧ Parsed A .chain t c.pos c'.pos
      | none => Onward A c₀ k c' ∧ c.pos ≤ c'.pos := by
  refine .andThen (prefixed_finds hin hc) fun r c₁ hr => ?_
  cases r with
  | none => exact .pure ⟨hr.1, hr.2.le⟩
  | some t =>
    rcases hr.2 with hchain | hrow
    · show Ensures A (if _ then _ else _) c₁ _
      split
      · exact .pure ⟨hr.1, hchain⟩
      · exact .pure ⟨hr.1.less, hchain.le⟩
    · -- an expression in parentheses is no variable
      have hle := hrow.le Parsed.le
      have hkind := isExpression_of_row (hrow.mono Parsed.derived)
      have hnone : (t.isA .varName || t.isA .varAttribute || t.isA .varIndex) = false := by
        rw [isA_of_isExpression hkind rfl, isA_of_isExpression hkind rfl,
          isA_of_isExpression hkind rfl]
        rfl
      show Ensures A (if _ then _ else _) c₁ _
      rw [hnone]
      exact .pure ⟨hr.1.less, hle⟩

omit hin in
theorem assignable_isVariable (c : Cursor) :
    Ensures (.free toks) (assignable toks inner) c fun r _ => ∀ t ∈ r, t.isVariable = true := by
  refine .andThen .ran fun r c₁ _ => ?_
  cases r with
  | none => exact .pure nofun
  | some t =>
    show Ensures (.free toks) (if _ then _ else _) c₁ _
    split
    · next h =>
      refine .pure ?_
      rintro u ⟨⟩
      exact h
    · exact .pure nofun

theorem varList_finds (hc : Onward A c₀ k c) :
    Ensures A (varList toks inner) c fun r c' => match r with
      | some t => Onward A c₀ (k + 1) c' ∧ Parsed A .variables t c.pos c'.pos
      | none => Onward A c₀ k c' ∧ c.pos ≤ c'.pos := by
  refine .fromHere (.andThen ((assignable_finds hin hc).and (assignable_isVariable c)) fun r c₁ hr => ?_)
  obtain ⟨hr, hfirst⟩ := hr
  cases r with
  | none => exact .pure hr
  | some first =>
    refine .andThen (.and (.repeated (fun t => [.sign ",", .part .chain t]) (E := Eq) (fun hj hc => ?_)
      hr.1) (.repeated_all (P := fun t => t.isVariable = true) (fun c => ?_) _ c₁)) ?_
    · refine .lead hc (fun _ n hcomma hc' => ?_) (.pure ⟨hc, rfl⟩)
      have hin := hin.later (Nat.le_succ_of_le hj)
      refine .require (assignable_finds hin hc'.less) fun t c'' ht => .pure ⟨ht.1, ?_⟩
      exact .word hcomma (.part ht.2 (.nil _))
    · refine .andThen .ran fun r c₁ _ => ?_
      cases r with
      | none => exact .pure nofun
      | some _ => exact .require (assignable_isVariable c₁) fun t c₂ ht => .pure ht
    · rintro rest c₂ ⟨⟨hc₂, m, hrest, rfl⟩, hall⟩
      exact .fromHere (.pure ⟨hc₂, .intro (.variables _ _ first rest
        (List.forall_mem_cons.mpr ⟨hfirst first rfl, hall⟩)) (.part hr.2 hrest) nofun⟩)

theorem assignment_finds (hc : Onward A c₀ k c) :
    Ensures A (assignment toks inner) c (Finds A c₀ k (k + 1) .statement c.pos) := by
  refine .attempt (.fromHere (.andThen (varList_finds hin hc) fun r c₁ hr => ?_))
  cases r with
  | none => exact .pure ⟨hr.1.goBack hc hr.2, rfl⟩
  | some vars =>
    refine .bind (.leadFirst assignOperators (by decide) hr.1.less (fun op m hop hc₂ => ?_)
      (.pure ⟨hr.1.goBack hc hr.2.le, rfl⟩))
    refine .require (expList_finds hin hc₂) fun exps c₃ hexps => .fromHere (.pure ⟨hexps.1, ?_⟩)
    exact .intro (.assignment _ _ vars exps op)
      (.part hr.2 (.leaf hop (.part hexps.2 (.nil _)))) nofun

theorem callStatement_finds (hc : Onward A c₀ k c) :
    Ensures A (callStatement toks inner) c (Finds A c₀ k (k + 1) .statement c.pos) := by
  refine .attempt (.fromHere (.andThen (prefixed_finds hin hc) fun r c₁ hr => ?_))
  cases r with
  | none => exact .pure ⟨hr.1.goBack hc hr.2.le, rfl⟩
  | some t =>
    rcases hr.2 with hchain | hrow
    · show Ensures A (if _ then _ else _) c₁ _
      split
      · next hcall =>
        exact .fromHere (.pure ⟨hr.1, .intro (.call _ _ hcall) (.part hchain (.nil _)) nofun⟩)
      · exact .pure ⟨hr.1.goBack hc hchain.le, rfl⟩
    · -- an expression in parentheses is no call
      have hle := hrow.le Parsed.le
      have hkind := isExpression_of_row (hrow.mono Parsed.derived)
      have hnone : (t.isA .functionCall || t.isA .functionCallMethod) = false := by
        rw [isA_of_isExpression hkind rfl, isA_of_isExpression hkind rfl]
        rfl
      show Ensures A (if _ then _ else _) c₁ _
      rw [hnone]
      exact .pure ⟨hr.1.goBack hc hle, rfl⟩

theorem doStatement_finds (hc : Onward A c₀ k c) :
    Ensures A (doStatement toks inner) c (Finds A c₀ k (k + 1) .statement c.pos) := by
  refine .fromHere (.lead hc (fun _ m hdo hc₁ => ?_) (.pure (.none hc)))
  refine .require (hin.block hc₁) fun block c₂ hblock => ?_
  refine .skip hblock.2.1 fun _ m₃ hend hc₃ => .fromHere (.pure ⟨hc₃, ?_⟩)
  exact .intro (.doBlock _ _ block) (.word hdo (.part hblock.2.2 (.word hend (.nil _)))) nofun

theorem whileStatement_finds (hc : Onward A c₀ k c) :
    Ensures A (whileStatement toks inner) c (Finds A c₀ k (k + 1) .statement c.pos) := by
  refine .fromHere (.lead hc (fun _ m hwhile hc₁ => ?_) (.pure (.none hc)))
  refine .require (hin.expression hc₁) fun exp c₂ hexp => .skip hexp.1 fun _ m₃ hdo hc₃ => ?_
  refine .require (hin.block hc₃) fun block c₄ hblock => ?_
  refine .skip hblock.2.1 fun _ m₅ hend hc₅ => .fromHere (.pure ⟨hc₅, ?_⟩)
  exact .intro (.whileLoop _ _ exp block)
    (.word hwhile (.part hexp.2 (.word hdo (.part hblock.2.2 (.word hend (.nil _)))))) nofun

theorem repeatStatement_finds (hc : Onward A c₀ k c) :
    Ensures A (repeatStatement toks inner) c (Finds A c₀ k (k + 1) .statement c.pos) := by
  refine .fromHere (.lead hc (fun _ m hrepeat hc₁ => ?_) (.pure (.none hc)))
  refine .require (hin.block hc₁) fun block c₂ hblock => ?_
  refine .skip hblock.2.1 fun _ m₃ huntil hc₃ => ?_
  refine .require (hin.expression hc₃) fun exp c₄ hexp => .fromHere (.pure ⟨hexp.1, ?_⟩)
  exact .intro (.repeatLoop _ _ exp block)
    (.word hrepeat (.part hblock.2.2 (.word huntil (.part hexp.2 (.nil _))))) nofun

omit hin in
theorem Derived.start?_of_block (h : Derived toks .block t i j) : t.start? = some i := by
  cases h with
  | intro rule row =>
    cases rule
    rfl

/-- **A conditional on one line**, from behind its condition.  It ends before the limit unless the
limit has been lifted on the way, and it lifts the limit itself. -/
theorem shortIf_finds {condition : Tree} {w : Token} (hc : Onward A c₀ (k + 1) c)
    (hif : Takes toks [.exact (Token.keyword "if")] start w m)
    (hcondition : Parsed A .expression condition (m + 1) c.pos) (hcloses : closesBefore toks c.pos = true)
    (hlifts : ∀ l, c₀.limit = some l → ∃ q, c₀.pos ≤ q ∧ q < l ∧ A.lifts q l)
    (hvalue : ∀ e, condition.field .value = .error e → A.fails e) :
    Ensures A (shortIf toks inner start condition c.pos) c (Finds A c₀ k (k + 1) .statement start) := by
  have hline : Onward A ⟨c.pos, some (lineStop toks c.pos)⟩ (k + 1) ⟨c.pos, some (lineStop toks c.pos)⟩ := by
    refine .refl (sound_lineStop toks c.pos) (fun l hl => ?_) hc.room hc.size
    rw [← Option.some.inj hl]
    exact A.sets_lineStop hcondition.le hif.hasIf hcloses
  refine .limitTo (.require (hin.block hline) fun block c₁ hblock => ?_)
  have hrest : ∀ (other : Option Tree) (c₂ : Cursor),
      Onward A ⟨c.pos, some (lineStop toks c.pos)⟩ (k + 1) c₂ → Spans toks (Parsed A)
      (other.toList.flatMap fun b => [.reserved "else", .part .block b]) c₁.pos c₂.pos →
      Ensures A (closedLine start condition block other) c₂ (Finds A c₀ k (k + 1) .statement start) := by
    intro other c₂ hc₂ hother
    refine .limitTo (.lift (fun bare hbare => .fromHere (.pure ⟨?_, ?_⟩)) hvalue)
    · exact ⟨hc.start, hc.set, Nat.le_trans hc.le hc₂.le, hc₂.room, hc₂.size, .inr ⟨rfl, hlifts⟩⟩
    · refine .intro (.shortIf _ _ hbare block other (hcondition.derived.isNode_of_closes hbare hcloses))
        (.word hif (.part hcondition (.part hblock.2.2 hother))) fun _ => ⟨c.pos, c₂.pos, ?_, ?_⟩
      · simp only [Tree.shortSpan?, Grammar.branch, hblock.2.2.derived.start?_of_block, Option.map_some]
      · intro halone
        obtain ⟨hkept, hle⟩ | ⟨-, hopens⟩ := hc₂.limit
        · intro n t hbn hnj
          exact onOneLine_lineEnd toks _ _ n t hbn (Nat.lt_of_lt_of_le hnj (hle _ hkept))
        · obtain ⟨q, hq, hlt, hopen⟩ := hopens _ rfl
          exact absurd hopen (halone q hq hlt)
  refine .take hblock.2.1 (fun _ n helse hc₂ => ?_)
    (.bind (.pure (hrest none c₁ hblock.2.1 (.nil _))))
  refine .andThen (hin.block hc₂) fun r c₃ hr => ?_
  cases r with
  | none => exact absurd rfl hr.1
  | some b => exact hrest (some b) c₃ hr.2.1 (.word helse (.part hr.2.2 (.nil _)))

theorem furtherBranch_finds (hc : Onward A c₀ k c) :
    Ensures A (furtherBranch toks inner) c (Round A c₀ k (fun t => [.part .branch t]) Eq c.pos) := by
  refine .lead hc (fun _ m helseif hc₁ => ?_) (.pure ⟨hc, rfl⟩)
  refine .andThen (hin.expression hc₁) fun condition c₂ hcondition => ?_
  refine .skip hcondition.1 fun _ m₃ hthen hc₃ => ?_
  refine .require (hin.block hc₃) fun block c₄ hblock => .pure ⟨hblock.2.1, ?_⟩
  refine .part (.intro (.branch _ _ _ block) ?_ nofun) (.nil _)
  exact .word helseif (.part hcondition.perhaps (.word hthen (.part hblock.2.2 (.nil _))))

theorem afterThen_finds {n : Nat} (hc : Onward A c₀ (k + 1) c)
    (hcondition : Spans toks (Parsed A) [.reserved "if", .part .perhaps (.ofOption condition)] start m)
    (hthen : Takes toks thenOrDo m u n) (hpos : c.pos = n + 1) :
    Ensures A (afterThen toks inner start condition) c (Finds A c₀ k (k + 1) .statement start) := by
  refine .require (hin.block hc) fun block c₁ hblock => ?_
  refine .andThen (.repeated _ (fun hj hc => furtherBranch_finds (hin.later (Nat.le_succ_of_le hj)) hc)
    hblock.2.1) ?_
  rintro rest c₂ ⟨hc₂, _, hrest, rfl⟩
  -- the conditional is closed by `end`, with a last block before it or without
  have hend : ∀ (other : Option Tree) (c₃ : Cursor), Onward A c₀ (k + 1) c₃ → Spans toks (Parsed A)
      (other.toList.flatMap fun b => [.reserved "else", .part .block b]) c₂.pos c₃.pos →
      Ensures A (closedIf toks start (Grammar.branch (.ofOption condition) block :: rest ++
        other.toList.map (Grammar.branch .absent))) c₃ (Finds A c₀ k (k + 1) .statement start) := by
    intro other c₃ hc₃ hother
    refine .skip hc₃ fun _ m hend hc₄ => .fromHere (.pure ⟨hc₄, ?_⟩)
    refine .intro (.longIf _ _ _ block rest other) ?_ nofun
    have hblock' : Parsed A .block block (n + 1) c₁.pos := hpos ▸ hblock.2.2
    exact hcondition.append (.word hthen (.part hblock' (hrest.append
      (hother.append (.word hend (.nil _))))))
  refine .take hc₂ (fun _ m helse hc₃ => ?_) (.bind (.pure (hend none c₂ hc₂ (.nil _))))
  refine .require (hin.block hc₃) fun b c₄ hb => .bind (.pure ?_)
  exact hend (some b) c₄ hb.2.1 (.word helse (.part hb.2.2 (.nil _)))

theorem longIf_finds (hc : Onward A c₀ (k + 1) c)
    (hcondition : Spans toks (Parsed A) [.reserved "if", .part .perhaps (.ofOption condition)] start c.pos) :
    Ensures A (longIf toks inner start condition) c (Finds A c₀ k (k + 1) .statement start) := by
  refine .take hc (fun u n hdo hc₁ => ?_) (.skip hc fun u n hthen hc₁ => ?_)
  · exact afterThen_finds hin hc₁ hcondition (hdo.mono (by simp)) rfl
  · exact afterThen_finds hin hc₁ hcondition (hthen.mono (by simp)) rfl

omit hin in
theorem Derived.exists_value (h : Derived toks s t i j)
    (hs : s = .expression ∨ s = .term ∨ s = .dots)
    (ht : t.isA .expValue = true) : ∃ v, t.field .value = .ok v := by
  revert hs ht
  refine Derived.induct (P := fun s t _ _ => s = .expression ∨ s = .term ∨ s = .dots →
    t.isA .expValue = true → ∃ v, t.field .value = .ok v) ?_ h
  intro s t i j items rule row hs ht
  cases rule with
  | single t =>
    cases row with
    | part hpart rest => exact hpart.2 (.inr (.inl rfl)) ht
  | allArguments t =>
    cases row with
    | part hpart rest => exact hpart.2 (.inr (.inr rfl)) ht
  | constant | literal | functionValue | chainValue | bracketed | tableValue => exact ⟨_, rfl⟩
  | operation | unary | dots => cases ht
  | _ => simp at hs

omit hin in
theorem eq_missingPart_of_field {f : Field} {e : Failure} (h : t.field f = .error e) :
    e = .missingPart := by
  cases t with
  | node k fs o =>
    rw [Tree.field] at h
    split at h
    · cases h
    · cases h
      rfl
  | _ =>
    cases h
    rfl

/-- **A conditional keeps the limit, or lifts it where a conditional opens.**  It may be the one that
opens, or one inside its condition. -/
theorem ifStatement_finds (hc : Onward A c₀ k c) :
    Ensures A (ifStatement toks inner) c (Finds A c₀ k (k + 1) .statement c.pos) := by
  refine .fromHere (.lead hc (fun w m hif hc₁ => ?_) (.pure (.none hc)))
  refine .andThen ((hin.expression hc₁).and .ran) fun condition c₂ h₂ => .fromHere ?_
  obtain ⟨hcondition, hrun⟩ := h₂
  have hrow : Spans toks (Parsed A) [.reserved "if", .part .perhaps (.ofOption condition)] c.pos
      c₂.pos := .word hif (.part hcondition.perhaps (.nil _))
  have hstart : c₀.pos ≤ m := Nat.le_trans hc.le hif.blank.le
  refine .bind (.acceptFirst thenOrDo (by decide) (fun u n hthen hreach => ?_) fun hleft => ?_)
  · exact .goTo (longIf_finds hin hcondition.1 hrow)
  · have hodd := hin.watched.odd hif.hasIf hc₁ hstart hrun hleft
    cases condition with
    | none =>
      -- where the missing condition ends is asked for all the same
      exact .throw (hodd nofun)
    | some t =>
      have hderived := hcondition.2.derived
      simp only [Option.bind_some, hderived.stop?_eq rfl, Option.map_some]
      split
      · next hcloses =>
        refine shortIf_finds hin hcondition.1 hif hcondition.2 hcloses (fun l hl => ?_) fun e he => ?_
        · obtain ⟨hkept, -⟩ | ⟨-, hopens⟩ := hcondition.1.limit
          · obtain ⟨hkept₁, hle⟩ | ⟨-, hopens⟩ := hc₁.limit
            · -- the condition was read within the limit, and so were the words behind it
              have hlimit : c.limit = some l := hkept₁.trans hl
              rw [hlimit] at hrun
              have hsound : Cursor.Sound toks ⟨m + 1, some l⟩ := hlimit ▸ hc₁.sound
              refine ⟨m, hstart, hle l hlimit, hin.watched.opens hif.hasIf hsound hrun hcloses ?_⟩
              intro v n hv
              obtain ⟨l', hl', hln⟩ := hleft v n hv
              obtain rfl : l = l' := Option.some.inj ((hkept.trans hl).symm.trans hl')
              exact hln
            · exact hopens l hl
          · exact hopens l hl
        · obtain rfl := eq_missingPart_of_field he
          refine hodd ?_
          rintro u ⟨rfl⟩
          refine ⟨hcloses, Bool.eq_false_iff.mpr fun hvalue => ?_⟩
          obtain ⟨v, hv⟩ := hderived.exists_value (.inl rfl) hvalue
          cases hv.symm.trans he
      · exact .goTo (longIf_finds hin hcondition.1 hrow)

theorem afterCounter_finds {l : Option Nat}
    (hfor : Takes toks [.exact (Token.keyword "for")] c.pos u m) (counter : Option Token) {c₂ : Cursor}
    (hc₁ : Onward A c₀ (k + 1) ⟨m + 1, l⟩) (hc₂ : Onward A c₀ (k + 1) c₂) (hle : m + 1 ≤ c₂.pos)
    (hcounter : Spans toks (Parsed A) (counter.toList.map .name) (m + 1) c₂.pos) :
    Ensures A (afterCounter toks inner c.pos (m + 1) counter) c₂
      (Finds A c₀ k (k + 1) .statement c.pos) := by
  refine .take hc₂ (fun _ m₃ hequal hc₃ => ?_) (.goTo ?_)
  · refine .require (hin.expression hc₃) fun first c₄ hfirst => ?_
    refine .skip hfirst.1 fun _ m₅ hcomma hc₅ => ?_
    refine .require (hin.expression hc₅) fun last c₆ hlast => ?_
    have hbody : ∀ (step : Option Tree) (c₇ : Cursor), Onward A c₀ (k + 1) c₇ → Spans toks (Parsed A)
        (step.toList.flatMap fun t => [.sign ",", .part .expression t]) c₆.pos c₇.pos →
        Ensures A (countedBody toks inner c.pos counter first last (.ofOption step)) c₇
          (Finds A c₀ k (k + 1) .statement c.pos) := by
      intro step c₇ hc₇ hstep
      refine .skip hc₇ fun _ m₈ hdo hc₈ => .require (hin.block hc₈) fun block c₉ hblock => ?_
      refine .skip hblock.2.1 fun _ m hend hc => .fromHere (.pure ⟨hc, ?_⟩)
      refine .intro (.forStep _ _ counter first last step block) (.word hfor (hcounter.append ?_)) nofun
      exact .word hequal (.part hfirst.2 (.word hcomma (.part hlast.2 (hstep.append
        (.word hdo (.part hblock.2.2 (.word hend (.nil _))))))))
    refine .take hlast.1 (fun _ m₇ hcomma hc₇ => ?_)
      (.bind (.pure (hbody none c₆ hlast.1 (.nil _))))
    refine .require (hin.expression hc₇) fun step c₈ hstep => ?_
    exact hbody (some step) c₈ hstep.1 (.word hcomma (.part hstep.2 (.nil _)))
  · refine .require (nameList_finds (hc₂.goBack hc₁ hle).less) fun names c₃ hnames => ?_
    refine .skip hnames.1 fun _ m₄ hword hc₄ => ?_
    refine .require (expList_finds hin hc₄) fun exps c₅ hexps => ?_
    refine .skip hexps.1 fun _ m₆ hdo hc₆ => ?_
    refine .require (hin.block hc₆) fun block c₇ hblock => ?_
    refine .skip hblock.2.1 fun _ m₈ hend hc₈ => .fromHere (.pure ⟨hc₈, ?_⟩)
    exact .intro (.forIn _ _ names exps block) (.word hfor (.part hnames.2 (.word hword
      (.part hexps.2 (.word hdo (.part hblock.2.2 (.word hend (.nil _)))))))) nofun

theorem forStatement_finds (hc : Onward A c₀ k c) :
    Ensures A (forStatement toks inner) c (Finds A c₀ k (k + 1) .statement c.pos) := by
  refine .fromHere (.lead hc (fun _ m hfor hc₁ => .fromHere ?_) (.pure (.none hc)))
  refine .take hc₁ (fun t n ht hc₂ => ?_)
    (afterCounter_finds hin hfor none hc₁ hc₁ (Nat.le_refl _) (.nil _))
  exact afterCounter_finds hin hfor (some t) hc₁ hc₂ (Nat.le_succ_of_le ht.blank.le) (.leaf ht (.nil _))

theorem functionStatement_finds (hc : Onward A c₀ k c) :
    Ensures A (functionStatement toks inner) c (Finds A c₀ k (k + 1) .statement c.pos) := by
  refine .fromHere (.lead hc (fun _ m hfunction hc₁ => ?_) (.pure (.none hc)))
  refine .require (functionName_finds hc₁.less) fun path c₂ hpath => ?_
  refine .require (functionBody_finds hin hpath.1.less) fun body c₃ hbody =>
    .fromHere (.pure ⟨hbody.1, ?_⟩)
  exact .intro (.namedFunction _ _ path body)
    (.word hfunction (.part hpath.2 (.part hbody.2 (.nil _)))) nofun

theorem localStatement_finds (hc : Onward A c₀ k c) :
    Ensures A (localStatement toks inner) c (Finds A c₀ k (k + 1) .statement c.pos) := by
  refine .fromHere (.lead hc (fun _ m hlocal hc₁ => ?_) (.pure (.none hc)))
  refine .take hc₁ (fun _ m₂ hfunction hc₂ => ?_) ?_
  · refine .expect hc₂ fun t m₃ ht hc₃ => ?_
    refine .require (functionBody_finds hin hc₃.less) fun body c₄ hbody =>
      .fromHere (.pure ⟨hbody.1, ?_⟩)
    exact .intro (.localFunction _ _ t body)
      (.word hlocal (.word hfunction (.leaf ht (.part hbody.2 (.nil _))))) nofun
  · refine .require (nameList_finds hc₁.less) fun names c₂ hnames => ?_
    refine .take hnames.1 (fun _ m₃ hequal hc₃ => ?_) (.bind (.pure (.fromHere (.pure ?_))))
    · refine .require (expList_finds hin hc₃) fun exps c₄ hexps => .fromHere (.pure ⟨hexps.1, ?_⟩)
      exact .intro (.localVariables _ _ names (some exps))
        (.word hlocal (.part hnames.2 (.word hequal (.part hexps.2 (.nil _))))) nofun
    · exact ⟨hnames.1, .intro (.localVariables _ _ names none)
        (.word hlocal (.part hnames.2 (.nil _))) nofun⟩

theorem statement_finds (hc : Onward A c₀ k c) :
    Ensures A (statement toks inner) c (Finds A c₀ k (k + 1) .statement c.pos) := by
  have hall : ∀ p ∈ [assignment toks inner, callStatement toks inner, doStatement toks inner,
      whileStatement toks inner, repeatStatement toks inner, ifStatement toks inner,
      forStatement toks inner, functionStatement toks inner, localStatement toks inner,
      gotoStatement toks, labelStatement toks],
      ∀ c', Onward A c₀ k c' → c'.pos = c.pos →
        Ensures A p c' (Finds A c₀ k (k + 1) .statement c.pos) := by
    intro p hp c' hc' hpos
    rw [← hpos]
    simp only [List.mem_cons, List.not_mem_nil, or_false] at hp
    rcases hp with rfl | rfl | rfl | rfl | rfl | rfl | rfl | rfl | rfl | rfl | rfl
    · exact assignment_finds hin hc'
    · exact callStatement_finds hin hc'
    · exact doStatement_finds hin hc'
    · exact whileStatement_finds hin hc'
    · exact repeatStatement_finds hin hc'
    · exact ifStatement_finds hin hc'
    · exact forStatement_finds hin hc'
    · exact functionStatement_finds hin hc'
    · exact localStatement_finds hin hc'
    · exact gotoStatement_finds hc'
    · exact labelStatement_finds hc'
  exact .firstOf_finds hall (fun t c' hc' ht => ⟨hc', ht⟩)
    (fun c' hc' hpos => .firstOf_nil ⟨hc', hpos⟩) hc rfl

theorem lastStatement_finds (hc : Onward A c₀ k c) :
    Ensures A (lastStatement toks inner) c (Finds A c₀ k (k + 1) .lastStatement c.pos) := by
  refine .fromHere (.lead hc (fun _ m hbreak hc₁ => ?_) ?_)
  · exact .fromHere (.pure ⟨hc₁, .intro (.leave _ _) (.word hbreak (.nil _)) nofun⟩)
  refine .lead hc (fun _ m hreturn hc₁ => ?_) (.pure (.none hc))
  refine .andThen (expList_finds hin hc₁) fun exps c₂ hexps =>
    .fromHere (.pure ⟨hexps.onward (Nat.le_refl _), ?_⟩)
  exact .intro (.give _ _ exps) (.word hreturn hexps.row) nofun

theorem block_finds (hc : Onward A c₀ k c) : Ensures A (block toks inner) c fun r c' =>
    r ≠ none ∧ Finds A c₀ k k .block c.pos r c' := by
  have hround : ∀ {j c}, k ≤ j → Onward A c₀ j c →
      Ensures A (do semicolons toks; statement toks inner) c
        (Round A c₀ j (fun t => [.semicolons, .part .statement t]) (Semicolons toks) c.pos) := by
    intro j c hj hc
    refine .andThen (.semicolons hc) fun _ c₁ h₁ => ?_
    refine (statement_finds (hin.later (Nat.succ_le_succ hj)) h₁.1).mono fun r c₂ h₂ => ?_
    cases r with
    | some t => exact ⟨h₂.1, .semicolons h₁.2.1 (.part h₂.2 (.nil _))⟩
    | none =>
      have hpos : c₂.pos = c₁.pos := h₂.2
      exact ⟨h₂.1, hpos ▸ h₁.2.1⟩
  refine .fromHere (.andThen (.repeated _ hround hc) ?_)
  rintro stats c₁ ⟨hc₁, m, hstats, hfirst⟩
  refine .andThen (.semicolons hc₁) fun _ c₂ h₂ => ?_
  refine .andThen (lastStatement_finds hin h₂.1) fun last c₃ hlast => ?_
  refine .andThen (.semicolons (hlast.onward (Nat.le_succ k))) fun _ c₄ h₄ =>
    .fromHere (.pure ⟨nofun, h₄.1, ?_⟩)
  refine .intro (.block _ _ stats last) (hstats.append ?_) nofun
  have hbefore := hfirst.trans h₂.2.1
  cases last with
  | some t =>
    exact .semicolons hbefore (.part hlast.2 (.semicolons h₄.2.1 (.clear h₄.2.2 (.nil _))))
  | none =>
    have hpos : c₃.pos = c₂.pos := hlast.2
    rw [← hpos] at hbefore
    exact .semicolons (hbefore.trans h₄.2.1) (.clear h₄.2.2 (.nil _))

end Phrases

/-! ### Programs -/

/-- **The phrases of the grammar are found**, with as many tokens before them as there are levels less
than tokens. -/
theorem inner_phrase (hwatched : ∀ n, Watched A (phrase toks n)) {n : Nat}
    (hdeep : A.fails .exhausted ∨ toks.size < n + k) : Inner A k (phrase toks n) := by
  induction n generalizing k with
  | zero =>
    have hnone : ∀ {c₀ c : Cursor}, Onward A c₀ k c → A.fails .exhausted := by
      intro c₀ c hc
      -- no cursor has more tokens before it than there are
      refine hdeep.resolve_right fun hlt => ?_
      have hroom := hc.room
      have hsize := hc.size
      omega
    exact ⟨fun hc => .throw (hnone hc), fun hc => .throw (hnone hc), fun _ => .throw trivial, hwatched 0⟩
  | succ n ih =>
    have hin : Inner A (k + 1) (phrase toks n) := ih (hdeep.imp_right fun h => by omega)
    exact ⟨fun hc => block_finds hin hc, fun hc => expression_finds hin hc, expression_settles,
      hwatched (n + 1)⟩

theorem inner_free (toks : Array Token) (n k : Nat) : Inner (.free toks) k (phrase toks n) := by
  refine inner_phrase (fun n => ⟨?_, ?_⟩) (.inl trivial)
  · exact fun _ _ _ _ _ => trivial
  · exact fun _ _ _ _ _ _ => trivial

end Grammar

open Grammar in
theorem Tree.derived_of_ofTokens {toks : Array Token} {root : Tree} (h : Tree.ofTokens toks = .ok root) :
    ∃ stop, Derived toks .block root 0 stop := by
  obtain ⟨c, hrun⟩ := Tree.ofTokens_eq_ok_iff_run.mp h
  have hstart : Onward (.free toks) {} 0 {} := .unlimited (Nat.le_refl _) (Nat.zero_le _)
  exact ⟨c.pos, (((inner_free toks _ 0).block hstart).left hrun).2.2.derived⟩

end Cartridge.Lua
