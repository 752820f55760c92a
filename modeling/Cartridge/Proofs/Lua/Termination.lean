import Cartridge.Proofs.Lua.Reparsing

/-!
# Every phrase and every round moves on

The grammar has bounds, on the levels of phrases and on the rounds of repetitions.  They are never reached,
and this is why: what contains itself are blocks and expressions only, and each is entered behind a token
that the one around it has taken; and each round of a repetition takes a token.

That phrases are entered further on is stated by a parser that checks it.  It gives up where a block or an
expression is entered without a token taken since the phrase around it was entered.  A parser over such
inner phrases does as the one over the inner phrases themselves, or gives up; and it does not give up.
-/

namespace Cartridge.Lua

open Lua.Tree

namespace Grammar

/-! ### Parsers that give up -/

/-- The first parser does as the second one, or gives up. -/
def Follows {α : Type} (p q : Parse α) : Prop :=
  ∀ c : Cursor, p.run c = .error .exhausted ∨ p.run c = q.run c

namespace Follows

variable {α β : Type} {toks : Array Token}

theorem refl (p : Parse α) : Follows p p := fun _ => .inr rfl

theorem trans {p q r : Parse α} (h : Follows p q) (h' : Follows q r) : Follows p r := by
  intro c
  rcases h c with hp | hp
  · exact .inl hp
  · rw [hp]
    exact h' c

theorem bind {p q : Parse α} {f g : α → Parse β} (h : Follows p q) (hf : ∀ a, Follows (f a) (g a)) :
    Follows (p >>= f) (q >>= g) := by
  intro c
  rw [StateT.run_bind, StateT.run_bind]
  rcases h c with hp | hp
  · rw [hp]
    exact .inl rfl
  · rw [hp]
    cases q.run c with
    | error e => exact .inr rfl
    | ok r => exact hf r.1 r.2

theorem same {p : Parse α} {f g : α → Parse β} (hf : ∀ a, Follows (f a) (g a)) :
    Follows (p >>= f) (p >>= g) :=
  .bind (.refl p) hf

theorem fromHere {f : Nat → Parse α} {q : Parse α} (h : ∀ start, Follows (f start) q) :
    Follows (here >>= f) q :=
  fun c => h c.pos c

theorem maybe {p q : Parse (Option α)} {f g : Option α → Parse β} (h : Follows p q)
    (hsome : ∀ a, Follows (f (some a)) (g (some a))) (hnone : Follows (f none) (g none)) :
    Follows (p >>= f) (q >>= g) := by
  refine .bind h fun r => ?_
  cases r with
  | some a => exact hsome a
  | none => exact hnone

theorem option {p : Parse (Option α)} {f g : Option α → Parse β}
    (hsome : ∀ a, Follows (f (some a)) (g (some a))) (hnone : Follows (f none) (g none)) :
    Follows (p >>= f) (p >>= g) :=
  .maybe (.refl p) hsome hnone

theorem ite {b : Prop} [Decidable b] {p p' q q' : Parse α} (h : Follows p q) (h' : Follows p' q') :
    Follows (if b then p else p') (if b then q else q') := by
  split
  · exact h
  · exact h'

theorem attempt {p q : Parse (Option α)} (h : Follows p q) : Follows (attempt p) (attempt q) :=
  .same fun _ => .bind h fun _ => .refl _

theorem need {p q : Parse (Option α)} {description : String} (h : Follows p q) :
    Follows (need toks p description) (need toks q description) :=
  .bind h fun _ => .refl _

theorem firstOf_cons {p q : Parse (Option α)} {ps qs : List (Parse (Option α))} (h : Follows p q)
    (hs : Follows (firstOf ps) (firstOf qs)) : Follows (firstOf (p :: ps)) (firstOf (q :: qs)) :=
  .maybe h (fun _ => .refl _) hs

theorem repeated {p q : Parse (Option α)} (h : Follows p q) (n : Nat) : Follows (repeated p n) (repeated q n) := by
  induction n with
  | zero => exact .refl _
  | succ n ih => exact .maybe h (fun _ => .bind ih fun _ => .refl _) (.refl _)

theorem extended {p q : Tree → Parse (Option Tree)} (h : ∀ t, Follows (p t) (q t)) (n : Nat) (t : Tree) :
    Follows (extended p n t) (extended q n t) := by
  induction n generalizing t with
  | zero => exact .refl _
  | succ n ih => exact .maybe (h t) ih (.refl _)

end Follows

section Phrases

variable {toks : Array Token} {inner inner' : Phrase → Parse (Option Tree)}
  (hin : ∀ p, Follows (inner p) (inner' p))
include hin

theorem expList_follows : Follows (expList toks inner) (expList toks inner') := by
  refine .attempt (.same fun _ => .maybe (hin .expression) (fun _ => ?_) (.refl _))
  refine .bind (.repeated ?_ _) fun _ => .refl _
  exact .option (fun _ => .bind (.need (hin .expression)) fun _ => .refl _) (.refl _)

theorem tableField_follows : Follows (tableField toks inner) (tableField toks inner') := by
  refine .same fun _ => .option (fun _ => ?_) (.maybe (.attempt ?_) (fun _ => .refl _) ?_)
  · refine .bind (.need (hin .expression)) fun _ => .same fun _ => .same fun _ => ?_
    exact .bind (.need (hin .expression)) fun _ => .refl _
  · refine .option (fun _ => .option (fun _ => ?_) (.refl _)) (.refl _)
    exact .bind (.need (hin .expression)) fun _ => .refl _
  · exact .bind (hin .expression) fun _ => .refl _

theorem table_follows : Follows (table toks inner) (table toks inner') := by
  have hfield : Follows (tableField toks inner) (tableField toks inner') := tableField_follows hin
  refine .same fun _ => .option (fun _ => .bind hfield fun _ => ?_) (.refl _)
  refine .bind (.repeated ?_ _) fun _ => .refl _
  exact .option (fun _ => hfield) (.refl _)

theorem arguments_follows : Follows (arguments toks inner) (arguments toks inner') := by
  refine .same fun _ => .option (fun _ => .bind (expList_follows hin) fun _ => .refl _) ?_
  exact .bind (table_follows hin) fun _ => .refl _

theorem suffix_follows (first : Tree) : Follows (suffix toks inner first) (suffix toks inner' first) := by
  have harguments : Follows (arguments toks inner) (arguments toks inner') := arguments_follows hin
  refine .same fun _ => .option (fun _ => .bind (.need (hin .expression)) fun _ => .refl _) ?_
  refine .option (fun _ => .refl _) (.maybe harguments (fun _ => .refl _) ?_)
  exact .option (fun _ => .same fun _ => .bind (.need harguments) fun _ => .refl _) (.refl _)

theorem prefixed_follows : Follows (prefixed toks inner) (prefixed toks inner') := by
  have hsuffix : ∀ t, Follows (suffix toks inner t) (suffix toks inner' t) := suffix_follows hin
  refine .same fun _ => .option (fun _ => .same fun _ => ?_) (.option (fun _ => ?_) (.refl _))
  · exact .bind (.extended hsuffix _ _) fun _ => .refl _
  · exact .bind (hin .expression) fun _ => .same fun _ => .bind (.extended hsuffix _ _) fun _ => .refl _

theorem functionBody_follows : Follows (functionBody toks inner) (functionBody toks inner') := by
  refine .same fun start => .option (fun _ => .same fun names => ?_) (.refl _)
  have hrest : ∀ dots, Follows (afterParameters toks inner start names dots)
      (afterParameters toks inner' start names dots) :=
    fun _ => .same fun _ => .bind (.need (hin .block)) fun _ => .refl _
  cases names with
  | some _ => exact .option (fun _ => .same fun _ => .same fun _ => .same fun _ => hrest _) (hrest _)
  | none => exact .same fun _ => .option (fun _ => .same fun _ => hrest _) (hrest _)

theorem term_follows : Follows (term toks inner) (term toks inner') := by
  have hfunction : Follows (function toks inner) (function toks inner') :=
    .same fun _ => .option (fun _ => .bind (.need (functionBody_follows hin)) fun _ => .refl _) (.refl _)
  have hunary : ∀ start, Follows (unary toks inner start) (unary toks inner' start) :=
    fun _ => .option (fun _ => .bind (.need (hin .expression)) fun _ => .refl _) (.refl _)
  refine .same fun start => .firstOf_cons (.refl _) (.firstOf_cons (.refl _) (.firstOf_cons (.refl _)
    (.firstOf_cons (.refl _) (.firstOf_cons (.refl _) (.firstOf_cons (.refl _) ?_)))))
  refine .firstOf_cons (.bind hfunction fun _ => .refl _) (.firstOf_cons ?_ (.firstOf_cons ?_
    (.firstOf_cons (hunary start) (.refl _))))
  · exact .bind (prefixed_follows hin) fun _ => .refl _
  · exact .bind (table_follows hin) fun _ => .refl _

theorem expression_follows : Follows (expression toks inner) (expression toks inner') := by
  have hterm : Follows (term toks inner) (term toks inner') := term_follows hin
  refine .maybe hterm (fun first => .bind (.extended (fun t => ?_) _ _) fun _ => .refl _) (.refl _)
  exact .same fun _ => .option (fun _ => .bind (.need hterm) fun _ => .refl _) (.refl _)

theorem assignment_follows : Follows (assignment toks inner) (assignment toks inner') := by
  have hvariable : Follows (assignable toks inner) (assignable toks inner') :=
    .bind (prefixed_follows hin) fun _ => .refl _
  have hvariables : Follows (varList toks inner) (varList toks inner') := by
    refine .same fun _ => .maybe hvariable (fun _ => .bind (.repeated ?_ _) fun _ => .refl _) (.refl _)
    exact .option (fun _ => .bind (.need hvariable) fun _ => .refl _) (.refl _)
  refine .attempt (.same fun _ => .maybe hvariables (fun _ => ?_) (.refl _))
  exact .option (fun _ => .bind (.need (expList_follows hin)) fun _ => .refl _) (.refl _)

theorem longIf_follows (start : Nat) (condition : Option Tree) :
    Follows (longIf toks inner start condition) (longIf toks inner' start condition) := by
  have hrest : Follows (afterThen toks inner start condition) (afterThen toks inner' start condition) := by
    refine .bind (.need (hin .block)) fun _ => .bind (.repeated ?_ _) fun _ => ?_
    · refine .option (fun _ => .bind (hin .expression) fun _ => .same fun _ => ?_) (.refl _)
      exact .bind (.need (hin .block)) fun _ => .refl _
    · exact .option (fun _ => .bind (.need (hin .block)) fun _ => .refl _) (.refl _)
  exact .option (fun _ => hrest) (.same fun _ => hrest)

theorem ifStatement_follows : Follows (ifStatement toks inner) (ifStatement toks inner') := by
  refine .same fun start => .option (fun _ => .bind (hin .expression) fun condition => .same fun _ => ?_) (.refl _)
  refine .option (fun _ => .same fun _ => longIf_follows hin start condition) ?_
  cases condition.bind fun t => t.stop?.map fun s => (t, s) with
  | none => exact .refl _
  | some r =>
    refine .ite (.same fun _ => .bind (.need (hin .block)) fun _ => ?_)
      (.same fun _ => longIf_follows hin start condition)
    exact .option (fun _ => .bind (hin .block) fun _ => .refl _) (.refl _)

theorem forStatement_follows : Follows (forStatement toks inner) (forStatement toks inner') := by
  refine .same fun start => .option (fun _ => .same fun _ => .same fun counter => .option (fun _ => ?_) ?_) (.refl _)
  · refine .bind (.need (hin .expression)) fun first => .same fun _ => .bind (.need (hin .expression)) fun last => ?_
    have hbody : ∀ step, Follows (countedBody toks inner start counter first last step)
        (countedBody toks inner' start counter first last step) :=
      fun _ => .same fun _ => .bind (.need (hin .block)) fun _ => .refl _
    exact .option (fun _ => .bind (.need (hin .expression)) fun _ => hbody _) (hbody _)
  · refine .same fun _ => .same fun _ => .same fun _ => .bind (.need (expList_follows hin)) fun _ => .same fun _ => ?_
    exact .bind (.need (hin .block)) fun _ => .refl _

theorem localStatement_follows : Follows (localStatement toks inner) (localStatement toks inner') := by
  refine .same fun _ => .option (fun _ => .option (fun _ => .same fun _ => ?_) (.same fun _ => ?_)) (.refl _)
  · exact .bind (.need (functionBody_follows hin)) fun _ => .refl _
  · exact .option (fun _ => .bind (.need (expList_follows hin)) fun _ => .refl _) (.refl _)

theorem statement_follows : Follows (statement toks inner) (statement toks inner') := by
  refine .firstOf_cons (assignment_follows hin) (.firstOf_cons ?_ (.firstOf_cons ?_ (.firstOf_cons ?_
    (.firstOf_cons ?_ (.firstOf_cons (ifStatement_follows hin) (.firstOf_cons (forStatement_follows hin)
    (.firstOf_cons ?_ (.firstOf_cons (localStatement_follows hin) (.refl _)))))))))
  · exact .attempt (.same fun _ => .bind (prefixed_follows hin) fun _ => .refl _)
  · exact .same fun _ => .option (fun _ => .bind (.need (hin .block)) fun _ => .refl _) (.refl _)
  · refine .same fun _ => .option (fun _ => .bind (.need (hin .expression)) fun _ => .same fun _ => ?_) (.refl _)
    exact .bind (.need (hin .block)) fun _ => .refl _
  · refine .same fun _ => .option (fun _ => .bind (.need (hin .block)) fun _ => .same fun _ => ?_) (.refl _)
    exact .bind (.need (hin .expression)) fun _ => .refl _
  · refine .same fun _ => .option (fun _ => .same fun _ => ?_) (.refl _)
    exact .bind (.need (functionBody_follows hin)) fun _ => .refl _

theorem block_follows : Follows (block toks inner) (block toks inner') := by
  refine .same fun _ => .bind (.repeated (.same fun _ => statement_follows hin) _) fun _ => .same fun _ => ?_
  refine .bind (.same fun _ => .option (fun _ => .refl _) ?_) fun _ => .refl _
  exact .option (fun _ => .bind (expList_follows hin) fun _ => .refl _) (.refl _)

theorem level_follows (p : Phrase) : Follows (level toks inner p) (level toks inner' p) := by
  cases p with
  | block => exact block_follows hin
  | expression => exact expression_follows hin

end Phrases

/-! ### Phrases that are entered further on -/

/-- The inner phrases, entered only behind `start`. -/
def behind (start : Nat) (inner : Phrase → Parse (Option Tree)) (p : Phrase) : Parse (Option Tree) := do
  if (← here) ≤ start then throw .exhausted else inner p

/-- Phrases of at most so many levels, each of which is entered behind the start of the one around it. -/
def strictPhrase (toks : Array Token) : Nat → Phrase → Parse (Option Tree)
  | 0, _ => throw .exhausted
  | depth + 1, p => do
      let start ← here
      level toks (behind start (strictPhrase toks depth)) p

section Strict

variable {toks : Array Token} {inner : Phrase → Parse (Option Tree)} {c : Cursor} {k n start : Nat}

theorem run_behind (h : start < c.pos) (p : Phrase) : (behind start inner p).run c = (inner p).run c := by
  have hrun : (behind start inner p).run c =
      (if c.pos ≤ start then throw .exhausted else inner p : Parse (Option Tree)).run c := rfl
  rw [hrun, if_neg (Nat.not_le_of_lt h)]

theorem run_behind_of_le (h : c.pos ≤ start) (p : Phrase) :
    (behind start inner p).run c = .error .exhausted := by
  have hrun : (behind start inner p).run c =
      (if c.pos ≤ start then throw .exhausted else inner p : Parse (Option Tree)).run c := rfl
  rw [hrun, if_pos h]
  rfl

theorem behind_follows (start : Nat) (inner : Phrase → Parse (Option Tree)) (p : Phrase) :
    Follows (behind start inner p) (inner p) := by
  intro c
  by_cases h : c.pos ≤ start
  · exact .inl (run_behind_of_le h p)
  · exact .inr (run_behind (Nat.lt_of_not_le h) p)

theorem strictPhrase_follows (toks : Array Token) (n : Nat) (p : Phrase) :
    Follows (strictPhrase toks n p) (phrase toks n p) := by
  induction n generalizing p with
  | zero => exact .refl _
  | succ n ih =>
    rw [strictPhrase, phrase]
    exact .fromHere fun start => level_follows (fun q => (behind_follows start _ q).trans (ih q)) p

/-- All account is taken of whether a bound is reached, and none of limits. -/
def Account.bounded (toks : Array Token) : Account toks where
  fails e := e ≠ .exhausted
  sets _ _ := True
  lifts _ _ := True
  fault _ _ := Failure.noConfusion
  sets_lineStop _ _ _ := trivial

theorem watched_bounded (inner : Phrase → Parse (Option Tree)) : Watched (.bounded toks) inner :=
  ⟨fun _ _ _ _ _ => trivial, fun _ _ _ _ _ _ => Failure.noConfusion⟩

theorem Inner.behind (h : Inner (.bounded toks) k inner) (hstart : start < k) :
    Inner (.bounded toks) k (behind start inner) := by
  have hrun : ∀ {c₀ c}, Onward (.bounded toks) c₀ k c → ∀ p, (Grammar.behind start inner p).run c = (inner p).run c :=
    fun hc p => run_behind (Nat.lt_of_lt_of_le hstart hc.room) p
  refine ⟨fun hc => ?_, fun hc => ?_, fun c => ?_, watched_bounded _⟩
  · rw [Ensures, hrun hc]
    exact h.block hc
  · rw [Ensures, hrun hc]
    exact h.expression hc
  · by_cases hle : c.pos ≤ start
    · rw [Ensures, run_behind_of_le hle]
      trivial
    · rw [Ensures, run_behind (Nat.lt_of_not_le hle)]
      exact h.settles c

/-- **A phrase is found though all in it has to be entered further on.** -/
theorem inner_strict (h : toks.size < n + k) : Inner (.bounded toks) k (strictPhrase toks n) := by
  induction n generalizing k with
  | zero =>
    have hnone : ∀ {c₀ c : Cursor}, ¬Onward (.bounded toks) c₀ k c := by
      intro c₀ c hc
      have hroom := hc.room
      have hsize := hc.size
      omega
    exact ⟨fun hc => absurd hc hnone, fun hc => absurd hc hnone, fun _ => .throw trivial, watched_bounded _⟩
  | succ n ih =>
    -- the phrases inside are counted from where this one is entered
    have hin : ∀ c : Cursor, k ≤ c.pos →
        Inner (.bounded toks) (c.pos + 1) (Grammar.behind c.pos (strictPhrase toks n)) :=
      fun c hc => (ih (by omega)).behind (Nat.lt_succ_self _)
    refine ⟨fun {c₀ c} hc => .fromHere ?_, fun {c₀ c} hc => .fromHere ?_,
      fun c => .fromHere (expression_settles c), watched_bounded _⟩
    · refine (block_finds (hin c hc.room) (hc.counting (Nat.le_refl _))).mono fun r c' hr => ⟨hr.1, ?_⟩
      cases r with
      | some t => exact ⟨hr.2.1.counting (Nat.le_trans hc.room hr.2.1.room), hr.2.2⟩
      | none => exact absurd rfl hr.1
    · refine (expression_finds (hin c hc.room) (hc.counting (Nat.le_refl _))).mono fun r c' hr => ?_
      cases r with
      | some t => exact ⟨hr.1.counting (Nat.le_trans hc.room hr.1.room), hr.2⟩
      | none => exact ⟨hr.1.counting (Nat.le_trans hc.room hr.1.room), hr.2⟩

end Strict

/-! ### Rounds -/

/-- Where the parser finds something, it has taken a token. -/
def MovesOn {α : Type} (p : Parse (Option α)) : Prop :=
  ∀ c a c', p.run c = .ok (some a, c') → c.pos < c'.pos

theorem Shadows.movesOn {α : Type} {toks : Array Token} {d : Shift} {m k : Nat} {R : Option α → Option α → Prop}
    {p q : Parse (Option α)} (h : Shadows toks d m k Found R p q) : MovesOn p :=
  fun _ _ _ hrun => (h.advances hrun).2 rfl

theorem MovesOn.attempt {α : Type} {p : Parse (Option α)} (h : MovesOn p) : MovesOn (attempt p) := by
  intro c a c' hrun
  obtain ⟨start, c₁, hstart, hrest⟩ := exists_of_run_bind hrun
  cases hstart
  obtain ⟨r, c₂, hp, hrest⟩ := exists_of_run_bind hrest
  cases r with
  | some b =>
    cases hrest
    exact h _ _ _ hp
  | none => cases hrest

section Rounds

variable (toks : Array Token) (inner : Phrase → Parse (Option Tree))

def nameBehindComma : Parse (Option Token) := do
  match ← symbol toks "," with
  | none => return none
  | some _ => name toks

def nextName : Parse (Option Token) := attempt (nameBehindComma toks)

def nextAttribute : Parse (Option Token) := do
  match ← symbol toks "." with
  | none => return none
  | some _ => return some (← expect toks (.kind .name))

def nextItem (p : Parse (Option Tree)) (description : String) : Parse (Option Tree) := do
  match ← symbol toks "," with
  | none => return none
  | some _ => return some (← need toks p description)

def nextField : Parse (Option Tree) := do
  match ← firstOf [symbol toks ",", symbol toks ";"] with
  | none => return none
  | some _ => tableField toks inner

/-- The rounds of the repetitions of the grammar. -/
inductive IsRound : {α : Type} → Parse (Option α) → Prop
  | semicolon : IsRound (symbol toks ";")
  | statement : IsRound (do semicolons toks; statement toks inner)
  | branch : IsRound (furtherBranch toks inner)
  | name : IsRound (nextName toks)
  | attribute : IsRound (nextAttribute toks)
  | variable : IsRound (nextItem toks (assignable toks inner) "var in varlist")
  | expression : IsRound (nextItem toks (inner .expression) "exp after comma")
  | field : IsRound (nextField toks inner)
  | suffix (first : Tree) : IsRound (suffix toks inner first)
  | operation (first : Tree) : IsRound (operation toks inner first)

/-- **The lists of the grammar are read in these rounds.** -/
theorem repetitions_eq :
    nameList toks = (do
      let start ← here
      match ← name toks with
      | none => return none
      | some first =>
          let rest ← repeated (nextName toks) (rounds toks)
          return some (.made .nameList [.list ((first :: rest).map .token)] start (← here))) ∧
    functionName toks = (do
      let start ← here
      match ← name toks with
      | none => return none
      | some first =>
          let rest ← repeated (nextAttribute toks) (rounds toks)
          let method ← do
            match ← symbol toks ":" with
            | none => pure Tree.absent
            | some _ => pure (Tree.token (← expect toks (.kind .name)))
          return some (.made .functionName [.list ((first :: rest).map .token), method] start (← here))) ∧
    varList toks inner = (do
      let start ← here
      match ← assignable toks inner with
      | none => return none
      | some first =>
          let rest ← repeated (nextItem toks (assignable toks inner) "var in varlist") (rounds toks)
          return some (.made .varList [.list (first :: rest)] start (← here))) ∧
    expList toks inner = (attempt do
      let start ← here
      match ← inner .expression with
      | none => return none
      | some first =>
          let rest ← repeated (nextItem toks (inner .expression) "exp after comma") (rounds toks)
          return some (.made .expList [.list (first :: rest)] start (← here))) ∧
    table toks inner = (do
      let start ← here
      match ← symbol toks "\x7b" with
      | none => return none
      | some _ =>
          let first ← tableField toks inner
          let rest ← repeated (nextField toks inner) (rounds toks)
          discard (expectSymbol toks "\x7d")
          return some (.made .tableConstructor [.list (first.toList ++ rest)] start (← here))) :=
  ⟨rfl, rfl, rfl, rfl, rfl⟩

end Rounds

theorem IsRound.movesOn {α : Type} {toks : Array Token} {n : Nat} {p : Parse (Option α)}
    (h : IsRound toks (phrase toks n) p) : MovesOn p := by
  -- a parser that is shadowed, if only by itself, does not stand still
  have w : Window toks toks .still toks.size :=
    window_still (fun ht => ⟨_, ht, rfl⟩) fun hle ht =>
      absurd (Array.getElem?_eq_some_iff.mp ht).1 (Nat.not_lt_of_le hle)
  have hin := inner_free toks n
  have hinner : InnerShadows toks .still toks.size (0 + 1) (phrase toks n) (phrase toks (toks.size + 1)) :=
    phrase_shadows w n (by omega)
  cases h with
  | semicolon => exact Shadows.movesOn (k := 0) (.accept w rfl)
  | statement =>
    exact Shadows.movesOn (k := 0) (.bind (semicolons_shadows w) fun _ => statement_shadows w hin hinner)
  | branch =>
    refine Shadows.movesOn (k := 0) (q := furtherBranch toks (phrase toks (toks.size + 1)))
      (R := Option.Rel (Moved .still)) (.lead w (fun _ => ?_) (.pure .none fun h => by cases h) rfl)
    refine .bind hinner.expression fun hcondition => .skip w ?_
    exact .bind (.need hinner.block _) fun hblock =>
      .pure (.some (.branch (.ofOption hcondition) hblock)) id
  | name =>
    refine .attempt (Shadows.movesOn (k := 0) (q := nameBehindComma toks) (R := Option.Rel Token.Same)
      (.lead w (fun _ => ?_) (.pure .none fun h => by cases h) rfl))
    exact (Shadows.accept w rfl).loose
  | «attribute» =>
    refine Shadows.movesOn (k := 0) (q := nextAttribute toks) (R := Option.Rel Token.Same)
      (.lead w (fun _ => ?_) (.pure .none fun h => by cases h) rfl)
    exact .bind (.expect w) fun ht => .pure (.some ht) id
  | «variable» =>
    refine Shadows.movesOn (k := 0) (R := Option.Rel (Moved .still))
      (q := nextItem toks (assignable toks (phrase toks (toks.size + 1))) "var in varlist")
      (.lead w (fun _ => ?_) (.pure .none fun h => by cases h) rfl)
    exact .bind (.need (assignable_shadows w hin hinner).later _) fun ht => .pure (.some ht) id
  | expression =>
    refine Shadows.movesOn (k := 0) (R := Option.Rel (Moved .still))
      (q := nextItem toks (phrase toks (toks.size + 1) .expression) "exp after comma")
      (.lead w (fun _ => ?_) (.pure .none fun h => by cases h) rfl)
    exact .bind (.need hinner.expression _) fun ht => .pure (.some ht) id
  | field =>
    refine Shadows.movesOn (k := 0) (q := nextField toks (phrase toks (toks.size + 1)))
      (R := Option.Rel (Moved .still)) (.option (.firstOf_cons (.accept w rfl) (.firstOf_cons (.accept w rfl)
        .firstOf_nil)) (fun _ => ?_) (.pure .none fun h => by cases h))
    exact (tableField_shadows w hinner).loose
  | suffix first =>
    obtain ⟨_, hfirst⟩ := Matched.exists_rel (R := Moved .still) first
    exact (suffix_shadows w hin hinner hfirst).movesOn
  | operation first =>
    obtain ⟨_, hfirst⟩ := Matched.exists_rel (R := Moved .still) first
    exact (operation_shadows w hin hinner hfirst).movesOn

end Grammar

open Grammar

/-- The tree of the tokens, if every phrase in it is entered behind the start of the one around it. -/
def Tree.ofTokensStrictly (toks : Array Token) : Except Failure Tree := do
  let (t, _) ← (need toks (strictPhrase toks (toks.size + 1) .block) "input to be a program").run {}
  return t

/-- **The parser comes to an end on all tokens.**  No bound is reached; no block and no expression is entered
where one around it was, as entering it only further on makes no difference; and every round of a
repetition that finds something takes a token. -/
theorem Tree.ofTokens_terminates (toks : Array Token) :
    Tree.ofTokens toks ≠ .error .exhausted ∧ Tree.ofTokensStrictly toks = Tree.ofTokens toks ∧
      ∀ (n : Nat) (α : Type) (p : Parse (Option α)), IsRound toks (phrase toks n) p → MovesOn p := by
  have hstart : Onward (.bounded toks) {} 0 {} := .unlimited (Nat.le_refl _) (Nat.zero_le _)
  have hblock := (inner_strict (n := toks.size + 1) (k := 0) (by omega)).block hstart
  have hneed : Ensures (.bounded toks) (need toks (strictPhrase toks (toks.size + 1) .block) "input to be a program")
      {} fun _ _ => True :=
    .need hblock fun _ _ _ => trivial
  have hfollows : Follows (need toks (strictPhrase toks (toks.size + 1) .block) "input to be a program")
      (need toks (phrase toks (toks.size + 1) .block) "input to be a program") :=
    .need (strictPhrase_follows toks _ .block)
  have hsame := (hfollows {}).resolve_left fun hrun => by
    rw [Ensures, hrun] at hneed
    exact hneed rfl
  refine ⟨fun hexhausted => ?_, ?_, fun n α p h => h.movesOn⟩
  · rw [Ensures, hsame] at hneed
    rw [Tree.ofTokens] at hexhausted
    split at hneed
    · next hrun =>
      rw [hrun] at hexhausted
      cases hexhausted
    · next hrun =>
      rw [hrun] at hexhausted
      cases hexhausted
      exact hneed rfl
  · rw [Tree.ofTokensStrictly, Tree.ofTokens, hsame]

end Cartridge.Lua
