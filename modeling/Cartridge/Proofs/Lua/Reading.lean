import Cartridge.Proofs.Lua.Lexeme

/-!
# Reading source in pieces

The scanner reads a text step by step, and a text given in pieces piece by piece.  Pieces that end
behind a newline cut no token but strings and comments, which the scanner keeps open; so it finds in
them what it finds in the whole text, and where it fails in them it fails in the text.
-/

namespace Cartridge.Lua

open Recogniser List Bytes

variable {c mark : UInt8} {data q signs text : Bytes} {ps : List Bytes} {r : Scanner × Option Failure}
  {start : Place}

variable {f : Frame} {n : Nat} {p s : Bytes} {pieces : List Bytes} {sc sc' sc₁ : Scanner}

/-! ### The rules and line ends -/

theorem runsInto_nil (k : TokenKind) (w : Bytes) : runsInto k w [] = false := by
  have hnumeral : numeralRuns w [] = false := by
    unfold numeralRuns
    split <;> simp [basedRuns, decimalRuns, fraction, power, openFraction, opensBase]
  have hlabel : label [58] = none := rfl
  have hbracket : longBracket? [91] = none := rfl
  cases k <;> simp [runsInto, hnumeral, symbolRuns, longerSymbol_nil, hlabel, hbracket]

theorem isBarrier_newline : isBarrier newline = true := by decide

theorem eq_nil_of_newline_mem {k : TokenKind} {x y : Bytes}
    (h : IsText k (x ++ newline :: y)) : k = .newline ∧ y = [] := by
  have hk : k = .newline := by
    refine Decidable.byContradiction fun hk => ?_
    exact newline_not_mem_of_isText h hk (by simp)
  subst hk
  refine ⟨rfl, ?_⟩
  rcases h with h | h | h
  · cases x with
    | nil => exact (cons.inj h).2
    | cons c x => simp at h
  · cases x with
    | nil => exact (cons.inj h).2
    | cons c x => simp at h
  · rcases x with - | ⟨c, - | ⟨d, x⟩⟩
    · exact absurd (cons.inj h).1 (by decide)
    · simp at h
      exact h.2.2
    · simp at h

theorem opens_nothing_of_append {p q : Bytes} (hcomment : ¬commentOpening <+: p ++ newline :: q)
    (hbracket : longBracket? (p ++ newline :: q) = none) :
    ¬commentOpening <+: p ++ [newline] ∧ longBracket? (p ++ [newline]) = none := by
  constructor
  · intro h
    exact hcomment (((prefix_barrier (by decide) _).mp h).trans (prefix_append _ _))
  · rw [← Option.not_isSome_iff_eq_none, Option.isSome_iff_exists]
    rintro ⟨signs, hsigns⟩
    obtain ⟨h1, h2⟩ := longBracket?_eq_some_iff.mp hsigns
    have := longBracket?_eq_some_iff.mpr ⟨h1, h2.trans (prefix_append _ q)⟩
    rw [append_assoc, cons_append, nil_append, hbracket] at this
    cases this

theorem firstMatch_append_newline (p q : Bytes)
    (hcomment : ¬commentOpening <+: p ++ newline :: q)
    (hbracket : longBracket? (p ++ newline :: q) = none) :
    firstMatch standardRules (p ++ newline :: q) =
      firstMatch standardRules (p ++ [newline]) := by
  obtain ⟨hcomment', hbracket'⟩ := opens_nothing_of_append hcomment hbracket
  -- what follows the line does not run into a token in it
  have hruns : ∀ {w r r' : Bytes} {k : TokenKind}, firstMatch standardRules w = some (k, w.length) →
      w ++ r = p ++ [newline] → w ++ r' = p ++ newline :: q →
        runsInto k w r = runsInto k w r' := by
    intro w r r' k hw hr hr'
    rcases append_eq_append_iff.mp hr with ⟨x, rfl, hx⟩ | ⟨x, rfl, hx⟩
    · rw [append_assoc] at hr'
      have hr'' := append_cancel_left hr'
      rw [hx, hr'', runsInto_barrier isBarrier_newline]
    · cases x with
      | nil =>
        rw [append_nil] at hr'
        rw [nil_append] at hx
        have hr'' := append_cancel_left hr'
        rw [← hx, hr'']
        exact runsInto_barrier isBarrier_newline k _ [] _ _
      | cons c x =>
        simp only [cons_append, cons.injEq] at hx
        obtain ⟨rfl, hx⟩ := hx
        obtain ⟨rfl, rfl⟩ := append_eq_nil_iff.mp hx.symm
        obtain ⟨rfl, -⟩ := eq_nil_of_newline_mem (isText_of_firstMatch hw)
        have hne : (p ++ [newline] == [13]) = false := by
          rw [beq_eq_false_iff_ne]
          intro heq
          have hmem : newline ∈ ([13] : Bytes) := by rw [← heq]; simp
          exact absurd hmem (by decide)
        simp only [runsInto, hne, Bool.false_and]
  refine Option.ext fun found => ?_
  obtain ⟨k, n⟩ := found
  constructor
  · intro h
    obtain ⟨hpos, hle⟩ := firstMatch_bounds h
    obtain ⟨w, r', hw, rfl⟩ : ∃ w r', p ++ newline :: q = w ++ r' ∧ w.length = n :=
      ⟨_, _, (take_append_drop n _).symm, by rw [length_take]; omega⟩
    rw [hw] at h hcomment hbracket
    have hwne : w ≠ [] := length_pos_iff.mp hpos
    obtain ⟨hfirst, hr'⟩ := (firstMatch_append_iff hwne r' k hcomment hbracket).mp h
    obtain ⟨r, hr⟩ : ∃ r, w ++ r = p ++ [newline] := by
      rcases append_eq_append_iff.mp hw with ⟨x, rfl, hx⟩ | ⟨x, rfl, hx⟩
      · cases x with
        | nil => exact ⟨[newline], by simp⟩
        | cons c x =>
          simp only [cons_append, cons.injEq] at hx
          obtain ⟨rfl, -⟩ := hx
          obtain ⟨-, rfl⟩ := eq_nil_of_newline_mem (isText_of_firstMatch hfirst)
          exact ⟨[], by simp⟩
      · exact ⟨x ++ [newline], by simp⟩
    rw [← hr] at hcomment' hbracket' ⊢
    exact (firstMatch_append_iff hwne r k hcomment' hbracket').mpr
      ⟨hfirst, (hruns hfirst hr hw.symm).trans hr'⟩
  · intro h
    obtain ⟨hpos, hle⟩ := firstMatch_bounds h
    obtain ⟨w, r, hw, rfl⟩ : ∃ w r, p ++ [newline] = w ++ r ∧ w.length = n :=
      ⟨_, _, (take_append_drop n _).symm, by rw [length_take]; omega⟩
    rw [hw] at h hcomment' hbracket'
    have hwne : w ≠ [] := length_pos_iff.mp hpos
    obtain ⟨hfirst, hr⟩ := (firstMatch_append_iff hwne r k hcomment' hbracket').mp h
    have hr' : w ++ (r ++ q) = p ++ newline :: q := by
      rw [← append_assoc, ← hw]
      simp
    rw [← hr'] at hcomment hbracket ⊢
    exact (firstMatch_append_iff hwne (r ++ q) k hcomment hbracket).mpr
      ⟨hfirst, (hruns hfirst hw.symm hr').symm.trans hr⟩

theorem Place.advance_append (p : Place) (s t : Bytes) :
    p.advance (s ++ t) = (p.advance s).advance t := foldl_append

namespace Scanner

/-! ### Steps -/

def closing (sc : Scanner) (t : Token) (w : Bytes) : Scanner :=
  { tokens := sc.tokens.push t, place := sc.place.advance w, mode := .code }

def holding (sc : Scanner) (m : Mode) (w : Bytes) : Scanner :=
  { sc with place := sc.place.advance w, mode := m }

def placed (t : Token) (p : Place) : Token := { t with place := some p }

section Open

variable {sc : Scanner}

theorem step_quoted (h : sc.mode = .quoted mark data start) (s : Bytes) :
    (∀ more n, scanQuoted mark [] 0 s = .closed more n → sc.step s =
        (sc.closing (placed (quotedString mark (data ++ more)) start) (s.take n), n, none)) ∧
      (∀ more n, scanQuoted mark [] 0 s = .unclosed more n → sc.step s =
        (sc.holding (.quoted mark (data ++ more) start) (s.take n), n, none)) ∧
      ∀ more, scanQuoted mark [] 0 s = .badEscape more → (sc.step s).2.2 ≠ none := by
  unfold step stepWith act
  rw [h]
  simp only
  refine ⟨fun more n hscan => ?_, fun more n hscan => ?_, fun more hscan => ?_⟩
  · rw [hscan]; rfl
  · rw [hscan]; rfl
  · rw [hscan]; simp

/-- What is open between long brackets: how it is closed, the state with the given text and the
token that the text becomes. -/
structure Frame where
  close : Bytes
  mode : Bytes → Mode
  token : Bytes → Token

def commentFrame (start : Place) : Frame where
  close := closingBracket []
  mode text := .comment text start
  token text := placed { kind := .comment, data := text ++ closingBracket [] } start

def longFrame (signs : Bytes) (start : Place) : Frame where
  close := closingBracket signs
  mode text := .long signs text start
  token text := placed (longString signs text) start

inductive Frame.Opened : Frame → Prop
  | comment (start : Place) : Opened (commentFrame start)
  | long (signs : Bytes) (start : Place) : Opened (longFrame signs start)

theorem Frame.Opened.close_ne_nil (hf : f.Opened) : f.close ≠ [] := by
  cases hf <;> exact closingBracket_ne_nil _

theorem newline_not_mem_closingBracket (hsigns : ∀ c ∈ signs, c = 61) :
    newline ∉ closingBracket signs := by
  simp only [closingBracket, mem_append, mem_cons, not_mem_nil, or_false]
  rintro ((h | h) | h)
  · exact absurd h (by decide)
  · exact absurd (hsigns _ h) (by decide)
  · exact absurd h (by decide)

theorem Frame.Opened.step (hf : f.Opened) (h : sc.mode = f.mode text) (s : Bytes) :
    (∀ more rest, cut f.close s = some (more, rest) → sc.step s =
        (sc.closing (f.token (text ++ more)) (s.take (more.length + f.close.length)),
          more.length + f.close.length, none)) ∧
      (cut f.close s = none → sc.step s = (sc.holding (f.mode (text ++ s)) s, s.length, none)) := by
  unfold Scanner.step stepWith act
  rw [h]
  cases hf with
  | comment start =>
    simp only [commentFrame]
    refine ⟨fun more rest hcut => ?_, fun hcut => ?_⟩
    · rw [hcut]; rfl
    · rw [hcut]; simp only [take_length]; rfl
  | long signs start =>
    have hlen : ∀ more : Bytes, more.length + (closingBracket signs).length =
        more.length + signs.length + 2 := by
      intro more
      simp [closingBracket]
      omega
    simp only [longFrame, hlen]
    refine ⟨fun more rest hcut => ?_, fun hcut => ?_⟩
    · rw [hcut]; rfl
    · rw [hcut]; simp only [take_length]; rfl

theorem step_code (h : sc.mode = .code) (s : Bytes) :
    sc.step s =
      if commentOpening.isPrefixOf s then
        (sc.holding (.comment commentOpening sc.place) (s.take 4), 4, none)
      else match longBracket? s with
        | some signs =>
            (sc.holding (.long signs [] sc.place) (s.take (signs.length + 2)), signs.length + 2, none)
        | none =>
            match s with
            | [] => (sc, 0, none)
            | c :: _ =>
                if isQuote c then (sc.holding (.quoted c [] sc.place) (s.take 1), 1, none)
                else match firstMatch standardRules s with
                  | some (k, n) =>
                      (sc.closing (placed (plainToken k (s.take n)) sc.place) (s.take n), n, none)
                  | none => (sc, 0, none) := by
  have hopening : ofText "--[[" = commentOpening := rfl
  unfold step stepWith act
  rw [h, hopening]
  simp only
  by_cases hcomment : commentOpening.isPrefixOf s = true
  · rw [if_pos hcomment, if_pos hcomment]
    rfl
  · rw [if_neg hcomment, if_neg hcomment]
    cases longBracket? s with
    | some signs => rfl
    | none =>
      cases s with
      | nil => rfl
      | cons c s =>
        have hquote : (c = 39 || c = 34) = isQuote c := by
          rw [Bool.eq_iff_iff, isQuote_iff]
          simp
        simp only [hquote]
        by_cases hc : isQuote c = true
        · rw [if_pos hc, if_pos hc]
          rfl
        · rw [if_neg hc, if_neg hc]
          cases firstMatch standardRules (c :: s) with
          | none => rfl
          | some p => rfl

theorem step_of_comment (hmode : sc.mode = .code) (h : commentOpening <+: s) :
    sc.step s = (sc.holding (.comment commentOpening sc.place) (s.take 4), 4, none) := by
  rw [step_code hmode, if_pos (List.isPrefixOf_iff_prefix.mpr h)]

theorem step_of_bracket (hmode : sc.mode = .code) (h : longBracket? s = some signs) :
    sc.step s =
      (sc.holding (.long signs [] sc.place) (s.take (signs.length + 2)), signs.length + 2, none) := by
  have hcomment := not_prefix_of_longBracket? h
  rw [step_code hmode, if_neg fun hp => hcomment (List.isPrefixOf_iff_prefix.mp hp), h]

theorem step_of_quote (hmode : sc.mode = .code) (hc : isQuote c = true) (s : Bytes) :
    sc.step (c :: s) = (sc.holding (.quoted c [] sc.place) [c], 1, none) := by
  obtain ⟨h1, h2⟩ := not_isQuote_of_prefix hc s
  rw [step_code hmode, if_neg fun hp => h1 (List.isPrefixOf_iff_prefix.mp hp), h2]
  simp only [hc, if_true]
  rfl

theorem step_of_rules (hmode : sc.mode = .code) (hcomment : ¬commentOpening <+: c :: s)
    (hbracket : longBracket? (c :: s) = none) (hc : isQuote c = false) :
    sc.step (c :: s) =
      match firstMatch standardRules (c :: s) with
      | some (k, n) =>
          (sc.closing (placed (plainToken k ((c :: s).take n)) sc.place) ((c :: s).take n), n, none)
      | none => (sc, 0, none) := by
  rw [step_code hmode, if_neg fun hp => hcomment (List.isPrefixOf_iff_prefix.mp hp), hbracket]
  simp only [hc, Bool.false_eq_true, if_false]

theorem step_nil (sc : Scanner) : sc.step [] = (sc, 0, none) := by
  have hframe : ∀ {f : Frame} {text : Bytes}, f.Opened → sc.mode = f.mode text →
      sc.step [] = (sc, 0, none) := by
    intro f text hf hmode
    have hcut : cut f.close [] = none := by
      rw [cut_nil, if_neg (by simpa using hf.close_ne_nil)]
    rw [(hf.step hmode []).2 hcut]
    simp [holding, Place.advance, ← hmode]
  cases hmode : sc.mode with
  | code => rw [step_code hmode]; rfl
  | quoted mark data start =>
    rw [(step_quoted hmode []).2.1 [] 0 rfl]
    simp [holding, Place.advance, ← hmode]
  | comment text start => exact hframe (.comment start) hmode
  | long signs text start => exact hframe (.long signs start) hmode

theorem length_pos_of_step (h : sc.step s = (sc₁, n, none)) (hn : n ≠ 0) : 0 < s.length := by
  refine length_pos_iff.mpr ?_
  rintro rfl
  rw [step_nil] at h
  cases h
  exact hn rfl

theorem tokens_of_act {rs : List Rule} {e : Failure} (h : sc.act rs s = (sc₁, n, some e)) :
    sc₁.tokens = sc.tokens := by
  unfold act at h
  split at h
  · -- only an escape in a string between quotes can fail
    split at h <;> cases h
    rfl
  · split at h <;> cases h
  · split at h <;> cases h
  · repeat' split at h
    all_goals cases h

theorem tokens_of_failure (h : (sc.step s).2.2 ≠ none) : (sc.step s).1.tokens = sc.tokens := by
  unfold step stepWith at h ⊢
  split
  · next hact =>
    rw [hact] at h
    exact absurd rfl h
  · next hact => exact tokens_of_act hact

end Open

/-! ### Runs -/

inductive Reads : Scanner → Bytes → Scanner → Prop
  | done (sc : Scanner) : Reads sc [] sc
  | step {sc sc₁ sc₂ : Scanner} {s : Bytes} {n : Nat} (h : sc.step s = (sc₁, n + 1, none))
      (hr : Reads sc₁ (s.drop (n + 1)) sc₂) : Reads sc s sc₂

theorem reads_nil_iff : Reads sc [] sc' ↔ sc' = sc := by
  constructor
  · intro h
    cases h with
    | done => rfl
    | step h _ => rw [step_nil] at h; cases h
  · rintro rfl
    exact .done sc'

theorem reads_iff (hs : s ≠ []) :
    Reads sc s sc' ↔
      ∃ sc₁ n, sc.step s = (sc₁, n, none) ∧ n ≠ 0 ∧ Reads sc₁ (s.drop n) sc' := by
  constructor
  · intro h
    cases h with
    | done => exact absurd rfl hs
    | @step _ sc₁ _ _ n h hr => exact ⟨sc₁, n + 1, h, by simp, hr⟩
  · rintro ⟨sc₁, n, h, hn, hr⟩
    obtain ⟨n, rfl⟩ := Nat.exists_eq_succ_of_ne_zero hn
    exact .step h hr

theorem run_eq_of_reads (h : Reads sc s sc') : ∀ fuel, s.length < fuel → run fuel sc s = (sc', [], none) := by
  induction h with
  | done sc =>
    intro fuel hfuel
    cases fuel with
    | zero => simp at hfuel
    | succ fuel => rw [run, step_nil]
  | @step sc sc₁ sc₂ s n h _ ih =>
    intro fuel hfuel
    cases fuel with
    | zero => omega
    | succ fuel =>
      have hs := length_pos_of_step h (Nat.succ_ne_zero n)
      rw [run, h]
      exact ih fuel (by rw [length_drop]; omega)

theorem reads_of_run : ∀ {fuel : Nat} {sc : Scanner} {s : Bytes},
    run fuel sc s = (sc', [], none) → Reads sc s sc' := by
  intro fuel
  induction fuel with
  | zero =>
    intro sc s h
    cases h
    exact .done sc'
  | succ fuel ih =>
    intro sc s h
    rw [run] at h
    split at h
    · cases h
    · next hstep =>
      cases h
      rw [step_nil] at hstep
      cases hstep
      exact .done sc'
    · next n hstep => exact .step hstep (ih h)

theorem chunk_eq_iff : sc.chunk s = (sc', none) ↔ Reads sc s sc' := by
  unfold chunk
  constructor
  · intro h
    split at h
    · cases h
    · next hrun => cases h; exact reads_of_run hrun
    · cases h
  · intro h
    rw [run_eq_of_reads h _ (Nat.lt_succ_self _)]

/-! ### What reading comes to -/

def outcome : Scanner × Option Failure → Except (Array Token) Scanner
  | (sc, none) => .ok sc
  | (sc, some _) => .error sc.tokens

def reading (sc : Scanner) (s : Bytes) : Except (Array Token) Scanner := outcome (sc.chunk s)

section Outcomes

variable {sc sc₁ sc₂ : Scanner} {s : Bytes}

theorem outcome_eq_ok_iff : outcome r = .ok sc ↔ r = (sc, none) := by
  obtain ⟨sc', _ | e⟩ := r <;> simp [outcome]

theorem reading_eq_ok_iff : sc.reading s = .ok sc₁ ↔ Reads sc s sc₁ := by
  rw [reading, outcome_eq_ok_iff, chunk_eq_iff]

theorem reading_nil (sc : Scanner) : sc.reading [] = .ok sc := reading_eq_ok_iff.mpr (.done sc)

theorem run_eq_run {fuel fuel' : Nat} (h : s.length < fuel) (h' : s.length < fuel') :
    run fuel sc s = run fuel' sc s := by
  induction fuel generalizing fuel' sc s with
  | zero => omega
  | succ fuel ih =>
    cases fuel' with
    | zero => omega
    | succ fuel' =>
      rw [run, run]
      split
      · rfl
      · rfl
      · next sc₁ n hstep =>
        have hs := length_pos_of_step hstep (Nat.succ_ne_zero n)
        have hlen : (s.drop (n + 1)).length < s.length := by
          rw [length_drop]
          omega
        exact ih (by omega) (by omega)

theorem chunk_of_step (h : sc.step s = (sc₁, n, none)) (hn : n ≠ 0) : sc.chunk s = sc₁.chunk (s.drop n) := by
  have hs := length_pos_of_step h hn
  obtain ⟨n, rfl⟩ := Nat.exists_eq_succ_of_ne_zero hn
  have hrun : run (s.length + 1) sc s = run ((s.drop (n + 1)).length + 1) sc₁ (s.drop (n + 1)) := by
    rw [run, h]
    exact run_eq_run (by rw [length_drop]; omega) (Nat.lt_succ_self _)
  rw [chunk, chunk, hrun]

theorem reading_of_step (h : sc.step s = (sc₁, n, none)) (hn : n ≠ 0) :
    sc.reading s = sc₁.reading (s.drop n) :=
  congrArg outcome (chunk_of_step h hn)

theorem reading_of_failure (h : (sc.step s).2.2 ≠ none) : sc.reading s = .error sc.tokens := by
  have htokens := tokens_of_failure h
  rw [reading, chunk, run]
  generalize sc.step s = r at h htokens ⊢
  obtain ⟨sc₁, n, _ | e⟩ := r
  · exact absurd rfl h
  · exact congrArg Except.error htokens

theorem reading_of_stuck (h : sc.step s = (sc₁, 0, none)) (hs : s ≠ []) :
    sc.reading s = .error sc₁.tokens := by
  obtain ⟨c, s, rfl⟩ := exists_cons_of_ne_nil hs
  rw [reading, chunk, run, h]
  rfl

theorem reading_append_of_steps {k : Nat} (hk : k ≠ 0) (h₁ : sc₁.step q = (sc₂, k, none))
    (h : sc.step (p ++ q) = (sc₂, p.length + k, none)) : sc.reading (p ++ q) = sc₁.reading q := by
  have hdrop : (p ++ q).drop (p.length + k) = q.drop k := by
    rw [drop_append, drop_eq_nil_of_le (by omega), nil_append, Nat.add_sub_cancel_left]
  rw [reading_of_step h (by omega), reading_of_step h₁ hk, hdrop]

theorem reading_of_last (h : sc.step s = (sc₁, n, none)) (hn : n ≠ 0) (hle : s.length ≤ n) :
    sc.reading s = .ok sc₁ := by
  rw [reading_of_step h hn, drop_eq_nil_of_le hle, reading_nil]

end Outcomes

/-! ### Pieces -/

inductive Sound (sc : Scanner) : Prop
  | code (hmode : sc.mode = .code)
  | quoted {mark : UInt8} {data : Bytes} {start : Place} (hmode : sc.mode = .quoted mark data start)
      (hmark : isQuote mark = true)
  | framed {f : Frame} {text : Bytes} (hmode : sc.mode = f.mode text) (hf : f.Opened)
      (hline : newline ∉ f.close)

theorem sound_step (hs : sc.Sound) (h : sc.step s = (sc', n, none)) : sc'.Sound := by
  cases hs with
  | code hmode =>
    rw [step_code hmode] at h
    split at h
    · cases h
      exact .framed (f := commentFrame sc.place) rfl (.comment _)
        (newline_not_mem_closingBracket (by simp))
    · split at h
      · next signs hbracket =>
        cases h
        exact .framed (f := longFrame signs sc.place) rfl (.long signs _)
          (newline_not_mem_closingBracket (longBracket?_eq_some_iff.mp hbracket).1)
      · split at h
        · cases h; exact .code hmode
        · split at h
          · next hc => cases h; exact .quoted rfl hc
          · split at h
            · cases h; exact .code rfl
            · cases h; exact .code hmode
  | @quoted mark data start hmode hmark =>
    obtain ⟨hclosed, hunclosed, hbad⟩ := step_quoted hmode s
    cases hscan : scanQuoted mark [] 0 s with
    | closed more m => cases (hclosed more m hscan).symm.trans h; exact .code rfl
    | unclosed more m => cases (hunclosed more m hscan).symm.trans h; exact .quoted rfl hmark
    | badEscape more => exact absurd (by rw [h]) (hbad more hscan)
  | @framed f text hmode hf hline =>
    obtain ⟨hfound, hnone⟩ := hf.step hmode s
    cases hcut : cut f.close s with
    | some p => cases (hfound p.1 p.2 hcut).symm.trans h; exact .code rfl
    | none => cases (hnone hcut).symm.trans h; exact .framed rfl hf hline

theorem step_append_code (hmode : sc.mode = .code) (p q : Bytes) :
    ∃ sc₁ n, sc.step (p ++ [newline]) = (sc₁, n, none) ∧ n ≤ p.length + 1 ∧
      sc.step (p ++ newline :: q) = (sc₁, n, none) := by
  have htake : ∀ n, n ≤ p.length + 1 →
      (p ++ newline :: q).take n = (p ++ [newline]).take n := by
    intro n hn
    have happ : p ++ newline :: q = (p ++ [newline]) ++ q := by simp
    rw [happ, take_append_of_le_length (by simpa using hn)]
  by_cases hcomment : commentOpening <+: p ++ newline :: q
  · have hcomment' : commentOpening <+: p ++ [newline] :=
      ((prefix_barrier (by decide) _).mp hcomment).trans (prefix_append _ _)
    have hle : 4 ≤ p.length + 1 := by simpa [commentOpening, ofText] using hcomment'.length_le
    refine ⟨_, _, step_of_comment hmode hcomment', hle, ?_⟩
    rw [step_of_comment hmode hcomment, htake 4 hle]
  cases hbracket : longBracket? (p ++ newline :: q) with
  | some signs =>
    obtain ⟨hsigns, hopen⟩ := longBracket?_eq_some_iff.mp hbracket
    have hopen' : openingBracket signs <+: p ++ [newline] := by
      refine ((prefix_barrier (fun hmem => ?_) _).mp hopen).trans (prefix_append _ _)
      simp only [openingBracket, mem_cons, mem_append, not_mem_nil, or_false] at hmem
      rcases hmem with h | h | h
      · exact absurd h (by decide)
      · exact absurd (hsigns _ h) (by decide)
      · exact absurd h (by decide)
    have hle : signs.length + 2 ≤ p.length + 1 := by
      simpa [openingBracket] using hopen'.length_le
    refine ⟨_, _, step_of_bracket hmode (longBracket?_eq_some_iff.mpr ⟨hsigns, hopen'⟩), hle, ?_⟩
    rw [step_of_bracket hmode hbracket, htake _ hle]
  | none =>
    have hfirst := firstMatch_append_newline p q hcomment hbracket
    obtain ⟨hcomment', hbracket'⟩ := opens_nothing_of_append hcomment hbracket
    obtain ⟨c, hc⟩ : ∃ c, ∀ q, ∃ v, p ++ newline :: q = c :: v := by
      cases p with
      | nil => exact ⟨_, fun q => ⟨q, rfl⟩⟩
      | cons c p => exact ⟨c, fun q => ⟨p ++ newline :: q, rfl⟩⟩
    obtain ⟨v, hv⟩ := hc q
    obtain ⟨v', hv'⟩ := hc []
    rw [hv, hv'] at hfirst htake
    rw [hv] at hcomment hbracket
    rw [hv'] at hcomment' hbracket'
    have hlen : (c :: v').length = p.length + 1 := by rw [← hv']; simp
    rw [hv, hv']
    by_cases hquote : isQuote c = true
    · exact ⟨_, _, step_of_quote hmode hquote v', by omega, step_of_quote hmode hquote v⟩
    · rw [Bool.not_eq_true] at hquote
      rw [step_of_rules hmode hcomment hbracket hquote,
        step_of_rules hmode hcomment' hbracket' hquote, hfirst]
      cases hmatch : firstMatch standardRules (c :: v') with
      | none => exact ⟨_, _, rfl, by omega, rfl⟩
      | some kn =>
        obtain ⟨k, n⟩ := kn
        have hle : n ≤ p.length + 1 := hlen ▸ (firstMatch_bounds hmatch).2
        exact ⟨_, _, rfl, hle, by simp only [htake n hle]⟩

theorem not_reads_of_failure (h : (sc.step s).2.2 ≠ none) (sc' : Scanner) : ¬Reads sc s sc' := by
  intro hr
  cases hr with
  | done => exact h (by rw [step_nil])
  | step hstep _ => exact h (by rw [hstep])

theorem advance_take_append (pl : Place) (p q : Bytes) (k : Nat) :
    pl.advance ((p ++ q).take (p.length + k)) = (pl.advance p).advance (q.take k) := by
  rw [← Place.advance_append]
  congr 1
  rw [take_append, take_of_length_le (by omega), Nat.add_sub_cancel_left]

/-- How a step in a line relates to a step in the source that the line starts: it is the same, both
fail, or it reads the whole line and what it leaves open goes on behind it. -/
inductive LineStep (sc : Scanner) (p q : Bytes) : Prop
  | same {sc₁ : Scanner} {n : Nat} (hline : sc.step (p ++ [newline]) = (sc₁, n, none))
      (hn : n ≤ p.length + 1) (hall : sc.step (p ++ newline :: q) = (sc₁, n, none))
  | fail (hline : (sc.step (p ++ [newline])).2.2 ≠ none)
      (hall : (sc.step (p ++ newline :: q)).2.2 ≠ none)
  | rest {sc₁ : Scanner} (hline : sc.step (p ++ [newline]) = (sc₁, p.length + 1, none))
      (hall : sc.reading (p ++ newline :: q) = sc₁.reading q)

theorem reading_line (hstep : sc.step (p ++ [newline]) = (sc₁, p.length + 1, none)) :
    sc.reading (p ++ [newline]) = .ok sc₁ :=
  reading_of_last hstep (Nat.succ_ne_zero _) (by simp)

theorem take_line (hn : n ≤ p.length + 1) :
    (p ++ newline :: q).take n = (p ++ [newline]).take n := by
  have happ : p ++ newline :: q = (p ++ [newline]) ++ q := by simp
  rw [happ, take_append_of_le_length (by simpa using hn)]

theorem lineStep_quoted (hm : sc.mode = .quoted mark data start) (hmark : isQuote mark = true) (p q : Bytes) :
    LineStep sc p q := by
  have happ : p ++ newline :: q = (p ++ [newline]) ++ q := by simp
  have hlen : (p ++ [newline]).length = p.length + 1 := by simp
  have hne : mark ≠ newline := by rcases isQuote_iff.mp hmark with rfl | rfl <;> decide
  have hdigit : isDigit mark = false := by rcases isQuote_iff.mp hmark with rfl | rfl <;> rfl
  have hscan := scanQuoted_append_newline hne q p [] 0
  obtain ⟨hclosed, hunclosed, hbad⟩ := step_quoted hm (p ++ [newline])
  obtain ⟨hclosed', hunclosed', hbad'⟩ := step_quoted hm (p ++ newline :: q)
  cases hline : scanQuoted mark [] 0 (p ++ [newline]) with
  | closed more n =>
    rw [hline] at hscan
    have hle : n ≤ p.length + 1 := by
      obtain ⟨body, rest, hb, hn, -⟩ := exists_of_scanQuoted_closed hdigit hline
      have := congrArg length hb
      simp at this
      omega
    refine .same (hclosed more n hline) hle ?_
    rw [hclosed' more n hscan, take_line hle]
  | badEscape more =>
    rw [hline] at hscan
    exact .fail (hbad more hline) (hbad' more hscan)
  | unclosed more n =>
    have hn := taken_of_unclosed hline
    rw [hlen, Nat.zero_add] at hn
    subst hn
    have hstep := hunclosed more _ hline
    rw [take_of_length_le (by simp)] at hstep
    refine .rest hstep ?_
    by_cases hq : q = []
    · subst hq
      rw [reading_line hstep, reading_nil]
    · rw [hline] at hscan
      have hafter := scanQuoted_eq_after mark q more.reverse (p.length + 1)
      rw [reverse_reverse] at hafter
      replace hscan := hscan.trans hafter
      have hm₁ : (sc.holding (.quoted mark (data ++ more) start) (p ++ [newline])).mode =
          .quoted mark (data ++ more) start := rfl
      obtain ⟨hclosed₁, hunclosed₁, hbad₁⟩ := step_quoted hm₁ q
      cases hq' : scanQuoted mark [] 0 q with
      | closed m k =>
        rw [hq'] at hscan
        have hk : k ≠ 0 := by
          obtain ⟨body, rest, -, hn, -⟩ := exists_of_scanQuoted_closed hdigit hq'
          omega
        have hstep' := hclosed' _ _ hscan
        rw [happ] at hstep' ⊢
        refine reading_append_of_steps hk (hclosed₁ m k hq') ?_
        rw [hstep', ← hlen]
        simp only [closing, holding, ← append_assoc, advance_take_append]
      | unclosed m k =>
        rw [hq'] at hscan
        have hk : k ≠ 0 := by
          have := taken_of_unclosed hq'
          have := length_pos_iff.mpr hq
          omega
        have hstep' := hunclosed' _ _ hscan
        rw [happ] at hstep' ⊢
        refine reading_append_of_steps hk (hunclosed₁ m k hq') ?_
        rw [hstep', ← hlen]
        simp only [holding, ← append_assoc, advance_take_append]
      | badEscape m =>
        rw [hq'] at hscan
        rw [reading_of_failure (hbad' _ hscan), reading_of_failure (hbad₁ m hq')]
        rfl

theorem lineStep_framed (hm : sc.mode = f.mode text) (hf : f.Opened)
    (hline : newline ∉ f.close) (p q : Bytes) : LineStep sc p q := by
  have happ : p ++ newline :: q = (p ++ [newline]) ++ q := by simp
  have hcut := cut_append_cons hf.close_ne_nil hline q p
  have hcut' := cut_append_cons hf.close_ne_nil hline [] p
  obtain ⟨hfound, hnone⟩ := hf.step hm (p ++ [newline])
  obtain ⟨hfound', hnone'⟩ := hf.step hm (p ++ newline :: q)
  cases hp : cut f.close p with
  | some xy =>
    obtain ⟨x, y⟩ := xy
    rw [hp] at hcut hcut'
    have hle : x.length + f.close.length ≤ p.length + 1 := by
      have := congrArg length (eq_of_cut hp)
      simp at this
      omega
    refine .same (hfound _ _ hcut') hle ?_
    rw [hfound' _ _ hcut, take_line hle]
  | none =>
    have hnil : cut f.close [] = none := by
      rw [cut_nil, if_neg (by simpa using hf.close_ne_nil)]
    rw [hp] at hcut hcut'
    simp only [hnil, Option.map_none] at hcut'
    have hstep := hnone hcut'
    rw [length_append, length_singleton] at hstep
    refine .rest hstep ?_
    by_cases hq : q = []
    · subst hq
      rw [reading_line hstep, reading_nil]
    · have hm₁ : (sc.holding (f.mode (text ++ (p ++ [newline]))) (p ++ [newline])).mode =
          f.mode (text ++ (p ++ [newline])) := rfl
      obtain ⟨hfound₁, hnone₁⟩ := hf.step hm₁ q
      have hlen : (p ++ [newline]).length = p.length + 1 := by simp
      cases hq' : cut f.close q with
      | some xy =>
        obtain ⟨x, y⟩ := xy
        rw [hq'] at hcut
        have hk : x.length + f.close.length ≠ 0 := by
          have := length_pos_iff.mpr hf.close_ne_nil
          omega
        have hstep' := hfound' _ _ hcut
        rw [happ] at hstep' ⊢
        refine reading_append_of_steps hk (hfound₁ x y hq') ?_
        have hsum : (p ++ newline :: x).length + f.close.length =
            (p ++ [newline]).length + (x.length + f.close.length) := by
          simp
          omega
        rw [hstep', hsum]
        simp only [closing, holding, advance_take_append]
        simp
      | none =>
        rw [hq'] at hcut
        have hk : q.length ≠ 0 := by
          have := length_pos_iff.mpr hq
          omega
        have hstep' := hnone' hcut
        rw [happ] at hstep' ⊢
        refine reading_append_of_steps hk (hnone₁ hq') ?_
        rw [hstep', length_append]
        simp only [holding, Place.advance_append, append_assoc]

theorem lineStep (hs : sc.Sound) (p q : Bytes) : LineStep sc p q := by
  cases hs with
  | code hmode =>
    obtain ⟨sc₁, n, hline, hn, hall⟩ := step_append_code hmode p q
    exact .same hline hn hall
  | quoted hmode hmark => exact lineStep_quoted hmode hmark p q
  | framed hmode hf hline => exact lineStep_framed hmode hf hline p q

/-- **Reading may stop behind a newline and go on there**, and it fails in the pieces exactly if it
fails in the whole text, after the same tokens. -/
theorem reading_append (hs : sc.Sound) (p q : Bytes) :
    sc.reading (p ++ newline :: q) =
      (sc.reading (p ++ [newline])).bind fun sc₁ => sc₁.reading q := by
  -- every step takes a byte of the line, so the induction is on what is left of it
  induction hk : p.length using Nat.strongRecOn generalizing p sc with
  | _ k ih =>
    cases lineStep hs p q with
    | fail hline hall =>
      rw [reading_of_failure hline, reading_of_failure hall]
      rfl
    | rest hline hall =>
      rw [hall, reading_line hline]
      rfl
    | @same sc₂ n hline hn hall =>
      by_cases hn0 : n = 0
      · subst hn0
        rw [reading_of_stuck hline (by simp), reading_of_stuck hall (by simp)]
        rfl
      rw [reading_of_step hline hn0, reading_of_step hall hn0]
      by_cases hle : n ≤ p.length
      · -- still in the line
        rw [drop_append_of_le_length hle, drop_append_of_le_length hle]
        exact ih (p.length - n) (by omega) (sound_step hs hline) (p.drop n) (by simp)
      · -- at its end
        have hn' : n = p.length + 1 := by omega
        have hrest : ∀ r, (p ++ newline :: r).drop n = r := by
          intro r
          rw [hn', drop_append, drop_eq_nil_of_le (by omega), Nat.add_sub_cancel_left]
          rfl
        rw [hrest q, hrest [], reading_nil]
        rfl

theorem sound_of_reads (h : Reads sc s sc') (hs : sc.Sound) : sc'.Sound := by
  induction h with
  | done => exact hs
  | step h _ ih => exact ih (sound_step hs h)

end Scanner

def LineCut (pieces : List Bytes) : Prop :=
  ∀ p ∈ pieces.dropLast, p.getLast? = some newline

theorem LineCut.cons {p : Bytes} (hp : p.getLast? = some newline) (h : LineCut ps) :
    LineCut (p :: ps) := by
  cases ps with
  | nil => intro q hq; cases hq
  | cons p' ps =>
    intro q hq
    rw [dropLast_cons_cons] at hq
    rcases mem_cons.mp hq with rfl | hq
    · exact hp
    · exact h q hq

theorem LineCut.tail (h : LineCut (p :: ps)) : LineCut ps := by
  cases ps with
  | nil => intro q hq; cases hq
  | cons p' ps =>
    intro q hq
    exact h q (by rw [dropLast_cons_cons]; exact mem_cons_of_mem p hq)

namespace Scanner

theorem outcome_chunks (hcut : LineCut pieces) (hs : sc.Sound) :
    outcome (sc.chunks pieces) = sc.reading pieces.flatten := by
  induction pieces generalizing sc with
  | nil => exact (reading_nil sc).symm
  | cons p ps ih =>
    have hchunks : outcome (sc.chunks (p :: ps)) =
        (sc.reading p).bind fun sc₁ => sc₁.reading ps.flatten := by
      rw [chunks, reading]
      split
      · next sc₁ hchunk =>
        rw [hchunk]
        exact ih hcut.tail (sound_of_reads (chunk_eq_iff.mp hchunk) hs)
      · next hchunk =>
        rw [hchunk]
        rfl
    rw [hchunks, flatten_cons]
    cases ps with
    | nil =>
      rw [flatten_nil, append_nil]
      cases sc.reading p with
      | error ts => rfl
      | ok sc₁ => exact reading_nil sc₁
    | cons p' ps =>
      have hlast := hcut p (by rw [dropLast_cons_cons]; exact mem_cons_self)
      obtain ⟨p₀, rfl⟩ := getLast?_eq_some_iff.mp hlast
      rw [append_assoc, cons_append, nil_append]
      exact (reading_append hs p₀ _).symm

theorem chunks_eq_iff (hcut : LineCut pieces) (hs : sc.Sound) :
    sc.chunks pieces = (sc', none) ↔ Reads sc pieces.flatten sc' := by
  rw [← outcome_eq_ok_iff, outcome_chunks hcut hs, reading_eq_ok_iff]

theorem outcome_feed (hcut : LineCut pieces) (hs : sc.Sound) :
    outcome (sc.feed pieces) =
      (sc.reading pieces.flatten).bind fun sc' => outcome (sc', sc'.unclosed) := by
  rw [← outcome_chunks hcut hs, feed, feedFrom]
  obtain ⟨sc', _ | e⟩ := sc.chunks pieces <;> rfl

theorem tokens_of_outcome_eq {r' : Scanner × Option Failure} (h : outcome r = outcome r') :
    (r.2 = none ↔ r'.2 = none) ∧ r.1.tokens = r'.1.tokens := by
  obtain ⟨sc, e⟩ := r
  obtain ⟨sc', e'⟩ := r'
  cases e with
  | none =>
    cases e' with
    | none => exact ⟨Iff.rfl, congrArg tokens (Except.ok.inj h)⟩
    | some e' => cases h
  | some e =>
    cases e' with
    | none => cases h
    | some e' => exact ⟨⟨nofun, nofun⟩, Except.error.inj h⟩

end Scanner

/-- **Source is read alike however it is cut behind newlines.**

Let a text be cut in two ways into pieces each of which but the last ends in a newline; it may be cut
into its lines, or not at all.  Then a fresh scanner reads both cuts without a failure or fails on both,
and it has found the same tokens at the same places. -/
theorem feed_of_flatten_eq {pieces pieces' : List Bytes} (hcut : LineCut pieces)
    (hcut' : LineCut pieces') (hsame : pieces.flatten = pieces'.flatten) :
    ((Scanner.feed {} pieces).2 = none ↔ (Scanner.feed {} pieces').2 = none) ∧
      (Scanner.feed {} pieces).1.tokens = (Scanner.feed {} pieces').1.tokens := by
  apply Scanner.tokens_of_outcome_eq
  rw [Scanner.outcome_feed hcut (.code rfl), Scanner.outcome_feed hcut' (.code rfl), hsame]

def brokenLines : List Bytes :=
  ["--[[ a\n", "]] x = 'b\\\n", "c' + [=[\n", "]]]=] y = \"\\10\n", "\\300\" z\n"].map ofText

theorem feed_of_flatten_eq_broken :
    (Scanner.feed {} brokenLines).2 = some .unfitValue ∧
      (Scanner.feed {} brokenLines).1.tokens.size = 16 ∧
      (Scanner.feed {} [brokenLines.flatten]).2 ≠ none ∧
      (Scanner.feed {} brokenLines).1.tokens = (Scanner.feed {} [brokenLines.flatten]).1.tokens := by
  have hlines : LineCut brokenLines := by unfold LineCut; decide
  have hwhole : LineCut [brokenLines.flatten] := by unfold LineCut; decide
  have hflat : brokenLines.flatten = [brokenLines.flatten].flatten := by simp
  obtain ⟨hfails, htokens⟩ := feed_of_flatten_eq hlines hwhole hflat
  have hline : (Scanner.feed {} brokenLines).2 = some .unfitValue := by decide +kernel
  refine ⟨hline, by decide +kernel, fun hnone => ?_, htokens⟩
  rw [hfails.mpr hnone] at hline
  cases hline

end Cartridge.Lua
