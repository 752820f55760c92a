import Cartridge.Proofs.Lua.Quoted
import Cartridge.Proofs.Lua.TokenText

/-!
# Lexemes

A source text is cut into lexemes: texts, each with the token that it is read as.  Strings and
comments of long brackets and strings between quotes are lexemes too, so that cutting a text takes
no account of what is open.
-/

namespace Cartridge.Lua

open List

variable {c : UInt8} {r s signs w : Bytes} {t : Token}

def commentOpening : Bytes := Bytes.ofText "--[["

def longComment (x : Bytes) : Token :=
  { kind := .comment, data := commentOpening ++ x ++ closingBracket [] }

def longString (signs x : Bytes) : Token := { kind := .string, data := x, quote := .long signs }

def quotedString (mark : UInt8) (x : Bytes) : Token :=
  { kind := .string, data := x, quote := .short [mark] }

def framed (opening closing : Bytes) (token : Bytes → Token) (s : Bytes) : Option (Token × Nat) :=
  (Bytes.cut closing (s.drop opening.length)).map fun p =>
    (token p.1, opening.length + p.1.length + closing.length)

def lexeme? (s : Bytes) : Option (Token × Nat) :=
  if commentOpening.isPrefixOf s then framed commentOpening (closingBracket []) longComment s
  else match longBracket? s with
    | some signs => framed (openingBracket signs) (closingBracket signs) (longString signs) s
    | none =>
        match s with
        | [] => none
        | c :: s' =>
            if isQuote c then
              match scanQuoted c [] 0 s' with
              | .closed data n => some (quotedString c data, n + 1)
              | _ => none
            else
              (firstMatch standardRules s).map fun p =>
                ({ kind := p.1, data := s.take p.2 }, p.2)

/-! ### The branches -/

theorem lexeme?_of_comment (h : commentOpening <+: s) :
    lexeme? s = framed commentOpening (closingBracket []) longComment s := by
  rw [lexeme?.eq_def, if_pos (List.isPrefixOf_iff_prefix.mpr h)]

theorem not_prefix_of_longBracket? (h : longBracket? s = some signs) : ¬commentOpening <+: s := by
  intro hp
  obtain ⟨-, y, rfl⟩ := longBracket?_eq_some_iff.mp h
  rw [openingBracket, cons_append] at hp
  obtain ⟨z, hz⟩ := hp
  exact absurd (cons.inj hz).1 (by decide)

theorem lexeme?_of_bracket (h : longBracket? s = some signs) :
    lexeme? s = framed (openingBracket signs) (closingBracket signs) (longString signs) s := by
  rw [lexeme?.eq_def,
    if_neg fun hp => not_prefix_of_longBracket? h (List.isPrefixOf_iff_prefix.mp hp), h]

theorem not_isQuote_of_prefix (hc : isQuote c = true) (s : Bytes) :
    ¬commentOpening <+: c :: s ∧ longBracket? (c :: s) = none := by
  constructor
  · rintro ⟨z, hz⟩
    rw [← (cons.inj hz).1] at hc
    exact absurd hc (by decide)
  · rcases isQuote_iff.mp hc with rfl | rfl <;> rfl

theorem lexeme?_of_quote (hc : isQuote c = true) (s : Bytes) :
    lexeme? (c :: s) =
      match scanQuoted c [] 0 s with
      | .closed data n => some (quotedString c data, n + 1)
      | _ => none := by
  obtain ⟨h1, h2⟩ := not_isQuote_of_prefix hc s
  rw [lexeme?, if_neg (fun hp => h1 (List.isPrefixOf_iff_prefix.mp hp)), h2]
  simp only [hc, if_true]

theorem lexeme?_of_rules (hcomment : ¬commentOpening <+: c :: s) (hbracket : longBracket? (c :: s) = none)
    (hc : isQuote c = false) :
    lexeme? (c :: s) = (firstMatch standardRules (c :: s)).map fun p =>
      ({ kind := p.1, data := (c :: s).take p.2 }, p.2) := by
  rw [lexeme?, if_neg (fun hp => hcomment (List.isPrefixOf_iff_prefix.mp hp)), hbracket]
  simp only [hc, Bool.false_eq_true, if_false]

/-! ### Framed tokens -/

theorem framed_append_iff {opening closing : Bytes} (hne : closing ≠ []) (token : Bytes → Token)
    (hopen : opening <+: w ++ r) (t : Token) :
    framed opening closing token (w ++ r) = some (t, w.length) ↔
      ∃ x, w = opening ++ x ++ closing ∧ t = token x ∧
        Bytes.cut closing (x ++ closing) = some (x, []) := by
  obtain ⟨v, hv⟩ := hopen
  rw [framed, ← hv, drop_left, Option.map_eq_some_iff]
  constructor
  · rintro ⟨⟨x, y⟩, hcut, heq⟩
    simp only [Prod.mk.injEq] at heq
    obtain ⟨htok, hlen⟩ := heq
    have hv' := Bytes.eq_of_cut hcut
    have hw : w = opening ++ x ++ closing := by
      have happ : (opening ++ x ++ closing) ++ y = w ++ r := by rw [← hv, hv']; simp
      exact (append_inj_left happ (by simp; omega)).symm
    refine ⟨x, hw, htok.symm, ?_⟩
    rw [hv'] at hcut
    have := Bytes.cut_congr hne [] hcut
    simpa using this
  · rintro ⟨x, rfl, rfl, hcut⟩
    have hv' : v = x ++ closing ++ r := by
      have happ : opening ++ v = opening ++ (x ++ closing ++ r) := by rw [hv]; simp
      exact append_cancel_left happ
    have := Bytes.cut_congr (y := []) hne r (by simpa using hcut)
    refine ⟨(x, r), by rw [hv']; exact this, ?_⟩
    simp [Nat.add_assoc]

theorem closingBracket_ne_nil (signs : Bytes) : closingBracket signs ≠ [] := by
  simp [closingBracket]

/-! ### Where a lexeme ends -/

theorem runsInto_of_comment {k : TokenKind} (hw : w ≠ []) (h : commentOpening <+: w ++ r)
    (hshort : ¬commentOpening <+: w) (hk : firstMatch standardRules w = some (k, w.length)) :
    runsInto k w r = true := by
  obtain ⟨z, hz⟩ : w <+: commentOpening := by
    rcases prefix_or_prefix_of_prefix h (prefix_append w r) with hp | hp
    · exact absurd hp hshort
    · exact hp
  obtain ⟨y, hy⟩ := h
  rw [← hz, append_assoc] at hy
  obtain rfl := append_cancel_left hy
  have hdash : firstMatch standardRules [45] = some (.symbol, 1) := by decide
  have hdashes : firstMatch standardRules [45, 45] = some (.comment, 2) := by decide
  have hbracket : firstMatch standardRules [45, 45, 91] = some (.comment, 3) := by decide
  have hopening : commentOpening = [45, 45, 91, 91] := rfl
  rw [hopening] at hz hshort
  rcases w with - | ⟨a, - | ⟨b, - | ⟨c, - | ⟨d, w⟩⟩⟩⟩
  · exact absurd rfl hw
  · cases hz
    cases hdash.symm.trans hk
    simp [runsInto, symbolRuns]
  · cases hz
    cases hdashes.symm.trans hk
    rfl
  · cases hz
    cases hbracket.symm.trans hk
    rfl
  · simp only [cons_append, cons.injEq, append_eq_nil_iff] at hz
    obtain ⟨rfl, rfl, rfl, rfl, rfl, rfl⟩ := hz
    exact absurd (prefix_refl _) hshort

theorem eq_bracket_of_mem_symbols : ∀ u ∈ symbols, u.head? = some 91 → u = [91] := by
  decide

theorem runsInto_of_bracket {k : TokenKind} (hw : w ≠ []) (h : longBracket? (w ++ r) = some signs)
    (hk : firstMatch standardRules w = some (k, w.length)) : runsInto k w r = true := by
  obtain ⟨c, w, rfl⟩ := exists_cons_of_ne_nil hw
  have hc : c = 91 := by
    obtain ⟨-, y, hy⟩ := longBracket?_eq_some_iff.mp h
    exact (cons.inj hy).1.symm
  subst hc
  rw [firstMatch_other rfl rfl rfl (by decide), tagged_eq_some_iff, symbolMatch_eq_length_iff] at hk
  obtain ⟨rfl, hmem⟩ := hk
  cases eq_bracket_of_mem_symbols _ hmem rfl
  have hsome : longBracket? (91 :: r) = some signs := h
  simp [runsInto, symbolRuns, hsome]

def plainToken (k : TokenKind) (w : Bytes) : Token := { kind := k, data := w }

theorem lexeme?_append_rules (hcomment : ¬commentOpening <+: c :: w ++ r)
    (hbracket : longBracket? (c :: w ++ r) = none) (hc : isQuote c = false) (t : Token) :
    lexeme? (c :: w ++ r) = some (t, (c :: w).length) ↔
      firstMatch standardRules (c :: w ++ r) = some (t.kind, (c :: w).length) ∧
        t = plainToken t.kind (c :: w) := by
  have htake : (c :: w ++ r).take (c :: w).length = c :: w := take_left
  rw [cons_append] at hcomment hbracket htake ⊢
  rw [lexeme?_of_rules hcomment hbracket hc, Option.map_eq_some_iff]
  constructor
  · rintro ⟨⟨k, n⟩, hfirst, heq⟩
    simp only [Prod.mk.injEq] at heq
    obtain ⟨rfl, rfl⟩ := heq
    exact ⟨hfirst, by rw [htake]; rfl⟩
  · rintro ⟨hfirst, ht⟩
    refine ⟨_, hfirst, ?_⟩
    rw [htake, ← plainToken, ← ht]

theorem lexeme?_rules (hcomment : ¬commentOpening <+: c :: w) (hbracket : longBracket? (c :: w) = none)
    (hc : isQuote c = false) (t : Token) :
    lexeme? (c :: w) = some (t, (c :: w).length) ↔
      firstMatch standardRules (c :: w) = some (t.kind, (c :: w).length) ∧
        t = plainToken t.kind (c :: w) := by
  have h := lexeme?_append_rules (c := c) (w := w) (r := []) (by simpa using hcomment)
    (by simpa using hbracket) hc t
  simpa using h

theorem lexeme?_append_quote (hc : isQuote c = true) (w r : Bytes) (t : Token) :
    lexeme? (c :: w ++ r) = some (t, (c :: w).length) ↔
      lexeme? (c :: w) = some (t, (c :: w).length) := by
  have hdigit : Bytes.isDigit c = false := by rcases isQuote_iff.mp hc with rfl | rfl <;> rfl
  have hclosed : ∀ s n, lexeme? (c :: s) = some (t, n + 1) ↔
      ∃ data, scanQuoted c [] 0 s = .closed data n ∧ t = quotedString c data := by
    intro s n
    rw [lexeme?_of_quote hc]
    split
    · next data m hscan =>
      rw [hscan]
      constructor
      · intro h
        cases h
        exact ⟨data, rfl, rfl⟩
      · rintro ⟨d, h, rfl⟩
        cases h
        rfl
    · next hscan =>
      constructor
      · intro h
        cases h
      · rintro ⟨data, h, -⟩
        exact absurd h (hscan data n)
  rw [cons_append, length_cons, hclosed, hclosed]
  refine exists_congr fun data => and_congr_left fun _ => ?_
  constructor
  · intro h
    obtain ⟨body, rest, hs, hlen, hall⟩ := exists_of_scanQuoted_closed hdigit h
    have hw : w = body ++ [c] := by
      have happ : (body ++ [c]) ++ rest = w ++ r := by rw [hs]; simp
      exact (append_inj_left happ (by simp; omega)).symm
    have := hall []
    rwa [← hw] at this
  · intro h
    obtain ⟨body, rest, hs, hlen, hall⟩ := exists_of_scanQuoted_closed hdigit h
    have hrest : rest = [] := by
      refine eq_nil_of_length_eq_zero ?_
      have := congrArg length hs
      simp at this
      omega
    have happ : w ++ r = body ++ c :: r := by rw [hs, hrest]; simp
    rw [happ]
    exact hall r

theorem lexeme?_append_iff (hw : w ≠ []) (r : Bytes) (t : Token) :
    lexeme? (w ++ r) = some (t, w.length) ↔
      lexeme? w = some (t, w.length) ∧ runsInto t.kind w r = false := by
  obtain ⟨c, v, hcv⟩ := exists_cons_of_ne_nil hw
  by_cases hc : isQuote c = true
  · have hkind : lexeme? w = some (t, w.length) → runsInto t.kind w r = false := by
      intro h
      rw [hcv, lexeme?_of_quote hc] at h
      split at h
      · cases h; rfl
      · cases h
    subst hcv
    rw [lexeme?_append_quote hc]
    exact ⟨fun h => ⟨h, hkind h⟩, fun h => h.1⟩
  rw [Bool.not_eq_true] at hc
  by_cases hcomment : commentOpening <+: w ++ r
  · rw [lexeme?_of_comment hcomment, framed_append_iff (closingBracket_ne_nil []) _ hcomment]
    by_cases hshort : commentOpening <+: w
    · have happ : commentOpening <+: w ++ [] := by simpa using hshort
      have hruns : runsInto .comment w r = false := by
        have hp : (Bytes.ofText "--[[").isPrefixOf w = true := isPrefixOf_iff_prefix.mpr hshort
        simp [runsInto, hp]
      have hself := framed_append_iff (closingBracket_ne_nil []) longComment happ t
      rw [append_nil] at hself
      rw [lexeme?_of_comment hshort, hself]
      constructor
      · rintro ⟨x, hx, rfl, hcut⟩
        exact ⟨⟨x, hx, rfl, hcut⟩, hruns⟩
      · exact fun h => h.1
    · have hc45 : c = 45 := by
        obtain ⟨y, hy⟩ := hcomment
        rw [hcv] at hy
        exact (cons.inj hy).1.symm
      constructor
      · rintro ⟨x, hx, -, -⟩
        exact absurd ⟨x ++ closingBracket [], by rw [hx, append_assoc]⟩ hshort
      · rintro ⟨hlex, hruns⟩
        subst hcv
        have hfirst := ((lexeme?_rules hshort (by rw [hc45]; rfl) hc t).mp hlex).1
        rw [runsInto_of_comment hw hcomment hshort hfirst] at hruns
        cases hruns
  have hshort : ¬commentOpening <+: w := fun hp => hcomment (hp.trans (prefix_append w r))
  cases hbracket : longBracket? (w ++ r) with
  | some signs =>
    have hopen := (longBracket?_eq_some_iff.mp hbracket).2
    rw [lexeme?_of_bracket hbracket, framed_append_iff (closingBracket_ne_nil signs) _ hopen]
    cases hself : longBracket? w with
    | some signs' =>
      obtain ⟨hsigns', hopen'⟩ := longBracket?_eq_some_iff.mp hself
      have heq : longBracket? (w ++ r) = some signs' :=
        longBracket?_eq_some_iff.mpr ⟨hsigns', hopen'.trans (prefix_append w r)⟩
      cases hbracket.symm.trans heq
      have happ : openingBracket signs <+: w ++ [] := by simpa using hopen'
      have hframed := framed_append_iff (closingBracket_ne_nil signs) (longString signs) happ t
      rw [append_nil] at hframed
      rw [lexeme?_of_bracket hself, hframed]
      constructor
      · rintro ⟨x, hx, rfl, hcut⟩
        exact ⟨⟨x, hx, rfl, hcut⟩, rfl⟩
      · exact fun h => h.1
    | none =>
      constructor
      · rintro ⟨x, hx, -, -⟩
        have hopen' : openingBracket signs <+: w :=
          ⟨x ++ closingBracket signs, by rw [hx, append_assoc]⟩
        have hsome := longBracket?_eq_some_iff.mpr ⟨(longBracket?_eq_some_iff.mp hbracket).1, hopen'⟩
        rw [hself] at hsome
        cases hsome
      · rintro ⟨hlex, hruns⟩
        subst hcv
        have hfirst := ((lexeme?_rules hshort hself hc t).mp hlex).1
        rw [runsInto_of_bracket hw hbracket hfirst] at hruns
        cases hruns
  | none =>
    have hself : longBracket? w = none := by
      rw [← Option.not_isSome_iff_eq_none, Option.isSome_iff_exists]
      rintro ⟨signs, hsigns⟩
      obtain ⟨h1, h2⟩ := longBracket?_eq_some_iff.mp hsigns
      have := longBracket?_eq_some_iff.mpr ⟨h1, h2.trans (prefix_append w r)⟩
      rw [hbracket] at this
      cases this
    have hfirst := firstMatch_append_iff hw r t.kind hcomment hbracket
    subst hcv
    rw [lexeme?_append_rules hcomment hbracket hc, lexeme?_rules hshort hself hc, hfirst]
    constructor
    · rintro ⟨⟨h1, h2⟩, h3⟩
      exact ⟨⟨h1, h3⟩, h2⟩
    · rintro ⟨⟨h1, h3⟩, h2⟩
      exact ⟨⟨h1, h2⟩, h3⟩

/-! ### Texts that are one token -/

inductive Lexeme : Bytes → Token → Prop
  | comment {x : Bytes} (hcut : Bytes.cut (closingBracket []) (x ++ closingBracket []) = some (x, [])) :
      Lexeme (commentOpening ++ x ++ closingBracket []) (longComment x)
  | bracket {signs x : Bytes} (hsigns : ∀ c ∈ signs, c = 61)
      (hcut : Bytes.cut (closingBracket signs) (x ++ closingBracket signs) = some (x, [])) :
      Lexeme (openingBracket signs ++ x ++ closingBracket signs) (longString signs x)
  | quoted {mark : UInt8} {body data : Bytes} (hmark : isQuote mark = true)
      (hscan : scanQuoted mark [] 0 (body ++ [mark]) = .closed data (body.length + 1)) :
      Lexeme (mark :: (body ++ [mark])) (quotedString mark data)
  | plain {k : TokenKind} {w : Bytes} (hcomment : ¬commentOpening <+: w)
      (hbracket : longBracket? w = none) (hquote : startsWith isQuote w = false)
      (hfirst : firstMatch standardRules w = some (k, w.length)) : Lexeme w (plainToken k w)

theorem Lexeme.ne_nil (h : Lexeme w t) : w ≠ [] := by
  cases h with
  | comment hcut => simp [closingBracket_ne_nil]
  | bracket hsigns hcut => simp [openingBracket]
  | quoted hmark hscan => simp
  | plain hcomment hbracket hquote hfirst =>
    rintro rfl
    have := (firstMatch_bounds hfirst).1
    simp at this

theorem lexeme?_eq_length_iff : lexeme? w = some (t, w.length) ↔ Lexeme w t := by
  constructor
  · intro h
    cases w with
    | nil =>
      have hnil : lexeme? [] = none := by decide
      rw [hnil] at h
      cases h
    | cons c v =>
      by_cases hc : isQuote c = true
      · have hdigit : Bytes.isDigit c = false := by rcases isQuote_iff.mp hc with rfl | rfl <;> rfl
        rw [lexeme?_of_quote hc] at h
        split at h
        · next data n hscan =>
          cases h
          obtain ⟨body, rest, rfl, hn, hall⟩ := exists_of_scanQuoted_closed hdigit hscan
          have hrest : rest = [] := by
            refine eq_nil_of_length_eq_zero ?_
            simp only [length_append, length_cons] at hn
            omega
          subst hrest
          refine .quoted hc ?_
          rw [hall []]
          simp
        · cases h
      rw [Bool.not_eq_true] at hc
      by_cases hcomment : commentOpening <+: c :: v
      · have happ : commentOpening <+: c :: v ++ [] := by simpa using hcomment
        have hframed := framed_append_iff (closingBracket_ne_nil []) longComment happ t
        rw [append_nil, ← lexeme?_of_comment hcomment] at hframed
        obtain ⟨x, hx, rfl, hcut⟩ := hframed.mp h
        rw [hx]
        exact .comment hcut
      cases hbracket : longBracket? (c :: v) with
      | some signs =>
        obtain ⟨hsigns, hopen⟩ := longBracket?_eq_some_iff.mp hbracket
        have happ : openingBracket signs <+: c :: v ++ [] := by simpa using hopen
        have hframed := framed_append_iff (closingBracket_ne_nil signs) (longString signs) happ t
        rw [append_nil, ← lexeme?_of_bracket hbracket] at hframed
        obtain ⟨x, hx, rfl, hcut⟩ := hframed.mp h
        rw [hx]
        exact .bracket hsigns hcut
      | none =>
        obtain ⟨hfirst, ht⟩ := (lexeme?_rules hcomment hbracket hc t).mp h
        rw [ht]
        exact .plain hcomment hbracket (by simpa using hc) hfirst
  · intro h
    cases h with
    | @comment x hcut =>
      have hopen : commentOpening <+: commentOpening ++ x ++ closingBracket [] ++ [] := by simp
      have hframed := (framed_append_iff (closingBracket_ne_nil []) longComment hopen _).mpr
        ⟨x, rfl, rfl, hcut⟩
      rw [append_nil] at hframed hopen
      rw [lexeme?_of_comment hopen, hframed]
    | @bracket signs x hsigns hcut =>
      have hopen : openingBracket signs <+: openingBracket signs ++ x ++ closingBracket signs ++ [] := by
        simp
      have hframed := (framed_append_iff (closingBracket_ne_nil signs) (longString signs) hopen _).mpr
        ⟨x, rfl, rfl, hcut⟩
      rw [append_nil] at hframed hopen
      rw [lexeme?_of_bracket (longBracket?_eq_some_iff.mpr ⟨hsigns, hopen⟩), hframed]
    | quoted hmark hscan =>
      rw [lexeme?_of_quote hmark, hscan]
      simp
    | @plain k w hcomment hbracket hquote hfirst =>
      cases w with
      | nil =>
        have := (firstMatch_bounds hfirst).1
        simp at this
      | cons c v =>
        exact (lexeme?_rules hcomment hbracket (by simpa using hquote) _).mpr ⟨hfirst, rfl⟩

theorem lexeme?_append (h : Lexeme w t) (hruns : runsInto t.kind w r = false) :
    lexeme? (w ++ r) = some (t, w.length) :=
  (lexeme?_append_iff h.ne_nil r t).mpr ⟨lexeme?_eq_length_iff.mpr h, hruns⟩

def newlineToken : Token := plainToken .newline [Bytes.newline]

theorem lexeme_newline : Lexeme [Bytes.newline] newlineToken :=
  lexeme?_eq_length_iff.mp (by decide)

theorem lexeme?_bounds {n : Nat} (h : lexeme? s = some (t, n)) : 0 < n ∧ n ≤ s.length := by
  have hframed : ∀ {opening closing : Bytes} {token : Bytes → Token}, closing ≠ [] →
      opening <+: s → framed opening closing token s = some (t, n) → 0 < n ∧ n ≤ s.length := by
    intro opening closing token hne hopen hf
    obtain ⟨v, rfl⟩ := hopen
    rw [framed, drop_left, Option.map_eq_some_iff] at hf
    obtain ⟨⟨x, y⟩, hcut, heq⟩ := hf
    have hv := Bytes.eq_of_cut hcut
    have hpos := length_pos_iff.mpr hne
    cases heq
    rw [hv]
    simp only [length_append]
    omega
  cases s with
  | nil =>
    have hnil : lexeme? [] = none := by decide
    rw [hnil] at h
    cases h
  | cons c v =>
    by_cases hc : isQuote c = true
    · have hdigit : Bytes.isDigit c = false := by rcases isQuote_iff.mp hc with rfl | rfl <;> rfl
      rw [lexeme?_of_quote hc] at h
      split at h
      · next data m hscan =>
        cases h
        obtain ⟨body, rest, rfl, hm, -⟩ := exists_of_scanQuoted_closed hdigit hscan
        simp
        omega
      · cases h
    rw [Bool.not_eq_true] at hc
    by_cases hcomment : commentOpening <+: c :: v
    · rw [lexeme?_of_comment hcomment] at h
      exact hframed (closingBracket_ne_nil []) hcomment h
    cases hbracket : longBracket? (c :: v) with
    | some signs =>
      rw [lexeme?_of_bracket hbracket] at h
      exact hframed (closingBracket_ne_nil signs) (longBracket?_eq_some_iff.mp hbracket).2 h
    | none =>
      rw [lexeme?_of_rules hcomment hbracket hc, Option.map_eq_some_iff] at h
      obtain ⟨⟨k, m⟩, hfirst, heq⟩ := h
      cases heq
      exact firstMatch_bounds hfirst

/-! ### Texts with their lexemes -/

/-- The text is cut into lexemes, none of which is run into by what follows it. -/
inductive Lexed : Bytes → List (Bytes × Token) → Prop
  | nil : Lexed [] []
  | cons {w r : Bytes} {t : Token} {ls : List (Bytes × Token)} (hw : Lexeme w t)
      (hruns : runsInto t.kind w r = false) (hr : Lexed r ls) : Lexed (w ++ r) ((w, t) :: ls)

theorem Lexed.exists_lexeme {ls : List (Bytes × Token)} (h : Lexed s ls) (ht : t ∈ ls.map Prod.snd) :
    ∃ w, Lexeme w t := by
  induction h with
  | nil => cases ht
  | @cons w r u ls hw hruns hr ih =>
    rcases mem_cons.mp ht with rfl | ht
    · exact ⟨w, hw⟩
    · exact ih ht

end Cartridge.Lua
