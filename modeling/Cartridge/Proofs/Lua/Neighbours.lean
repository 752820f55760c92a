import Cartridge.Proofs.Lua.NumeralEnd

/-!
# Tokens and the text behind them

The rules read a token as far as it goes.  Whether a text stands as one token in front of another
text is decided by the text itself and by whether the next one runs into it.
-/

namespace Cartridge.Lua

open Recogniser List Bytes

variable {k' : TokenKind} {o : Option Nat} {other : Recogniser} {u : Bytes}

variable {c : UInt8} {k : TokenKind} {n : Nat} {r s w : Bytes}

theorem tagged_eq_some_iff : tagged k' o = some (k, n) ↔ k' = k ∧ o = some n := by
  cases o <;> simp

theorem tagged_eq_none_iff : tagged k o = none ↔ o = none := by
  cases o <;> simp

/-! ### Symbols -/

theorem literal_eq_some_iff : literal u s = some n ↔ u <+: s ∧ u.length = n := by
  unfold literal
  split
  · next h => simp [List.isPrefixOf_iff_prefix.mp h]
  · next h =>
    have hnot : ¬u <+: s := fun hp => h (List.isPrefixOf_iff_prefix.mpr hp)
    simp [hnot]

theorem literal_eq_none_iff : literal u s = none ↔ ¬u <+: s := by
  unfold literal
  split
  · next h => simp [List.isPrefixOf_iff_prefix.mp h]
  · next h => simpa [List.isPrefixOf_iff_prefix] using h

theorem findSome?_literal {us : List Bytes} (hus : us.Pairwise fun u v => ¬u <+: v)
    (h : (us.findSome? fun u => literal u s) = some n) :
    ∃ u ∈ us, u <+: s ∧ u.length = n ∧ ∀ v ∈ us, v <+: s → v.length ≤ n := by
  induction us with
  | nil => cases h
  | cons u us ih =>
    rw [pairwise_cons] at hus
    rw [findSome?_cons] at h
    cases hu : literal u s with
    | none =>
      rw [hu] at h
      obtain ⟨x, hx, hxs, hlen, hmax⟩ := ih hus.2 h
      refine ⟨x, mem_cons_of_mem u hx, hxs, hlen, fun v hv hvs => ?_⟩
      rcases mem_cons.mp hv with rfl | hv
      · exact absurd hvs (literal_eq_none_iff.mp hu)
      · exact hmax v hv hvs
    | some m =>
      rw [hu] at h
      cases h
      obtain ⟨hus', hlen⟩ := literal_eq_some_iff.mp hu
      refine ⟨u, mem_cons_self, hus', hlen, fun v hv hvs => ?_⟩
      rcases mem_cons.mp hv with rfl | hv
      · omega
      · rcases prefix_or_prefix_of_prefix hus' hvs with hp | hp
        · exact absurd hp (hus.1 v hv)
        · have := hp.length_le
          omega

def longerSymbol (w r : Bytes) : Bool :=
  symbols.any fun u => decide (w.length < u.length) && u.isPrefixOf (w ++ r)

theorem symbolMatch_append_iff (w r : Bytes) :
    symbolMatch (w ++ r) = some w.length ↔ w ∈ symbols ∧ longerSymbol w r = false := by
  have hpair : symbols.Pairwise fun u v => ¬u <+: v := by decide
  have hlonger : longerSymbol w r = false ↔ ∀ v ∈ symbols, v <+: w ++ r → v.length ≤ w.length := by
    simp only [longerSymbol, any_eq_false, Bool.and_eq_true, decide_eq_true_eq,
      isPrefixOf_iff_prefix, not_and]
    exact ⟨fun h v hv hp => Nat.le_of_not_lt fun hlt => h v hv hlt hp,
      fun h v hv hlt hp => absurd (h v hv hp) (Nat.not_le_of_lt hlt)⟩
  rw [hlonger]
  constructor
  · intro h
    obtain ⟨u, hu, hp, hlen, hmax⟩ := findSome?_literal hpair h
    have huw : u = w := by
      have hpw : u <+: w := prefix_of_prefix_length_le hp (prefix_append w r) (by omega)
      exact hpw.eq_of_length hlen
    exact ⟨huw ▸ hu, hmax⟩
  · rintro ⟨hw, hmax⟩
    cases hmatch : symbolMatch (w ++ r) with
    | none =>
      rw [symbolMatch, findSome?_eq_none_iff] at hmatch
      exact absurd (prefix_append w r) (literal_eq_none_iff.mp (hmatch w hw))
    | some n =>
      obtain ⟨u, hu, hp, hlen, hmax'⟩ := findSome?_literal hpair hmatch
      have h1 := hmax u hu hp
      have h2 := hmax' w hw (prefix_append w r)
      rw [Option.some.injEq]
      omega

theorem longerSymbol_nil (w : Bytes) : longerSymbol w [] = false := by
  simp only [longerSymbol, any_eq_false, Bool.and_eq_true, decide_eq_true_eq,
    isPrefixOf_iff_prefix, append_nil]
  rintro u - ⟨hlen, hp⟩
  exact absurd hp.length_le (Nat.not_le_of_lt hlen)

theorem symbolMatch_eq_length_iff (w : Bytes) : symbolMatch w = some w.length ↔ w ∈ symbols := by
  have h := symbolMatch_append_iff w []
  rw [append_nil, longerSymbol_nil] at h
  simpa using h

/-! ### What runs into a token -/

/-- Whether `r` runs into a symbol: into a longer symbol, a comment, a numeral, a label or a long
bracket. -/
def symbolRuns (w r : Bytes) : Bool :=
  longerSymbol w r || (w == [45] && startsWith (· == 45) r) ||
    (w == [47] && startsWith (· == 47) r) || (w == [46] && startsWith isDigit r) ||
      (w == [58] && (label (58 :: r)).isSome) || (w == [91] && (longBracket? (91 :: r)).isSome)

def runsInto (k : TokenKind) (w r : Bytes) : Bool :=
  match k with
  | .space => startsWith isSpace r
  | .newline => w == [13] && startsWith (· == 10) r
  | .comment => !(ofText "--[[").isPrefixOf w && startsWith (· != newline) r
  | .number => numeralRuns w r
  | .keyword => startsWith isWord r
  | .name => w != [63] && startsWith isWord r
  | .symbol => symbolRuns w r
  | _ => false

/-! ### Labels and comments -/

def labelText (c : UInt8) (x : Bytes) : Bytes := 58 :: 58 :: c :: (x ++ [58, 58])

theorem label_eq_some_iff :
    label s = some n ↔
      ∃ c x, isNameStart c = true ∧ (∀ d ∈ x, isWord d = true) ∧ labelText c x <+: s ∧
        n = (labelText c x).length := by
  constructor
  · intro h
    unfold label at h
    split at h
    · next s =>
      split at h
      · next m hm =>
        split at h
        · next hcolons =>
          cases h
          cases s with
          | nil => cases hm
          | cons c s =>
            simp only [name] at hm
            split at hm
            · next hc =>
              cases hm
              obtain ⟨y, hy⟩ := isPrefixOf_iff_prefix.mp hcolons
              rw [Nat.add_comm 1, drop_succ_cons] at hy
              refine ⟨c, s.takeWhile isWord, hc, ?_, ?_, ?_⟩
              · exact all_eq_true.mp all_takeWhile
              · refine ⟨y, ?_⟩
                have hs := prefix_iff_eq_append.mp (List.takeWhile_prefix (l := s) isWord)
                rw [← Recogniser.run, ← hy] at hs
                simpa [labelText] using hs
              · simp [labelText, Recogniser.run]
                omega
            · cases hm
        · cases h
      · cases h
    · cases h
  · rintro ⟨c, x, hc, hx, ⟨y, rfl⟩, rfl⟩
    have hrun : run isWord (x ++ 58 :: 58 :: y) = x.length :=
      run_append_cons (run_eq_length_iff.mpr hx) rfl _
    simp only [labelText, cons_append, append_assoc, nil_append, label, name, hc,
      if_true, hrun]
    rw [Nat.add_comm 1, drop_succ_cons, drop_left]
    simp

theorem label_append_iff (w r : Bytes) :
    label (w ++ r) = some w.length ↔ label w = some w.length := by
  rw [label_eq_some_iff, label_eq_some_iff]
  constructor
  · rintro ⟨c, x, hc, hx, hp, hlen⟩
    exact ⟨c, x, hc, hx, prefix_of_prefix_length_le hp (prefix_append w r) (by omega), hlen⟩
  · rintro ⟨c, x, hc, hx, hp, hlen⟩
    exact ⟨c, x, hc, hx, hp.trans (prefix_append w r), hlen⟩

theorem toLineEnd_append_iff (d e : UInt8) (w r : Bytes) :
    toLineEnd [d, d] (d :: e :: (w ++ r)) = some (w.length + 2) ↔
      toLineEnd [d, d] (d :: e :: w) = some (w.length + 2) ∧
        startsWith (· != newline) r = false := by
  have h := run_append_eq_iff (p := (· != newline)) (w := w) (r := r)
  by_cases he : d = e
  · subst he
    simp only [toLineEnd, isPrefixOf_cons_cons, beq_self_eq_true, isPrefixOf_nil_left,
      Bool.and_self, if_true, length_cons, length_nil, drop_succ_cons,
      drop_zero, Option.some.injEq, Nat.zero_add, Nat.add_comm w.length]
    rw [Nat.add_left_cancel_iff, Nat.add_left_cancel_iff, h]
  · have hnone : ∀ s, toLineEnd [d, d] (d :: e :: s) = none := by
      intro s
      simp [toLineEnd, isPrefixOf_cons_cons, he]
    rw [hnone, hnone]
    simp

theorem toLineEnd_eq_none_iff (d : UInt8) (s : Bytes) :
    toLineEnd [d, d] (d :: s) = none ↔ startsWith (· == d) s = false := by
  cases s with
  | nil => simp [toLineEnd]
  | cons e s =>
    by_cases he : e = d
    · simp [toLineEnd, he]
    · simp [toLineEnd, he, Ne.symm he]

/-! ### Tokens by their first byte -/

theorem takeWhile_of_run {p : UInt8 → Bool} (h : run p (w ++ r) = w.length) : (w ++ r).takeWhile p = w := by
  have hp : (w ++ r).takeWhile p <+: w :=
    prefix_of_prefix_length_le (List.takeWhile_prefix p) (prefix_append w r)
      (Nat.le_of_eq h)
  exact hp.eq_of_length h

theorem firstMatch_append_of_word (hc : isNameStart c = true) (w r : Bytes) (k : TokenKind) :
    firstMatch standardRules (c :: w ++ r) = some (k, (c :: w).length) ↔
      firstMatch standardRules (c :: w) = some (k, (c :: w).length) ∧
        runsInto k (c :: w) r = false := by
  have hrun := run_append_eq_iff (p := isWord) (w := c :: w) (r := r)
  have hruns : ∀ k', k' = wordKind (c :: w) →
      runsInto k' (c :: w) r = startsWith isWord r := by
    rintro k' rfl
    have hquestion : (c :: w != [63]) = true := by
      rw [bne_iff_ne]
      intro heq
      cases heq
      exact absurd hc (by decide)
    unfold wordKind
    split
    · rfl
    · simp [runsInto, hquestion]
  rw [cons_append, firstMatch_word hc, firstMatch_word hc, ← cons_append]
  simp only [Option.some.injEq, Prod.mk.injEq]
  constructor
  · rintro ⟨hk, hlen⟩
    obtain ⟨hfull, hr⟩ := hrun.mp hlen
    have h1 : (c :: w ++ r).takeWhile isWord = c :: w := takeWhile_of_run hlen
    have h2 : (c :: w).takeWhile isWord = c :: w := by
      have := takeWhile_of_run (p := isWord) (w := c :: w) (r := [])
      rw [append_nil] at this
      exact this hfull
    rw [h1] at hk
    rw [h2]
    exact ⟨⟨hk, rfl⟩, by rw [hruns k hk.symm]; exact hr⟩
  · rintro ⟨⟨hk, hlen⟩, hr⟩
    have h2 : (c :: w).takeWhile isWord = c :: w := by
      have := takeWhile_of_run (p := isWord) (w := c :: w) (r := [])
      rw [append_nil] at this
      exact this hlen
    rw [h2] at hk
    rw [hruns k hk.symm] at hr
    have h1 : (c :: w ++ r).takeWhile isWord = c :: w := takeWhile_of_run (hrun.mpr ⟨hlen, hr⟩)
    rw [h1]
    exact ⟨hk, rfl⟩

theorem firstMatch_append_of_space (hc : isSpace c = true) (w r : Bytes) (k : TokenKind) :
    firstMatch standardRules (c :: w ++ r) = some (k, (c :: w).length) ↔
      firstMatch standardRules (c :: w) = some (k, (c :: w).length) ∧
        runsInto k (c :: w) r = false := by
  have hrun := run_append_eq_iff (p := isSpace) (w := c :: w) (r := r)
  simp only [Recogniser.run] at hrun
  rw [cons_append, firstMatch_space hc, firstMatch_space hc, ← cons_append]
  simp only [Option.some.injEq, Prod.mk.injEq, hrun]
  constructor
  · rintro ⟨rfl, hfull, hr⟩
    exact ⟨⟨rfl, hfull⟩, hr⟩
  · rintro ⟨⟨rfl, hfull⟩, hr⟩
    exact ⟨rfl, hfull, hr⟩

theorem firstMatch_append_of_digit (hc : isDigit c = true) (w r : Bytes) (k : TokenKind) :
    firstMatch standardRules (c :: w ++ r) = some (k, (c :: w).length) ↔
      firstMatch standardRules (c :: w) = some (k, (c :: w).length) ∧
        runsInto k (c :: w) r = false := by
  have hw : startsWith isDigit (c :: w) = true := by simpa using hc
  rw [cons_append, firstMatch_digit hc, firstMatch_digit hc, ← cons_append,
    tagged_eq_some_iff, tagged_eq_some_iff, numeral_append_iff hw]
  constructor
  · rintro ⟨rfl, hfull, hr⟩
    exact ⟨⟨rfl, hfull⟩, hr⟩
  · rintro ⟨⟨rfl, hfull⟩, hr⟩
    exact ⟨rfl, hfull, hr⟩

/-- The symbol found behind a byte that starts tokens of another kind too: `other` is what the
rules for that kind find, and `meets` whether the next text completes such a token. -/
theorem symbol_append_iff (meets : Bool)
    (hnone : c :: w ∈ symbols → (other (c :: w ++ r) = none ↔ other (c :: w) = none ∧ meets = false))
    (hruns : symbolRuns (c :: w) r = (longerSymbol (c :: w) r || meets)) :
    (other (c :: w ++ r) = none ∧ symbolMatch (c :: w ++ r) = some (c :: w).length) ↔
      (other (c :: w) = none ∧ symbolMatch (c :: w) = some (c :: w).length) ∧
        symbolRuns (c :: w) r = false := by
  rw [symbolMatch_append_iff, symbolMatch_eq_length_iff, hruns, Bool.or_eq_false_iff]
  constructor
  · rintro ⟨ho, hw, hl⟩
    obtain ⟨ho', hm⟩ := (hnone hw).mp ho
    exact ⟨⟨ho', hw⟩, hl, hm⟩
  · rintro ⟨⟨ho', hw⟩, hl, hm⟩
    exact ⟨(hnone hw).mpr ⟨ho', hm⟩, hw, hl⟩

theorem or_symbol_append_iff (hk' : k' ≠ .symbol) (hother : other (c :: w ++ r) = some (c :: w).length ↔
      other (c :: w) = some (c :: w).length ∧ runsInto k' (c :: w) r = false)
    (hsymbol : (other (c :: w ++ r) = none ∧ symbolMatch (c :: w ++ r) = some (c :: w).length) ↔
      (other (c :: w) = none ∧ symbolMatch (c :: w) = some (c :: w).length) ∧ symbolRuns (c :: w) r = false) :
    (tagged k' (other (c :: w ++ r))).or (tagged .symbol (symbolMatch (c :: w ++ r))) =
        some (k, (c :: w).length) ↔
      (tagged k' (other (c :: w))).or (tagged .symbol (symbolMatch (c :: w))) =
          some (k, (c :: w).length) ∧ runsInto k (c :: w) r = false := by
  simp only [Option.or_eq_some_iff, tagged_eq_some_iff, tagged_eq_none_iff]
  by_cases hk : k = k'
  · subst hk
    have hne : ¬(TokenKind.symbol = k) := fun h => hk' h.symm
    simp only [true_and, hne, false_and, and_false, or_false]
    exact hother
  · have hne : ¬(k' = k) := fun h => hk h.symm
    simp only [hne, false_and, false_or]
    constructor
    · rintro ⟨ho, rfl, hs⟩
      obtain ⟨⟨h1, h2⟩, h3⟩ := hsymbol.mp ⟨ho, hs⟩
      exact ⟨⟨h1, rfl, h2⟩, h3⟩
    · rintro ⟨⟨ho, rfl, hs⟩, hr⟩
      obtain ⟨h1, h2⟩ := hsymbol.mpr ⟨⟨ho, hs⟩, hr⟩
      exact ⟨h1, rfl, h2⟩

theorem pointed_eq_none_iff (t : Bytes) :
    pointed (46 :: t) = none ↔ startsWith isDigit t = false := by
  rw [pointed_eq]
  cases startsWith isDigit t <;> simp

theorem firstMatch_append_of_point (w r : Bytes) (k : TokenKind) :
    firstMatch standardRules (46 :: w ++ r) = some (k, (46 :: w).length) ↔
      firstMatch standardRules (46 :: w) = some (k, (46 :: w).length) ∧
        runsInto k (46 :: w) r = false := by
  rw [cons_append, firstMatch_point, firstMatch_point, ← cons_append]
  refine or_symbol_append_iff (by decide) ?_ (symbol_append_iff
    (([46] == 46 :: w && startsWith isDigit r)) ?_ ?_)
  · have hbase : base? (46 :: w) = none := rfl
    have hzero : (46 :: w == [48]) = false := by simp
    simp only [runsInto, numeralRuns, hbase, hzero, Bool.false_and, Bool.or_false]
    exact pointed_append_iff w r
  · intro _
    rw [cons_append, pointed_eq_none_iff, pointed_eq_none_iff]
    cases w with
    | nil => simp
    | cons e w => simp
  · cases w with
    | nil => simp [symbolRuns]
    | cons e w => simp [symbolRuns]

theorem eq_colon_of_mem_symbols : ∀ u ∈ symbols, u.head? = some 58 → u = [58] := by
  decide

theorem firstMatch_append_of_colon (w r : Bytes) (k : TokenKind) :
    firstMatch standardRules (58 :: w ++ r) = some (k, (58 :: w).length) ↔
      firstMatch standardRules (58 :: w) = some (k, (58 :: w).length) ∧
        runsInto k (58 :: w) r = false := by
  rw [cons_append, firstMatch_colon, firstMatch_colon, ← cons_append]
  refine or_symbol_append_iff (by decide) ?_ (symbol_append_iff
    ((58 :: w == [58] && (label (58 :: r)).isSome)) ?_ ?_)
  · rw [label_append_iff]
    simp [runsInto]
  · intro hw
    cases eq_colon_of_mem_symbols _ hw rfl
    have hcolon : label [58] = none := rfl
    simp [hcolon]
  · cases w with
    | nil => simp [symbolRuns]
    | cons e w => simp [symbolRuns]

theorem firstMatch_append_of_dash {d : UInt8} (hd : d = 45 ∨ d = 47) (w r : Bytes) (k : TokenKind)
    (hlong : ¬ofText "--[[" <+: d :: w ++ r) :
    firstMatch standardRules (d :: w ++ r) = some (k, (d :: w).length) ↔
      firstMatch standardRules (d :: w) = some (k, (d :: w).length) ∧
        runsInto k (d :: w) r = false := by
  have hfirst : ∀ s, firstMatch standardRules (d :: s) =
      (tagged .comment (toLineEnd [d, d] (d :: s))).or (tagged .symbol (symbolMatch (d :: s))) := by
    rcases hd with rfl | rfl
    · exact firstMatch_minus
    · exact firstMatch_slash
  rw [cons_append, hfirst, hfirst, ← cons_append]
  refine or_symbol_append_iff (by decide) ?_ (symbol_append_iff
    ((d :: w == [d] && startsWith (· == d) r)) ?_ ?_)
  · have hshort : (ofText "--[[").isPrefixOf (d :: w) = false := by
      rw [Bool.eq_false_iff]
      intro hp
      exact hlong ((List.isPrefixOf_iff_prefix.mp hp).trans (prefix_append _ _))
    simp only [runsInto, hshort, Bool.not_false, Bool.true_and]
    cases w with
    | nil =>
      have hne : ∀ s, toLineEnd [d, d] s ≠ some 1 := by
        intro s h
        unfold toLineEnd at h
        split at h
        · simp only [length_cons, length_nil, Option.some.injEq] at h
          omega
        · cases h
      simp [hne]
    | cons e w => exact toLineEnd_append_iff d e w r
  · intro _
    rw [cons_append, toLineEnd_eq_none_iff, toLineEnd_eq_none_iff]
    cases w with
    | nil => simp
    | cons e w => simp
  · cases w with
    | nil => rcases hd with rfl | rfl <;> simp [symbolRuns]
    | cons e w => simp [symbolRuns]

theorem firstMatch_append_of_return (w r : Bytes) (k : TokenKind) :
    firstMatch standardRules (13 :: w ++ r) = some (k, (13 :: w).length) ↔
      firstMatch standardRules (13 :: w) = some (k, (13 :: w).length) ∧
        runsInto k (13 :: w) r = false := by
  rw [cons_append, firstMatch_return, firstMatch_return]
  cases w with
  | nil =>
    cases r with
    | nil => cases k <;> simp [runsInto]
    | cons e r => by_cases he : e = 10 <;> cases k <;> simp [runsInto, he]
  | cons e w => by_cases he : e = 10 <;> cases k <;> simp [runsInto, he]

theorem firstMatch_append_of_other (hname : isNameStart c = false) (hdigit : isDigit c = false)
    (hspace : isSpace c = false) (hc : c ≠ 10 ∧ c ≠ 13 ∧ c ≠ 63 ∧ c ≠ 45 ∧ c ≠ 47 ∧ c ≠ 46 ∧ c ≠ 58)
    (w r : Bytes) (k : TokenKind) (hbracket : longBracket? (c :: w ++ r) = none) :
    firstMatch standardRules (c :: w ++ r) = some (k, (c :: w).length) ↔
      firstMatch standardRules (c :: w) = some (k, (c :: w).length) ∧
        runsInto k (c :: w) r = false := by
  rw [cons_append, firstMatch_other hname hdigit hspace hc,
    firstMatch_other hname hdigit hspace hc, ← cons_append, tagged_eq_some_iff,
    tagged_eq_some_iff, symbolMatch_append_iff, symbolMatch_eq_length_iff]
  have hruns : symbolRuns (c :: w) r = longerSymbol (c :: w) r := by
    have hlong : (c :: w == [91] && (longBracket? (91 :: r)).isSome) = false := by
      rw [Bool.and_eq_false_iff]
      by_cases hw : c :: w = [91]
      · rw [hw] at hbracket
        have hnone : longBracket? (91 :: r) = none := hbracket
        simp [hnone]
      · exact .inl (beq_eq_false_iff_ne.mpr hw)
    have hne : ∀ d, c ≠ d → (c :: w == [d]) = false := by
      intro d hd
      simp [hd]
    obtain ⟨-, -, -, h45, h47, h46, h58⟩ := hc
    simp only [symbolRuns, hlong, hne 45 h45, hne 47 h47, hne 46 h46, hne 58 h58, Bool.false_and,
      Bool.or_false]
  constructor
  · rintro ⟨rfl, hw, hl⟩
    exact ⟨⟨rfl, hw⟩, hruns.trans hl⟩
  · rintro ⟨⟨rfl, hw⟩, hl⟩
    exact ⟨rfl, hw, hruns.symm.trans hl⟩

/-- **A token of the rules ends where the next text does not run into it.**

The source starts no comment and no string of long brackets, which are read before the rules. -/
theorem firstMatch_append_iff (hw : w ≠ []) (r : Bytes) (k : TokenKind)
    (hlong : ¬ofText "--[[" <+: w ++ r) (hbracket : longBracket? (w ++ r) = none) :
    firstMatch standardRules (w ++ r) = some (k, w.length) ↔
      firstMatch standardRules w = some (k, w.length) ∧ runsInto k w r = false := by
  obtain ⟨c, w, rfl⟩ := exists_cons_of_ne_nil hw
  by_cases hname : isNameStart c = true
  · exact firstMatch_append_of_word hname w r k
  by_cases hdigit : isDigit c = true
  · exact firstMatch_append_of_digit hdigit w r k
  by_cases hspace : isSpace c = true
  · exact firstMatch_append_of_space hspace w r k
  by_cases h46 : c = 46
  · subst h46
    exact firstMatch_append_of_point w r k
  by_cases h58 : c = 58
  · subst h58
    exact firstMatch_append_of_colon w r k
  by_cases hdash : c = 45 ∨ c = 47
  · exact firstMatch_append_of_dash hdash w r k hlong
  by_cases h13 : c = 13
  · subst h13
    exact firstMatch_append_of_return w r k
  by_cases h10 : c = 10
  · subst h10
    rw [cons_append, firstMatch_newline, firstMatch_newline]
    cases k <;> simp [runsInto]
  by_cases h63 : c = 63
  · subst h63
    rw [cons_append, firstMatch_question, firstMatch_question]
    cases k <;> cases w <;> simp [runsInto]
  · rw [Bool.not_eq_true] at hname hdigit hspace
    exact firstMatch_append_of_other hname hdigit hspace
      ⟨h10, h13, h63, fun h => hdash (.inl h), fun h => hdash (.inr h), h46, h58⟩ w r k hbracket

end Cartridge.Lua
