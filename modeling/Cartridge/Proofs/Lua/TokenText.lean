import Cartridge.Proofs.Lua.NumeralText

/-!
# The texts of tokens

What the rules find is never empty and never longer than the source, and its bytes are those of its
kind.  A line end stands in no token but the newline.
-/

namespace Cartridge.Lua

open Recogniser List Bytes

variable {digit : UInt8 → Bool} {k : TokenKind} {n : Nat} {s t w : Bytes}

/-! ### Bounds -/

theorem fraction_le (digit : UInt8 → Bool) (s : Bytes) : fraction digit s ≤ s.length := by
  cases s with
  | nil => exact Nat.le_refl 0
  | cons c s =>
    by_cases hc : c = 46
    · subst hc
      have := run_le digit s
      simp only [fraction, length_cons]
      split <;> omega
    · rw [fraction_of_ne hc]
      omega

theorem basedLength_le (digit : UInt8 → Bool) (s : Bytes) : basedLength digit s ≤ s.length := by
  have h1 := run_le digit s
  have h2 := fraction_le digit (s.drop (run digit s))
  rw [length_drop] at h2
  unfold basedLength
  omega

theorem power_le (s : Bytes) : power s ≤ s.length := by
  cases s with
  | nil => exact Nat.le_refl 0
  | cons e s =>
    by_cases he : e = 101 ∨ e = 69
    · cases hs : startsWith (· == 45) s with
      | false =>
        have := run_le isDigit s
        rw [power_plain he hs, length_cons]
        split <;> omega
      | true =>
        cases s with
        | nil => simp at hs
        | cons d s =>
          rw [startsWith_cons, beq_iff_eq] at hs
          subst hs
          have := run_le isDigit s
          rw [power_minus he, length_cons, length_cons]
          split <;> omega
    · rw [power_of_ne he]
      omega

theorem openFraction_le (s : Bytes) : openFraction s ≤ s.length := by
  cases s with
  | nil => exact Nat.le_refl 0
  | cons c s =>
    by_cases hc : c = 46
    · subst hc
      cases hs : startsWith (· == 46) s with
      | false =>
        have := run_le isDigit s
        rw [openFraction_point hs, length_cons]
        omega
      | true =>
        cases s with
        | nil => simp at hs
        | cons d s =>
          rw [startsWith_cons, beq_iff_eq] at hs
          subst hs
          rw [openFraction_points]
          omega
    · rw [openFraction_of_ne hc]
      omega

theorem tailLength_le (s : Bytes) : tailLength s ≤ s.length := by
  have h1 := openFraction_le s
  have h2 := power_le (s.drop (openFraction s))
  rw [length_drop] at h2
  unfold tailLength
  omega

theorem decimal_bounds (h : decimal s = some n) : 0 < n ∧ n ≤ s.length := by
  rw [decimal_eq] at h
  split at h
  · cases h
  · have h1 := run_le isDigit s
    have h2 := tailLength_le (s.drop (run isDigit s))
    rw [length_drop] at h2
    cases h
    omega

theorem numeral_bounds {c : UInt8} (hc : isDigit c = true) (h : numeral (c :: s) = some n) :
    0 < n ∧ n ≤ (c :: s).length := by
  rcases base_cases c s with ⟨x, t, digit, rfl, rfl, hdigit⟩ | hnone
  · have hle := basedLength_le digit t
    rw [numeral_of_base hdigit] at h
    simp only [length_cons]
    split at h <;> · cases h; omega
  · rw [numeral_of_not_base hc hnone] at h
    exact decimal_bounds h

theorem pointed_bounds (h : pointed (46 :: t) = some n) : 0 < n ∧ n ≤ t.length + 1 := by
  rw [pointed_eq] at h
  split at h
  · next ht =>
    cases h
    refine ⟨Nat.pos_of_ne_zero fun hzero => ?_, tailLength_le (46 :: t)⟩
    have hpoint : startsWith (· == 46) t = false := by
      cases t with
      | nil => rfl
      | cons c t =>
        rw [startsWith_cons, beq_eq_false_iff_ne]
        rintro rfl
        rw [startsWith_cons] at ht
        exact absurd ht (by decide)
    rw [tailLength, openFraction_point hpoint] at hzero
    omega
  · cases h

theorem symbolMatch_bounds (h : symbolMatch s = some n) : 0 < n ∧ n ≤ s.length := by
  rw [symbolMatch, findSome?_eq_some_iff] at h
  obtain ⟨l1, u, l2, heq, hu, -⟩ := h
  obtain ⟨hp, rfl⟩ := literal_eq_some_iff.mp hu
  have hmem : u ∈ symbols := heq ▸ mem_append_right l1 mem_cons_self
  have hne : ∀ u ∈ symbols, 0 < u.length := by decide
  exact ⟨hne u hmem, hp.length_le⟩

theorem toLineEnd_bounds {d : UInt8} (h : toLineEnd [d, d] s = some n) : 0 < n ∧ n ≤ s.length := by
  unfold toLineEnd at h
  split at h
  · next hp =>
    have h1 := (List.isPrefixOf_iff_prefix.mp hp).length_le
    have h2 := run_le (· != newline) (s.drop [d, d].length)
    rw [length_drop] at h2
    cases h
    simp only [length_cons, length_nil] at h1 h2 ⊢
    omega
  · cases h

theorem label_bounds (h : label s = some n) : 0 < n ∧ n ≤ s.length := by
  obtain ⟨c, x, -, -, hp, rfl⟩ := label_eq_some_iff.mp h
  exact ⟨by simp [labelText], hp.length_le⟩

/-! ### What the rules can find -/

/-- The ways in which the rules find a token of some kind and length at the start of a text. -/
inductive Found : TokenKind → Nat → Bytes → Prop
  | word {c : UInt8} (s : Bytes) (hc : isNameStart c = true) :
      Found (wordKind ((c :: s).takeWhile isWord)) (run isWord (c :: s)) (c :: s)
  | question (s : Bytes) : Found .name 1 (63 :: s)
  | space {c : UInt8} (s : Bytes) (hc : isSpace c = true) :
      Found .space (run isSpace (c :: s)) (c :: s)
  | lineFeed (s : Bytes) : Found .newline 1 (10 :: s)
  | lineEnd (s : Bytes) : Found .newline 2 (13 :: 10 :: s)
  | carriageReturn (s : Bytes) : Found .newline 1 (13 :: s)
  | numeral {c : UInt8} {s : Bytes} {n : Nat} (hc : isDigit c = true)
      (h : numeral (c :: s) = some n) : Found .number n (c :: s)
  | pointed {s : Bytes} {n : Nat} (h : pointed (46 :: s) = some n) : Found .number n (46 :: s)
  | label {s : Bytes} {n : Nat} (h : label s = some n) : Found .label n s
  | comment {d : UInt8} {s : Bytes} {n : Nat} (hd : d = 45 ∨ d = 47)
      (h : toLineEnd [d, d] s = some n) : Found .comment n s
  | symbol {s : Bytes} {n : Nat} (h : symbolMatch s = some n) : Found .symbol n s

theorem found_of_firstMatch (h : firstMatch standardRules s = some (k, n)) : Found k n s := by
  cases s with
  | nil =>
    have hnil : firstMatch standardRules [] = none := by decide
    rw [hnil] at h
    cases h
  | cons c s =>
    by_cases hname : isNameStart c = true
    · rw [firstMatch_word hname] at h
      cases h
      exact .word s hname
    by_cases hdigit : isDigit c = true
    · rw [firstMatch_digit hdigit, tagged_eq_some_iff] at h
      obtain ⟨rfl, h⟩ := h
      exact .numeral hdigit h
    by_cases hspace : isSpace c = true
    · rw [firstMatch_space hspace] at h
      cases h
      exact .space s hspace
    by_cases h46 : c = 46
    · subst h46
      rw [firstMatch_point, Option.or_eq_some_iff, tagged_eq_some_iff, tagged_eq_some_iff] at h
      rcases h with ⟨rfl, h⟩ | ⟨-, rfl, h⟩
      · exact .pointed h
      · exact .symbol h
    by_cases h58 : c = 58
    · subst h58
      rw [firstMatch_colon, Option.or_eq_some_iff, tagged_eq_some_iff, tagged_eq_some_iff] at h
      rcases h with ⟨rfl, h⟩ | ⟨-, rfl, h⟩
      · exact .label h
      · exact .symbol h
    by_cases h45 : c = 45
    · subst h45
      rw [firstMatch_minus, Option.or_eq_some_iff, tagged_eq_some_iff, tagged_eq_some_iff] at h
      rcases h with ⟨rfl, h⟩ | ⟨-, rfl, h⟩
      · exact .comment (.inl rfl) h
      · exact .symbol h
    by_cases h47 : c = 47
    · subst h47
      rw [firstMatch_slash, Option.or_eq_some_iff, tagged_eq_some_iff, tagged_eq_some_iff] at h
      rcases h with ⟨rfl, h⟩ | ⟨-, rfl, h⟩
      · exact .comment (.inr rfl) h
      · exact .symbol h
    by_cases h13 : c = 13
    · subst h13
      rw [firstMatch_return] at h
      cases h
      split
      · next hhead =>
        cases s with
        | nil => cases hhead
        | cons d s => cases hhead; exact .lineEnd s
      · exact .carriageReturn s
    by_cases h10 : c = 10
    · subst h10
      rw [firstMatch_newline] at h
      cases h
      exact .lineFeed s
    by_cases h63 : c = 63
    · subst h63
      rw [firstMatch_question] at h
      cases h
      exact .question s
    · rw [Bool.not_eq_true] at hname hdigit hspace
      rw [firstMatch_other hname hdigit hspace ⟨h10, h13, h63, h45, h47, h46, h58⟩,
        tagged_eq_some_iff] at h
      obtain ⟨rfl, h⟩ := h
      exact .symbol h

theorem firstMatch_bounds (h : firstMatch standardRules s = some (k, n)) : 0 < n ∧ n ≤ s.length := by
  have hrun : ∀ {p : UInt8 → Bool} {c : UInt8} {s : Bytes}, p c = true →
      0 < run p (c :: s) ∧ run p (c :: s) ≤ (c :: s).length := by
    intro p c s hc
    exact ⟨by rw [run_cons_of_pos hc]; omega, run_le p (c :: s)⟩
  cases found_of_firstMatch h with
  | word s hc => exact hrun (isWord_of_isNameStart hc)
  | space s hc => exact hrun hc
  | question s | lineFeed s | lineEnd s | carriageReturn s => simp
  | numeral hc hn => exact numeral_bounds hc hn
  | pointed hn => exact pointed_bounds hn
  | label hn => exact label_bounds hn
  | comment hd hn => exact toLineEnd_bounds hn
  | symbol hn => exact symbolMatch_bounds hn

/-! ### Bytes of tokens -/

def IsText (k : TokenKind) (w : Bytes) : Prop :=
  match k with
  | .space => ∀ c ∈ w, isSpace c = true
  | .newline => w = [10] ∨ w = [13] ∨ w = [13, 10]
  | .comment => newline ∉ w ∧ ([45, 45] <+: w ∨ [47, 47] <+: w)
  | .number => (∀ c ∈ w, isNumeralByte c = true) ∧
      (startsWith isDigit w = true ∨ startsWith (· == 46) w = true)
  | .label => ∃ c x, isNameStart c = true ∧ (∀ d ∈ x, isWord d = true) ∧ w = labelText c x
  | .keyword => w ∈ keywords
  | .symbol => w ∈ symbols
  | .name => w = [63] ∨
      (w ∉ keywords ∧ startsWith isNameStart w = true ∧ ∀ c ∈ w, isWord c = true)
  | _ => False

theorem isText_of_firstMatch (h : firstMatch standardRules w = some (k, w.length)) : IsText k w := by
  generalize hn : w.length = n at h
  cases found_of_firstMatch h with
  | word s hc =>
    have hword := run_eq_length_iff.mp hn.symm
    have htake := takeWhile_of_run (p := isWord) (w := _ :: s) (r := []) (by simpa using hn.symm)
    rw [append_nil] at htake
    rw [htake, wordKind]
    split
    · next hmem => exact hmem
    · next hmem => exact .inr ⟨hmem, by simpa using hc, hword⟩
  | space s hc => exact run_eq_length_iff.mp hn.symm
  | question s | lineFeed s | lineEnd s | carriageReturn s =>
    have hs : s = [] := eq_nil_of_length_eq_zero (by simpa using hn)
    simp [IsText, hs]
  | @numeral c s _ hc hnum =>
    subst hn
    have hw : startsWith isDigit (c :: s) = true := (startsWith_cons _ _ _).trans hc
    exact ⟨(isNumeral_of_numeral hw hnum).isNumeralByte, .inl hw⟩
  | pointed hnum =>
    subst hn
    exact ⟨(isNumeral_of_pointed hnum).isNumeralByte, .inr rfl⟩
  | label hlab =>
    obtain ⟨c, x, hc, hx, hp, hlen⟩ := label_eq_some_iff.mp hlab
    exact ⟨c, x, hc, hx, (hp.eq_of_length (by omega)).symm⟩
  | comment hd hcom =>
    unfold toLineEnd at hcom
    split at hcom
    · next hp =>
      obtain ⟨v, rfl⟩ := isPrefixOf_iff_prefix.mp hp
      rw [drop_left, Option.some.injEq, ← hn, length_append, Nat.add_left_cancel_iff] at hcom
      refine ⟨fun hmem => ?_, ?_⟩
      · rcases mem_append.mp hmem with hmem | hmem
        · rcases hd with rfl | rfl <;> exact absurd hmem (by decide)
        · exact absurd (run_eq_length_iff.mp hcom _ hmem) (by decide)
      · rcases hd with rfl | rfl
        · exact .inl (prefix_append _ v)
        · exact .inr (prefix_append _ v)
    · cases hcom
  | symbol hsym =>
    subst hn
    exact (symbolMatch_eq_length_iff w).mp hsym

theorem newline_not_mem_of_isText (h : IsText k w) (hk : k ≠ .newline) : newline ∉ w := by
  intro hmem
  cases k with
  | newline => exact hk rfl
  | space => exact absurd (h _ hmem) (by decide)
  | comment => exact h.1 hmem
  | number => exact absurd (h.1 _ hmem) (by decide)
  | label =>
    obtain ⟨c, x, hc, hx, rfl⟩ := h
    simp only [labelText, mem_cons, mem_append, not_mem_nil, or_false] at hmem
    rcases hmem with h | h | h | h | h | h
    · exact absurd h (by decide)
    · exact absurd h (by decide)
    · rw [← h] at hc
      exact absurd hc (by decide)
    · exact absurd (hx _ h) (by decide)
    · exact absurd h (by decide)
    · exact absurd h (by decide)
  | keyword => exact absurd ((isNameStart_of_mem_keywords w h).2 _ hmem) (by decide)
  | symbol =>
    have hbarrier : isBarrier newline = true := by decide
    exact not_mem_symbol_of_isBarrier hbarrier h hmem
  | name =>
    rcases h with rfl | ⟨-, -, h⟩
    · exact absurd hmem (by decide)
    · exact absurd (h _ hmem) (by decide)
  | general | string => exact h

end Cartridge.Lua
