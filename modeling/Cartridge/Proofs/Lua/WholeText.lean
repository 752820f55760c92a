import Cartridge.Proofs.Lua.Reading

/-!
# The tokens of a whole text

A text that leaves nothing open is read lexeme by lexeme, whatever the pieces that it comes in.
-/

namespace Cartridge.Lua

open List

variable {f : Frame} {ls : List (Bytes × Token)} {s text v : Bytes}

def Token.unplaced (t : Token) : Token := { t with place := none }

theorem Lexeme.unplaced_eq {w : Bytes} {t : Token} (h : Lexeme w t) : t.unplaced = t := by
  cases h <;> rfl

namespace Scanner

variable {sc sc' : Scanner}

def passed (sc : Scanner) (w : Bytes) (t : Token) : Scanner := sc.closing (placed t sc.place) w

def passedAll (sc : Scanner) (ls : List (Bytes × Token)) : Scanner :=
  ls.foldl (fun sc l => sc.passed l.1 l.2) sc

/-! ### One lexeme -/

theorem reads_congr_step {sc₁ : Scanner} {n : Nat} (h : sc.step s = (sc₁, n, none)) (hn : n ≠ 0) :
    Reads sc s sc' ↔ Reads sc₁ (s.drop n) sc' := by
  rw [← reading_eq_ok_iff, ← reading_eq_ok_iff, reading_of_step h hn]

theorem reads_frame (hf : f.Opened) (hm : sc.mode = f.mode text)
    {x y : Bytes} (hcut : Bytes.cut f.close v = some (x, y)) :
    Reads sc v sc' ↔
      Reads (sc.closing (f.token (text ++ x)) (v.take (x.length + f.close.length)))
        (v.drop (x.length + f.close.length)) sc' := by
  have hpos := length_pos_iff.mpr hf.close_ne_nil
  exact reads_congr_step ((hf.step hm v).1 x y hcut) (by omega)

theorem mode_ne_code_of_frame (hf : f.Opened) (hm : sc.mode = f.mode text)
    (hcut : Bytes.cut f.close v = none) (hr : Reads sc v sc') :
    sc'.mode ≠ .code := by
  have hopen : ∀ text, f.mode text ≠ .code := by
    intro text
    cases hf <;> exact Mode.noConfusion
  by_cases hv : v = []
  · subst hv
    rw [reads_nil_iff] at hr
    rw [hr, hm]
    exact hopen text
  · have hlen := length_pos_iff.mpr hv
    rw [reads_congr_step ((hf.step hm v).2 hcut) (by omega), drop_length, reads_nil_iff] at hr
    rw [hr]
    exact hopen _

theorem reads_framed (hf : f.Opened) {opening : Bytes} {token : Bytes → Token}
    (hne : opening ≠ []) (htoken : ∀ x, f.token (text ++ x) = placed (token x) sc.place)
    (hstep : sc.step (opening ++ v) = (sc.holding (f.mode text) opening, opening.length, none)) :
    (∀ t n, framed opening f.close token (opening ++ v) = some (t, n) →
        (Reads sc (opening ++ v) sc' ↔
          Reads (sc.passed ((opening ++ v).take n) t) ((opening ++ v).drop n) sc')) ∧
      (framed opening f.close token (opening ++ v) = none → Reads sc (opening ++ v) sc' →
        sc'.mode ≠ .code) := by
  have hgo : Reads sc (opening ++ v) sc' ↔ Reads (sc.holding (f.mode text) opening) v sc' := by
    have hpos := length_pos_iff.mpr hne
    rw [reads_congr_step hstep (by omega), drop_left]
  rw [framed, drop_left, hgo]
  refine ⟨fun t n hsome => ?_, fun hnone hr => ?_⟩
  · rw [Option.map_eq_some_iff] at hsome
    obtain ⟨⟨x, y⟩, hcut, heq⟩ := hsome
    cases heq
    have hdrop : (opening ++ v).drop (opening.length + (x.length + f.close.length)) =
        v.drop (x.length + f.close.length) := by
      rw [drop_append, drop_eq_nil_of_le (by omega), nil_append,
        Nat.add_sub_cancel_left]
    have hsc : (sc.holding (f.mode text) opening).closing (f.token (text ++ x))
          (v.take (x.length + f.close.length)) =
        sc.passed ((opening ++ v).take (opening.length + (x.length + f.close.length))) (token x) := by
      simp only [passed, closing, holding, advance_take_append, htoken]
    rw [reads_frame hf rfl hcut, Nat.add_assoc, hdrop, ← hsc]
  · rw [Option.map_eq_none_iff] at hnone
    exact mode_ne_code_of_frame hf rfl hnone hr

section Code

variable (hcode : sc.mode = .code)
include hcode

theorem reads_quoted {c : UInt8} (hc : isQuote c = true) (v : Bytes) :
    (∀ t n, lexeme? (c :: v) = some (t, n) →
        (Reads sc (c :: v) sc' ↔ Reads (sc.passed ((c :: v).take n) t) ((c :: v).drop n) sc')) ∧
      (lexeme? (c :: v) = none → Reads sc (c :: v) sc' → sc'.mode ≠ .code) := by
  have hgo : Reads sc (c :: v) sc' ↔ Reads (sc.holding (.quoted c [] sc.place) [c]) v sc' :=
    reads_congr_step (step_of_quote hcode hc v) (by decide)
  have hdigit : Bytes.isDigit c = false := by rcases isQuote_iff.mp hc with rfl | rfl <;> rfl
  have hm : (sc.holding (.quoted c [] sc.place) [c]).mode = .quoted c [] sc.place := rfl
  obtain ⟨hclosed, hunclosed, hbad⟩ := step_quoted hm v
  rw [lexeme?_of_quote hc, hgo]
  cases hscan : scanQuoted c [] 0 v with
  | closed data n =>
    refine ⟨fun t m h => ?_, fun h => by cases h⟩
    cases h
    have hn : n ≠ 0 := by
      obtain ⟨body, rest, -, hn, -⟩ := exists_of_scanQuoted_closed hdigit hscan
      omega
    rw [reads_congr_step (hclosed data n hscan) hn, drop_succ_cons, take_succ_cons]
    have hsc : (sc.holding (.quoted c [] sc.place) [c]).closing
        (placed (quotedString c ([] ++ data)) sc.place) (v.take n) =
          sc.passed (c :: v.take n) (quotedString c data) := rfl
    rw [hsc]
  | unclosed data n =>
    refine ⟨fun t m h => (by cases h), fun _ hr => ?_⟩
    by_cases hv : v = []
    · subst hv
      rw [reads_nil_iff] at hr
      rw [hr]
      exact Mode.noConfusion
    · have hn := taken_of_unclosed hscan
      have hlen := length_pos_iff.mpr hv
      rw [reads_congr_step (hunclosed data n hscan) (by omega), drop_eq_nil_of_le (by omega),
        reads_nil_iff] at hr
      rw [hr]
      exact Mode.noConfusion
  | badEscape data =>
    refine ⟨fun t m h => (by cases h), fun _ hr => ?_⟩
    exact absurd hr (not_reads_of_failure (hbad data hscan) sc')

/-- **Reading goes on behind the first lexeme; a text without one is not read or leaves something
open.** -/
theorem reads_lexeme (hs : s ≠ []) (sc' : Scanner) :
    (∀ t n, lexeme? s = some (t, n) →
        (Reads sc s sc' ↔ Reads (sc.passed (s.take n) t) (s.drop n) sc')) ∧
      (lexeme? s = none → Reads sc s sc' → sc'.mode ≠ .code) := by
  obtain ⟨c, v, rfl⟩ := exists_cons_of_ne_nil hs
  by_cases hquote : isQuote c = true
  · exact reads_quoted hcode hquote v
  rw [Bool.not_eq_true] at hquote
  by_cases hcomment : commentOpening <+: c :: v
  · rw [lexeme?_of_comment hcomment]
    have hstep := step_of_comment hcode hcomment
    obtain ⟨v', hv'⟩ := hcomment
    rw [← hv'] at hstep ⊢
    have htake : (commentOpening ++ v').take 4 = commentOpening := rfl
    rw [htake] at hstep
    exact reads_framed (f := commentFrame sc.place) (.comment sc.place) (by decide) (fun _ => rfl) hstep
  cases hbracket : longBracket? (c :: v) with
  | some signs =>
    rw [lexeme?_of_bracket hbracket]
    have hstep := step_of_bracket hcode hbracket
    obtain ⟨-, v', hv'⟩ := longBracket?_eq_some_iff.mp hbracket
    have hlen : signs.length + 2 = (openingBracket signs).length := by simp [openingBracket]
    rw [← hv', hlen, take_left] at hstep
    rw [← hv']
    exact reads_framed (f := longFrame signs sc.place) (.long signs sc.place)
      (by simp [openingBracket]) (fun _ => rfl) hstep
  | none =>
    have hstep := step_of_rules hcode hcomment hbracket hquote
    rw [lexeme?_of_rules hcomment hbracket hquote]
    cases hfirst : firstMatch standardRules (c :: v) with
    | none =>
      rw [hfirst] at hstep
      refine ⟨fun t n h => (by cases h), fun _ hr => ?_⟩
      obtain ⟨sc₁, n, h, hn, -⟩ := (reads_iff hs).mp hr
      cases hstep.symm.trans h
      exact absurd rfl hn
    | some kn =>
      obtain ⟨k, m⟩ := kn
      rw [hfirst] at hstep
      refine ⟨fun t n h => ?_, fun h => by cases h⟩
      cases h
      have hpos := (firstMatch_bounds hfirst).1
      exact reads_congr_step hstep (by omega)

end Code

/-! ### The whole text -/

@[simp] theorem passedAll_nil (sc : Scanner) : sc.passedAll [] = sc := rfl

@[simp] theorem passedAll_cons (sc : Scanner) (l : Bytes × Token) (ls : List (Bytes × Token)) :
    sc.passedAll (l :: ls) = (sc.passed l.1 l.2).passedAll ls := rfl

theorem reads_iff_lexed (hcode : sc.mode = .code) (s : Bytes) :
    Reads sc s sc' ∧ sc'.mode = .code ↔ ∃ ls, Lexed s ls ∧ sc' = sc.passedAll ls := by
  induction hk : s.length using Nat.strongRecOn generalizing s sc with
  | _ k ih =>
    by_cases hs : s = []
    · subst hs
      rw [reads_nil_iff]
      constructor
      · rintro ⟨rfl, -⟩
        exact ⟨[], .nil, rfl⟩
      · rintro ⟨ls, hls, rfl⟩
        have hnil : ls = [] := by
          generalize hs : ([] : Bytes) = s at hls
          cases hls with
          | nil => rfl
          | cons hw _ _ => exact absurd (append_eq_nil_iff.mp hs.symm).1 hw.ne_nil
        subst hnil
        exact ⟨rfl, hcode⟩
    obtain ⟨hsome, hnone⟩ := reads_lexeme hcode hs sc'
    constructor
    · rintro ⟨hr, hmode⟩
      cases hlex : lexeme? s with
      | none => exact absurd hmode (hnone hlex hr)
      | some tn =>
        obtain ⟨t, n⟩ := tn
        obtain ⟨hpos, hle⟩ := lexeme?_bounds hlex
        have hcode' : (sc.passed (s.take n) t).mode = .code := rfl
        obtain ⟨ls, hls, rfl⟩ := (ih (s.drop n).length (by rw [length_drop]; omega) hcode'
          (s.drop n) rfl).mp ⟨(hsome t n hlex).mp hr, hmode⟩
        have hlen : (s.take n).length = n := by rw [length_take]; omega
        have happ : lexeme? (s.take n ++ s.drop n) = some (t, (s.take n).length) := by
          rw [take_append_drop, hlex, hlen]
        have hne : s.take n ≠ [] := length_pos_iff.mp (by omega)
        obtain ⟨hself, hruns⟩ := (lexeme?_append_iff hne _ t).mp happ
        refine ⟨(s.take n, t) :: ls, ?_, rfl⟩
        have hcons := Lexed.cons (lexeme?_eq_length_iff.mp hself) hruns hls
        rwa [take_append_drop] at hcons
    · rintro ⟨ls, hls, rfl⟩
      cases hls with
      | nil => exact absurd rfl hs
      | @cons w r t ls hw hruns hr =>
        have hlex := lexeme?_append hw hruns
        have hpos := length_pos_iff.mpr hw.ne_nil
        rw [hsome t _ hlex, take_left, drop_left]
        have hcode' : (sc.passed w t).mode = .code := rfl
        exact (ih r.length (by rw [← hk, length_append]; omega) hcode' r rfl).mpr ⟨ls, hr, rfl⟩

theorem unclosed_eq_none_iff : sc.unclosed = none ↔ sc.mode = .code := by
  unfold unclosed
  cases sc.mode <;> simp

theorem feed_eq_iff {pieces : List Bytes} (hcut : LineCut pieces) (hcode : sc.mode = .code) :
    sc.feed pieces = (sc', none) ↔ ∃ ls, Lexed pieces.flatten ls ∧ sc' = sc.passedAll ls := by
  rw [← reads_iff_lexed hcode, ← chunks_eq_iff hcut (.code hcode), feed, feedFrom]
  constructor
  · intro h
    split at h
    · cases h
    · next sc₁ hchunks =>
      rw [Option.none_or, Prod.mk.injEq, unclosed_eq_none_iff] at h
      obtain ⟨rfl, hmode⟩ := h
      exact ⟨hchunks, hmode⟩
  · rintro ⟨hchunks, hmode⟩
    rw [hchunks]
    simp [unclosed_eq_none_iff.mpr hmode]

theorem unplaced_passedAll (h : Lexed s ls) (sc : Scanner) :
    (sc.passedAll ls).tokens.toList.map Token.unplaced =
      sc.tokens.toList.map Token.unplaced ++ ls.map Prod.snd := by
  induction h generalizing sc with
  | nil => simp
  | @cons w r t ls hw _ _ ih =>
    have ht : (placed t sc.place).unplaced = t := hw.unplaced_eq
    rw [passedAll_cons, ih]
    simp [passed, closing, ht]

theorem unplaced_fresh (h : Lexed s ls) :
    (passedAll {} ls).tokens.toList.map Token.unplaced = ls.map Prod.snd :=
  unplaced_passedAll h {}

end Scanner

end Cartridge.Lua
