import Cartridge.Proofs.Lua.Weight

/-!
# Words written one after another

Names, reserved words and numerals that are written with a space between them, and other words that
are written with none, are read as they were written unless a word runs into the one before it.  Where
that happens the words that are read are others: the first one that was run into is read as a longer
word, or as a comment, and then the words that are left weigh too little.
-/

namespace Cartridge.Lua

open Recogniser List

variable {b : Bool} {ls : List (Bytes × Token)} {r w : Bytes} {t : Token} {ts : List Token}

/-! ### The first lexeme -/

theorem Lexed.eq_cons (hw : Lexeme w t) (hruns : runsInto t.kind w r = false) (h : Lexed (w ++ r) ls) :
    ∃ ls', ls = (w, t) :: ls' ∧ Lexed r ls' := by
  generalize hs : w ++ r = s at h
  cases h with
  | nil => exact absurd (append_eq_nil_iff.mp hs).1 hw.ne_nil
  | @cons w' r' t' ls' hw' hruns' hr' =>
    have hfirst := lexeme?_append hw hruns
    rw [hs, lexeme?_append hw' hruns', Option.some.injEq, Prod.mk.injEq] at hfirst
    obtain ⟨rfl, hlen⟩ := hfirst
    obtain ⟨rfl, rfl⟩ := append_inj hs hlen.symm
    exact ⟨ls', rfl, hr'⟩

theorem Lexeme.isGap_of_blank {c : UInt8} {v : Bytes} (h : Lexeme (c :: v) t)
    (hc : isSpace c = true ∨ c = 10 ∨ c = 13) : t.isGap = true := by
  have hkind : ∀ {k : TokenKind}, firstMatch standardRules (c :: v) = some (k, (c :: v).length) →
      k.isGap = true := by
    intro k hfirst
    have hgap : ∀ {k' : TokenKind} {n : Nat}, k'.isGap = true →
        firstMatch standardRules (c :: v) = some (k', n) → k.isGap = true := by
      intro k' n hk' hfirst'
      rw [hfirst, Option.some.injEq, Prod.mk.injEq] at hfirst'
      rw [hfirst'.1, hk']
    rcases hc with hc | rfl | rfl
    · exact hgap rfl (firstMatch_space hc v)
    · exact hgap rfl (firstMatch_newline v)
    · exact hgap rfl (firstMatch_return v)
  have hquote : isQuote c = false := by
    rcases hc with hc | rfl | rfl
    · rw [isSpace, Bool.or_eq_true, beq_iff_eq, beq_iff_eq] at hc
      rcases hc with rfl | rfl <;> rfl
    · rfl
    · rfl
  have hbracket : ¬ c = 91 := by
    rintro rfl
    rcases hc with hc | hc | hc <;> cases hc
  generalize hcv : c :: v = w at h hkind
  cases h with
  | comment hcut => rfl
  | bracket hsigns hcut =>
    rw [openingBracket, cons_append, cons_append, cons.injEq] at hcv
    exact absurd hcv.1 hbracket
  | quoted hmark hscan =>
    rw [cons.injEq] at hcv
    rw [hcv.1, hmark] at hquote
    cases hquote
  | plain hcomment hbracket hquote hfirst => exact hkind hfirst

theorem Lexeme.blank_or_comment (h : Lexeme w t) (ht : t.isGap = true) :
    (∃ c v, w = c :: v ∧ (isSpace c = true ∨ c = 10 ∨ c = 13)) ∨ 2 ≤ weight w := by
  have hmarks : ∀ {d : UInt8}, weight [d] = 1 → [d, d] <+: w → 2 ≤ weight w := by
    rintro d hd ⟨v, rfl⟩
    have hpair : weight [d, d] = 2 := by rw [weight_cons, hd]
    rw [weight_append, hpair]
    omega
  have hne := h.ne_nil
  cases h with
  | comment hcut => exact .inr (hmarks (d := 45) rfl ⟨_, rfl⟩)
  | bracket hsigns hcut => cases ht
  | quoted hmark hscan => cases ht
  | @plain k w hcomment hbracket hquote hfirst =>
    have htext := isText_of_firstMatch hfirst
    obtain ⟨c, v, rfl⟩ := exists_cons_of_ne_nil hne
    cases k with
    | space => exact .inl ⟨c, v, rfl, .inl (htext c mem_cons_self)⟩
    | newline =>
      rcases htext with heq | heq | heq <;> cases heq
      · exact .inl ⟨_, _, rfl, .inr (.inl rfl)⟩
      · exact .inl ⟨_, _, rfl, .inr (.inr rfl)⟩
      · exact .inl ⟨_, _, rfl, .inr (.inr rfl)⟩
    | comment =>
      rcases htext.2 with hp | hp
      · exact .inr (hmarks rfl hp)
      · exact .inr (hmarks rfl hp)
    | general | string | number | name | label | keyword | symbol => cases ht

theorem Lexeme.data_eq (h : Lexeme w t) (hk : t.kind ≠ .string) : t.data = w := by
  cases h with
  | comment hcut => rfl
  | bracket hsigns hcut => exact absurd rfl hk
  | quoted hmark hscan => exact absurd rfl hk
  | plain hcomment hbracket hquote hfirst => rfl

theorem Token.code_of_ne_string (hk : t.kind ≠ .string) : t.code = t.data := by
  unfold code
  split
  · next hkind _ => exact absurd hkind hk
  · next hkind _ => exact absurd hkind hk
  · rfl

/-! ### Words that are written -/

def written (ts : List Token) : Bytes := (ts.map Token.code).flatten

theorem written_cons (t : Token) (ts : List Token) : written (t :: ts) = t.code ++ written ts := by
  rw [written, map_cons, flatten_cons, written]

/-- A word that can be written.  It is read as it was written, unless it is a name that has no text. -/
structure Writable (t : Token) : Prop where
  word : t.isGap = false
  lexeme : Lexeme t.code t ∨ t = plainToken .name []

theorem Writable.weight_code (h : Writable t) : weight t.code = weight t.data := by
  rcases h.lexeme with hlex | rfl
  · exact hlex.weight_code
  · rfl

theorem Writable.lexeme_of_ne_nil (h : Writable t) (hne : t.kind = .name → t.code ≠ []) :
    Lexeme t.code t := by
  rcases h.lexeme with hlex | rfl
  · exact hlex
  · exact absurd rfl (hne rfl)

theorem Lexed.ne_nil_of_mem_words {s : Bytes} (h : Lexed s ls) {k : TokenKind} {x : Bytes}
    (hx : (k, x) ∈ words (ls.map Prod.snd)) (hk : k ≠ .string) : x ≠ [] := by
  induction h with
  | nil => cases hx
  | @cons w r t ls hw hruns hr ih =>
    rw [map_cons] at hx
    cases ht : t.isGap with
    | true =>
      rw [words_cons_of_gap ht] at hx
      exact ih hx
    | false =>
      rw [words_cons_of_word ht] at hx
      rcases mem_cons.mp hx with heq | hx
      · cases heq
        rw [hw.data_eq hk]
        exact hw.ne_nil
      · exact ih hx

theorem Writable.not_runsInto (ht : Writable t) (hweight : weight (written ts) = wordsWeight (words ts))
    (h : Lexed (t.code ++ written ts) ls) (hwords : words (ls.map Prod.snd) = (t.kind, t.data) :: words ts) :
    Lexeme t.code t ∧ runsInto t.kind t.code (written ts) = false := by
  have hlex : Lexeme t.code t := by
    rcases ht.lexeme with hlex | rfl
    · exact hlex
    · exact absurd rfl (h.ne_nil_of_mem_words (hwords ▸ mem_cons_self) (by decide))
  refine ⟨hlex, ?_⟩
  by_cases hstring : t.kind = .string
  · rw [hstring]
    rfl
  have hcode := Token.code_of_ne_string hstring
  generalize hs : t.code ++ written ts = s at h
  cases h with
  | nil => exact absurd (append_eq_nil_iff.mp hs).1 hlex.ne_nil
  | @cons w' r' t' ls' hw' hruns' hr' =>
    rw [map_cons] at hwords
    cases ht' : t'.isGap with
    | false =>
      -- a word with the same kind and the same text is the same word
      rw [words_cons_of_word ht', cons.injEq, Prod.mk.injEq] at hwords
      obtain ⟨⟨hkind, hdata⟩, -⟩ := hwords
      have hw : w' = t.code := by rw [← hw'.data_eq (hkind ▸ hstring), hdata, hcode]
      subst hw
      rw [← append_cancel_left hs, hkind] at hruns'
      exact hruns'
    | true =>
      rw [words_cons_of_gap ht'] at hwords
      obtain ⟨c, v, hcv⟩ := exists_cons_of_ne_nil hlex.ne_nil
      rcases hw'.blank_or_comment ht' with ⟨c', v', hw, hblank⟩ | hheavy
      · -- a word does not start with a blank
        rw [hcv, hw, cons_append, cons_append, cons.injEq] at hs
        rw [hcv] at hlex
        have hgap := hlex.isGap_of_blank (hs.1 ▸ hblank)
        rw [ht.word] at hgap
        cases hgap
      · -- behind a comment there is not enough left for all the words
        have hle := hr'.wordsWeight_le
        have htotal := congrArg weight hs
        rw [weight_append, weight_append, ht.weight_code, hweight] at htotal
        rw [hwords, wordsWeight_cons] at hle
        omega

/-! ### Words with spaces between them -/

def TokenKind.isSpaced : TokenKind → Bool
  | .name | .keyword | .number => true
  | _ => false

def spaceToken : Token := plainToken .space [32]

theorem lexeme_space : Lexeme [32] spaceToken := lexeme?_eq_length_iff.mp (by decide)

/-- Words with one newline between them, one space, or nothing.  The flag tells whether a space is
written before a name, a reserved word or a numeral. -/
inductive Pressed : Bool → List Token → Prop
  | nil {b : Bool} : Pressed b []
  | newline {b : Bool} {ts : List Token} (h : Pressed false ts) : Pressed b (newlineToken :: ts)
  | first {t : Token} {ts : List Token} (ht : Writable t) (hk : t.kind.isSpaced = true)
      (h : Pressed true ts) : Pressed false (t :: ts)
  | spaced {t : Token} {ts : List Token} (ht : Writable t) (hk : t.kind.isSpaced = true)
      (h : Pressed true ts) : Pressed true (spaceToken :: t :: ts)
  | sign {b b' : Bool} {t : Token} {ts : List Token} (ht : Writable t)
      (hk : t.kind.isSpaced = false) (h : Pressed b' ts) : Pressed b (t :: ts)

/-- Whether a word stands apart from the text `r` behind it: a symbol or a numeral if it is not run
into, a name if it has a text at all. -/
def standsApart (t : Token) (r : Bytes) : Bool :=
  match t.kind with
  | .name => !t.code.isEmpty
  | .number => !numeralRuns t.code r
  | .symbol => !symbolRuns t.code r
  | _ => true

def keptApart : List Token → Bool
  | [] => true
  | t :: ts => standsApart t (written ts) && keptApart ts

theorem Pressed.weight_written (h : Pressed b ts) : weight (written ts) = wordsWeight (words ts) := by
  have hword : ∀ {t : Token} {ts : List Token}, Writable t →
      weight (written ts) = wordsWeight (words ts) →
      weight (written (t :: ts)) = wordsWeight (words (t :: ts)) := by
    intro t ts ht hts
    rw [written_cons, weight_append, words_cons_of_word ht.word, wordsWeight_cons, ht.weight_code, hts]
  have hgap : ∀ {t : Token} {ts : List Token}, t.isGap = true → weight t.code = 0 →
      weight (written ts) = wordsWeight (words ts) →
      weight (written (t :: ts)) = wordsWeight (words (t :: ts)) := by
    intro t ts ht hzero hts
    rw [written_cons, weight_append, words_cons_of_gap ht, hzero, hts, Nat.zero_add]
  induction h with
  | nil => rfl
  | newline h ih => exact hgap rfl rfl ih
  | first ht hk h ih => exact hword ht ih
  | spaced ht hk h ih => exact hgap rfl rfl (hword ht ih)
  | sign ht hk h ih => exact hword ht ih

theorem Lexeme.startsWith_isWord (h : Lexeme w t) (ht : t.isGap = false) (hk : t.kind.isSpaced = false)
    (r : Bytes) : startsWith Bytes.isWord (w ++ r) = false := by
  cases h with
  | comment hcut => cases ht
  | bracket hsigns hcut => rfl
  | quoted hmark hscan => rcases isQuote_iff.mp hmark with rfl | rfl <;> rfl
  | @plain k w hcomment hbracket hquote hfirst =>
    have htext := isText_of_firstMatch hfirst
    cases k with
    | label =>
      obtain ⟨c, x, -, -, rfl⟩ := htext
      rfl
    | symbol =>
      have hall : ∀ u ∈ symbols, ∃ c v, u = c :: v ∧ Bytes.isWord c = false := by
        intro u hu
        have hfirst : (u.head?.map Bytes.isWord) = some false := by
          revert u
          decide
        cases u with
        | nil => cases hfirst
        | cons c v => exact ⟨c, v, rfl, Option.some.inj hfirst⟩
      obtain ⟨c, v, rfl, hc⟩ := hall w htext
      rw [cons_append, startsWith_cons, hc]
    | space | newline | comment => cases ht
    | number | name | keyword => cases hk
    | general | string => exact absurd htext id

theorem Pressed.startsWith_isWord (h : Pressed true ts) : startsWith Bytes.isWord (written ts) = false := by
  cases h with
  | nil => rfl
  | newline h => rfl
  | spaced ht hk h => rfl
  | @sign _ _ t ts ht hk h =>
    have hne : t.kind = .name → t.code ≠ [] := by
      intro hname
      rw [hname] at hk
      cases hk
    rw [written_cons]
    exact (ht.lexeme_of_ne_nil hne).startsWith_isWord ht.word hk _

/-! ### Reading what was written -/

theorem runsInto_of_standsApart (ht : t.isGap = false)
    (hr : t.kind.isSpaced = true → startsWith Bytes.isWord r = false) (h : standsApart t r = true) :
    runsInto t.kind t.code r = false := by
  rw [standsApart] at h
  rw [Token.isGap] at ht
  cases hk : t.kind with
  | name => rw [runsInto, hr (hk ▸ rfl), Bool.and_false]
  | keyword => rw [runsInto, hr (hk ▸ rfl)]
  | number =>
    rw [hk] at h
    rw [runsInto]
    exact Bool.not_eq_true' _ ▸ h
  | symbol =>
    rw [hk] at h
    rw [runsInto]
    exact Bool.not_eq_true' _ ▸ h
  | general | string | label => rfl
  | space | newline | comment =>
    rw [hk] at ht
    cases ht

theorem standsApart_of_runsInto (hlex : Lexeme t.code t) (h : runsInto t.kind t.code r = false) :
    standsApart t r = true := by
  rw [standsApart]
  cases hk : t.kind with
  | name =>
    rw [Bool.not_eq_true', isEmpty_eq_false_iff]
    exact hlex.ne_nil
  | number =>
    rw [hk, runsInto] at h
    rw [h]
    rfl
  | symbol =>
    rw [hk, runsInto] at h
    rw [h]
    rfl
  | general | space | newline | comment | string | label | keyword => rfl

theorem Writable.lexeme_of_standsApart (ht : Writable t) (h : standsApart t r = true) : Lexeme t.code t := by
  refine ht.lexeme_of_ne_nil fun hk hnil => ?_
  rw [standsApart, hk, hnil] at h
  cases h

theorem runsInto_space (hlex : Lexeme t.code t) (ht : t.isGap = false) (r : Bytes) :
    runsInto .space [32] (t.code ++ r) = false := by
  obtain ⟨c, v, hcv⟩ := exists_cons_of_ne_nil hlex.ne_nil
  rw [runsInto, hcv, cons_append, startsWith_cons]
  cases hc : isSpace c with
  | false => rfl
  | true =>
    rw [hcv] at hlex
    rw [hlex.isGap_of_blank (.inl hc)] at ht
    cases ht

theorem Pressed.lexed (h : Pressed b ts) (hapart : keptApart ts = true) :
    Lexed (written ts) (ts.map fun t => (t.code, t)) := by
  have hword : ∀ {t : Token} {ts : List Token}, Writable t →
      (t.kind.isSpaced = true → startsWith Bytes.isWord (written ts) = false) →
      standsApart t (written ts) = true → Lexed (written ts) (ts.map fun t => (t.code, t)) →
      Lexed (written (t :: ts)) ((t :: ts).map fun t => (t.code, t)) := by
    intro t ts ht hr hstands hts
    rw [written_cons]
    exact .cons (ht.lexeme_of_standsApart hstands) (runsInto_of_standsApart ht.word hr hstands) hts
  induction h with
  | nil => exact .nil
  | newline h ih =>
    rw [keptApart, Bool.and_eq_true] at hapart
    exact .cons lexeme_newline rfl (ih hapart.2)
  | first ht hk h ih =>
    rw [keptApart, Bool.and_eq_true] at hapart
    exact hword ht (fun _ => h.startsWith_isWord) hapart.1 (ih hapart.2)
  | @spaced t ts ht hk h ih =>
    rw [keptApart, Bool.and_eq_true, keptApart, Bool.and_eq_true] at hapart
    obtain ⟨-, hstands, hrest⟩ := hapart
    have hlexed := hword ht (fun _ => h.startsWith_isWord) hstands (ih hrest)
    have hspace := runsInto_space (ht.lexeme_of_standsApart hstands) ht.word (written ts)
    rw [← written_cons] at hspace
    exact .cons lexeme_space hspace hlexed
  | sign ht hk h ih =>
    rw [keptApart, Bool.and_eq_true] at hapart
    exact hword ht (fun hspaced => absurd hspaced (by rw [hk]; decide)) hapart.1 (ih hapart.2)

theorem Pressed.keptApart_of_lexed (h : Pressed b ts) (hls : Lexed (written ts) ls)
    (hwords : words (ls.map Prod.snd) = words ts) : keptApart ts = true := by
  -- a first word is not run into, and the rest is read behind it
  have hword : ∀ {b : Bool} {t : Token} {ts : List Token}, Writable t → Pressed b ts →
      (∀ {ls : List (Bytes × Token)}, Lexed (written ts) ls →
        words (ls.map Prod.snd) = words ts → keptApart ts = true) →
      ∀ {ls : List (Bytes × Token)}, Lexed (written (t :: ts)) ls →
        words (ls.map Prod.snd) = words (t :: ts) → keptApart (t :: ts) = true := by
    intro b t ts ht hts ih ls hls hwords
    rw [written_cons] at hls
    rw [words_cons_of_word ht.word] at hwords
    obtain ⟨hlex, hruns⟩ := ht.not_runsInto hts.weight_written hls hwords
    obtain ⟨ls', rfl, hrest⟩ := hls.eq_cons hlex hruns
    rw [map_cons, words_cons_of_word ht.word, cons.injEq] at hwords
    rw [keptApart, standsApart_of_runsInto hlex hruns, ih hrest hwords.2]
    rfl
  induction h generalizing ls with
  | nil => rfl
  | newline h ih =>
    obtain ⟨ls', rfl, hrest⟩ := hls.eq_cons lexeme_newline rfl
    rw [map_cons, words_cons_of_gap rfl, words_cons_of_gap rfl] at hwords
    rw [keptApart, ih hrest hwords]
    rfl
  | first ht hk h ih => exact hword ht h ih hls hwords
  | @spaced t ts ht hk h ih =>
    rw [words_cons_of_gap rfl, words_cons_of_word ht.word] at hwords
    have hlex : Lexeme t.code t := by
      refine ht.lexeme_of_ne_nil fun hname hnil => ?_
      have hdata : t.data = [] := by rw [← Token.code_of_ne_string (by rw [hname]; decide), hnil]
      exact hls.ne_nil_of_mem_words (hwords ▸ mem_cons_self) (by rw [hname]; decide) hdata
    have hspace := runsInto_space hlex ht.word (written ts)
    rw [← written_cons] at hspace
    obtain ⟨ls', rfl, hrest⟩ := hls.eq_cons lexeme_space hspace
    rw [map_cons, words_cons_of_gap rfl, ← words_cons_of_word ht.word] at hwords
    rw [keptApart, hword ht h ih hrest hwords]
    rfl
  | sign ht hk h ih => exact hword ht h ih hls hwords

end Cartridge.Lua
