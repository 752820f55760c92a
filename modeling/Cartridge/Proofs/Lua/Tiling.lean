import Cartridge.Proofs.Lua.Echo

/-!
# Tokens tile the source

The scanner loses no byte and knows where it is.  Whatever the chunks that source comes in, and even if
they cut tokens, the bytes passed so far are the pieces of the tokens found, followed by the start of
what is still open; and what is open remembers the place where it began.  One step keeps this, so a run
keeps it, and at the end of source nothing is open.
-/

namespace Cartridge.Lua

open List

/-! ### Places -/

/-- The place behind a text: the number of its newlines, and of the bytes behind the last of them. -/
def Place.after (s : Bytes) : Place :=
  ⟨s.count Bytes.newline, (s.reverse.takeWhile (· != Bytes.newline)).length⟩

theorem Place.after_concat (s : Bytes) (c : UInt8) :
    Place.after (s ++ [c]) = (Place.after s).next c := by
  unfold Place.after Place.next
  by_cases hc : c = Bytes.newline
  · subst hc
    simp
  · simp [hc]

theorem Place.advance_after (s w : Bytes) : (Place.after s).advance w = Place.after (s ++ w) := by
  induction w generalizing s with
  | nil => simp [advance]
  | cons c w ih =>
    have happend : s ++ c :: w = (s ++ [c]) ++ w := by simp
    rw [happend, ← ih (s ++ [c]), after_concat]
    rfl

/-! ### Tiles -/

/-- The token stands for the piece `w` of a text, behind the piece `before`. -/
structure Tile (before w : Bytes) (t : Token) : Prop where
  ne_nil : w ≠ []
  place : t.place = some (Place.after before)
  /-- The piece is the token's source text, unless escapes may be spelled in several ways. -/
  code : t.isQuoted = false → t.code = w
  quoted : t.isQuoted = true → ∃ mark body, t.quote = .short [mark] ∧ w = mark :: (body ++ [mark])

inductive Tiles : List Token → Bytes → Prop
  | nil : Tiles [] []
  | concat {ts : List Token} {s w : Bytes} {t : Token} (hs : Tiles ts s) (ht : Tile s w t) :
      Tiles (ts ++ [t]) (s ++ w)

theorem Tiles.exists_offsets {ts : List Token} {s : Bytes} (h : Tiles ts s) :
    ∃ o : Nat → Nat, o 0 = 0 ∧ o ts.length = s.length ∧ (∀ i, i < ts.length → o i < o (i + 1)) ∧
      ∀ i t, ts[i]? = some t → Tile (s.take (o i)) ((s.take (o (i + 1))).drop (o i)) t := by
  induction h with
  | nil => exact ⟨fun _ => 0, rfl, rfl, nofun, nofun⟩
  | @concat ts s w t _ ht ih =>
    obtain ⟨o, hzero, hend, hlt, htile⟩ := ih
    have hw := length_pos_iff.mpr ht.ne_nil
    have hle : ∀ i, i ≤ ts.length → o i ≤ s.length := by
      intro i hi
      induction hk : ts.length - i generalizing i with
      | zero =>
        obtain rfl : i = ts.length := by omega
        exact Nat.le_of_eq hend
      | succ k ih =>
        have hnext := hlt i (by omega)
        have hrest := ih (i + 1) (by omega) (by omega)
        omega
    -- one more offset, at the end of the longer text
    refine ⟨fun i => if i ≤ ts.length then o i else (s ++ w).length, ?_, ?_, ?_, ?_⟩
    · simpa using hzero
    · simp only [List.length_append, List.length_singleton]
      rw [if_neg (by omega)]
    · intro i hi
      rw [List.length_append, List.length_singleton] at hi
      dsimp only
      rw [if_pos (by omega)]
      by_cases hlast : i = ts.length
      · subst hlast
        rw [if_neg (by omega), hend, List.length_append]
        omega
      · rw [if_pos (by omega)]
        exact hlt i (by omega)
    · intro i u hu
      dsimp only
      by_cases hi : i < ts.length
      · rw [getElem?_append_left hi] at hu
        rw [if_pos (by omega), if_pos (by omega), take_append_of_le_length (hle i (Nat.le_of_lt hi)),
          take_append_of_le_length (hle (i + 1) hi)]
        exact htile i u hu
      · have hlen := (List.getElem?_eq_some_iff.mp hu).1
        rw [List.length_append, List.length_singleton] at hlen
        obtain rfl : i = ts.length := by omega
        rw [getElem?_append_right (Nat.le_refl _), Nat.sub_self] at hu
        obtain rfl : t = u := Option.some.inj hu
        rw [if_pos (Nat.le_refl _), if_neg (by omega), hend, take_length, take_left,
          drop_left]
        exact ht

/-! ### The invariant -/

theorem kind_ne_string_of_firstMatch {s : Bytes} {k : TokenKind} {n : Nat}
    (h : firstMatch standardRules s = some (k, n)) : k ≠ .string := by
  cases found_of_firstMatch h with
  | word s hc =>
    rw [wordKind]
    split
    · decide
    · decide
  | _ => decide

namespace Scanner

/-- What is open began behind `before` and holds the bytes `rest` that were read since. -/
inductive Held (before : Bytes) : Mode → Bytes → Prop
  | code : Held before .code []
  | quoted {mark : UInt8} (hmark : isQuote mark = true) (data body : Bytes) :
      Held before (.quoted mark data (Place.after before)) (mark :: body)
  | comment (text : Bytes) : Held before (.comment text (Place.after before)) text
  | long (signs text : Bytes) :
      Held before (.long signs text (Place.after before)) (openingBracket signs ++ text)

/-- The scanner has read the text `s`: a part of it is found as tokens, the rest is open. -/
structure Tracks (sc : Scanner) (s : Bytes) : Prop where
  place : sc.place = Place.after s
  parts : ∃ before rest, s = before ++ rest ∧ Tiles sc.tokens.toList before ∧ Held before sc.mode rest

theorem tracks_fresh : Tracks {} [] := ⟨rfl, [], [], rfl, .nil, .code⟩

theorem tracks_closing {sc : Scanner} {before rest w : Bytes} {t : Token}
    (hplace : sc.place = Place.after (before ++ rest)) (htiles : Tiles sc.tokens.toList before)
    (ht : Tile before (rest ++ w) t) : (sc.closing t w).Tracks (before ++ rest ++ w) where
  place := by rw [closing, hplace, Place.advance_after]
  parts := by
    refine ⟨before ++ rest ++ w, [], (append_nil _).symm, ?_, .code⟩
    have htokens := htiles.concat ht
    rw [← append_assoc] at htokens
    simpa [closing] using htokens

theorem tracks_holding {sc : Scanner} {before rest w : Bytes} {m : Mode}
    (hplace : sc.place = Place.after (before ++ rest)) (htiles : Tiles sc.tokens.toList before)
    (hm : Held before m (rest ++ w)) : (sc.holding m w).Tracks (before ++ rest ++ w) where
  place := by rw [holding, hplace, Place.advance_after]
  parts := ⟨before, rest ++ w, append_assoc before rest w, htiles, hm⟩

section Step

variable {sc sc' : Scanner} {s : Bytes} {n : Nat}

theorem tracks_step_code {before : Bytes} (hplace : sc.place = Place.after before)
    (htiles : Tiles sc.tokens.toList before) (hmode : sc.mode = .code)
    (h : sc.step s = (sc', n, none)) : sc'.Tracks (before ++ s.take n) := by
  have hplace' : sc.place = Place.after (before ++ []) := by rw [append_nil, hplace]
  have hstay : sc.Tracks (before ++ s.take 0) :=
    ⟨by rw [hplace, take_zero, append_nil],
      before, [], rfl, htiles, by rw [hmode]; exact .code⟩
  have hopened : ∀ {m : Mode} {w : Bytes}, Held before m w → (sc.holding m w).Tracks (before ++ w) := by
    intro m w hm
    have hheld : Held before m ([] ++ w) := hm
    simpa using tracks_holding hplace' htiles hheld
  cases s with
  | nil =>
    rw [step_nil] at h
    cases h
    exact hstay
  | cons c v =>
    by_cases hquote : isQuote c = true
    · cases (step_of_quote hmode hquote v).symm.trans h
      rw [hplace]
      exact hopened (.quoted hquote [] [])
    by_cases hcomment : commentOpening <+: c :: v
    · cases (step_of_comment hmode hcomment).symm.trans h
      have htake : (c :: v).take 4 = commentOpening := (prefix_iff_eq_take.mp hcomment).symm
      rw [htake, hplace]
      exact hopened (.comment _)
    cases hbracket : longBracket? (c :: v) with
    | some signs =>
      cases (step_of_bracket hmode hbracket).symm.trans h
      have hopening := (longBracket?_eq_some_iff.mp hbracket).2
      have hlen : signs.length + 2 = (openingBracket signs).length := by simp [openingBracket]
      rw [hlen, ← prefix_iff_eq_take.mp hopening, hplace]
      have hheld : Held before _ _ := Held.long signs []
      rw [append_nil] at hheld
      exact hopened hheld
    | none =>
      rw [step_of_rules hmode hcomment hbracket (by simpa using hquote)] at h
      cases hfirst : firstMatch standardRules (c :: v) with
      | none =>
        rw [hfirst] at h
        cases h
        exact hstay
      | some found =>
        obtain ⟨k, m⟩ := found
        rw [hfirst] at h
        cases h
        have hk := kind_ne_string_of_firstMatch hfirst
        obtain ⟨hpos, hle⟩ := firstMatch_bounds hfirst
        have ht : Tile before ([] ++ (c :: v).take n)
            (placed (plainToken k ((c :: v).take n)) sc.place) := by
          refine ⟨length_pos_iff.mp ?_, ?_, fun _ => ?_, fun hq => ?_⟩
          · rw [nil_append, length_take]
            omega
          · rw [placed, hplace]
          · cases k with
            | string => exact absurd rfl hk
            | _ => rfl
          · simp [Token.isQuoted, placed, plainToken, hk] at hq
        simpa using tracks_closing hplace' htiles ht

theorem tracks_step_quoted {before body data : Bytes} {mark : UInt8} (hmark : isQuote mark = true)
    (hplace : sc.place = Place.after (before ++ mark :: body))
    (htiles : Tiles sc.tokens.toList before)
    (hmode : sc.mode = .quoted mark data (Place.after before)) (h : sc.step s = (sc', n, none)) :
    sc'.Tracks (before ++ mark :: body ++ s.take n) := by
  obtain ⟨hclosed, hunclosed, hbad⟩ := step_quoted hmode s
  have hdigit : Bytes.isDigit mark = false := by rcases isQuote_iff.mp hmark with rfl | rfl <;> rfl
  cases hscan : scanQuoted mark [] 0 s with
  | badEscape more => exact absurd (by rw [h]) (hbad more hscan)
  | unclosed more m =>
    cases (hunclosed more m hscan).symm.trans h
    exact tracks_holding hplace htiles (.quoted hmark (data ++ more) (body ++ s.take n))
  | closed more m =>
    cases (hclosed more m hscan).symm.trans h
    obtain ⟨inner, rest, rfl, hn, -⟩ := exists_of_scanQuoted_closed hdigit hscan
    have htake : (inner ++ mark :: rest).take n = inner ++ [mark] := by
      rw [hn, take_append, take_of_length_le (by omega)]
      simp
    rw [htake]
    refine tracks_closing hplace htiles ⟨by simp, rfl, nofun, fun _ => ?_⟩
    exact ⟨mark, body ++ inner, rfl, by simp⟩

theorem tracks_step_framed {f : Frame} (hf : f.Opened) {before opening text : Bytes}
    (hplace : sc.place = Place.after (before ++ (opening ++ text)))
    (htiles : Tiles sc.tokens.toList before) (hmode : sc.mode = f.mode text)
    (hheld : ∀ more, Held before (f.mode more) (opening ++ more))
    (htoken : ∀ more, Tile before (opening ++ more ++ f.close) (f.token more))
    (h : sc.step s = (sc', n, none)) : sc'.Tracks (before ++ (opening ++ text) ++ s.take n) := by
  obtain ⟨hfound, hnone⟩ := hf.step hmode s
  cases hcut : Bytes.cut f.close s with
  | none =>
    cases (hnone hcut).symm.trans h
    rw [take_length]
    refine tracks_holding hplace htiles ?_
    rw [append_assoc]
    exact hheld (text ++ s)
  | some p =>
    obtain ⟨more, rest⟩ := p
    cases (hfound more rest hcut).symm.trans h
    have hs := Bytes.eq_of_cut hcut
    have htake : s.take (more.length + f.close.length) = more ++ f.close := by
      rw [hs, ← List.length_append, take_left]
    rw [htake]
    refine tracks_closing hplace htiles ?_
    have ht := htoken (text ++ more)
    rwa [← append_assoc, append_assoc (opening ++ text)] at ht

theorem tracks_step {read : Bytes} (hs : sc.Tracks read) (h : sc.step s = (sc', n, none)) :
    sc'.Tracks (read ++ s.take n) := by
  obtain ⟨hplace, before, rest, rfl, htiles, hheld⟩ := hs
  generalize hmode : sc.mode = m at hheld
  cases hheld with
  | code =>
    rw [append_nil] at hplace ⊢
    exact tracks_step_code hplace htiles hmode h
  | quoted hmark data body => exact tracks_step_quoted hmark hplace htiles hmode h
  | comment text =>
    -- a comment has no opening of its own: its mark is part of the text that is held
    have hplace' : sc.place = Place.after (before ++ ([] ++ rest)) := hplace
    refine tracks_step_framed (.comment (Place.after before)) hplace' htiles hmode
      (fun more => .comment more) (fun more => ?_) h
    exact ⟨by simp [commentFrame, closingBracket], rfl, fun _ => rfl, fun h => by cases h⟩
  | long signs text =>
    refine tracks_step_framed (.long signs (Place.after before)) hplace htiles hmode
      (fun more => .long signs more) (fun more => ?_) h
    exact ⟨by simp [openingBracket], rfl, fun _ => code_longString signs more,
      fun h => by cases h⟩

end Step

theorem Tracks.reads {sc sc' : Scanner} {s read : Bytes} (hs : sc.Tracks read)
    (hr : Reads sc s sc') : sc'.Tracks (read ++ s) := by
  induction hr generalizing read with
  | done sc => rwa [append_nil]
  | @step sc sc₁ sc₂ s n h _ ih =>
    have hnext := ih (tracks_step hs h)
    rwa [append_assoc, take_append_drop] at hnext

theorem Tracks.chunks {sc sc' : Scanner} {pieces : List Bytes} {read : Bytes} (hs : sc.Tracks read)
    (h : sc.chunks pieces = (sc', none)) : sc'.Tracks (read ++ pieces.flatten) := by
  induction pieces generalizing sc read with
  | nil =>
    cases h
    simpa using hs
  | cons s rest ih =>
    rw [Scanner.chunks] at h
    split at h
    · next sc₁ hchunk =>
      have hread := hs.reads (chunk_eq_iff.mp hchunk)
      rw [flatten_cons, ← append_assoc]
      exact ih hread h
    · cases h

theorem tiles_of_feed {sc : Scanner} {pieces : List Bytes} (h : feed {} pieces = (sc, none)) :
    Tiles sc.tokens.toList pieces.flatten := by
  rw [feed, feedFrom] at h
  split at h
  · cases h
  · next sc₁ hchunks =>
    rw [Option.none_or, Prod.mk.injEq, unclosed_eq_none_iff] at h
    obtain ⟨rfl, hmode⟩ := h
    obtain ⟨-, before, rest, hread, htiles, hheld⟩ := tracks_fresh.chunks hchunks
    rw [hmode] at hheld
    cases hheld
    rw [nil_append, append_nil] at hread
    rwa [hread]

end Scanner

/-- **The tokens of source tile it, each at its exact place.**

Let source be read without failure, in any chunks.  Then there are offsets into the whole text, from
its start to its end and each before the next, such that the `i`-th token stands for the bytes between
the `i`-th offset and the next one.  Its line is the number of newlines before its offset, and its
column the number of bytes since the last of them.  Those bytes are its source text, unless it is a
string literal between quotes; such a literal begins and ends with its quote. -/
theorem feed_tiles {pieces : List Bytes} {sc : Scanner} (h : Scanner.feed {} pieces = (sc, none)) :
    ∃ o : Nat → Nat, o 0 = 0 ∧ o sc.tokens.size = pieces.flatten.length ∧
      (∀ i, i < sc.tokens.size → o i < o (i + 1)) ∧
      ∀ i t, sc.tokens[i]? = some t →
        t.place = some ⟨(pieces.flatten.take (o i)).count Bytes.newline,
          ((pieces.flatten.take (o i)).reverse.takeWhile (· != Bytes.newline)).length⟩ ∧
        (t.isQuoted = false → t.code = (pieces.flatten.take (o (i + 1))).drop (o i)) ∧
        (t.isQuoted = true → ∃ mark body, t.quote = .short [mark] ∧
          (pieces.flatten.take (o (i + 1))).drop (o i) = mark :: (body ++ [mark])) := by
  obtain ⟨o, hzero, hend, hlt, htile⟩ := (Scanner.tiles_of_feed h).exists_offsets
  refine ⟨o, hzero, hend, hlt, ?_⟩
  intro i t ht
  rw [← Array.getElem?_toList] at ht
  have h := htile i t ht
  exact ⟨h.place, h.code, h.quoted⟩

/-- A string, a comment, a long string and a numeral that chunks cut.  The first chunk ends behind a
backslash, which so escapes nothing. -/
def tilingSample : List Bytes :=
  ["a=\"x\\", "n\ny\" --[[ c", "\n]] b=[=[", "]]\n", "]=]", "12", "34"].map Bytes.ofText

theorem feed_tiles_sample :
    (Scanner.feed {} tilingSample).2 = none ∧
      (Scanner.feed {} tilingSample).1.tokens.toList.map Token.code =
        ["a", "=", "\"x\\\\n\\ny\"", " ", "--[[ c\n]]", " ", "b", "=", "[=[]]\n]=]", "12", "34"].map
          Bytes.ofText ∧
      ∃ o : Nat → Nat, o 0 = 0 ∧ o 11 = tilingSample.flatten.length ∧
        ∀ i t, (Scanner.feed {} tilingSample).1.tokens[i]? = some t → t.isQuoted = false →
          t.code = (tilingSample.flatten.take (o (i + 1))).drop (o i) := by
  have hnone : (Scanner.feed {} tilingSample).2 = none := by decide +kernel
  have hsize : (Scanner.feed {} tilingSample).1.tokens.size = 11 := by decide +kernel
  refine ⟨hnone, by decide +kernel, ?_⟩
  generalize hsc : Scanner.feed {} tilingSample = p at hnone hsize ⊢
  obtain ⟨sc, e⟩ := p
  obtain rfl : e = none := hnone
  obtain ⟨o, hzero, hend, -, htile⟩ := feed_tiles hsc
  rw [hsize] at hend
  exact ⟨o, hzero, hend, fun i t ht => (htile i t ht).2.1⟩

end Cartridge.Lua
