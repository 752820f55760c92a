import Cartridge.Proofs.Lua.Alignment
import Cartridge.Proofs.Lua.Covered
import Cartridge.Proofs.Lua.Pieces

/-!
# Programs that are laid out

When a program is laid out from its tree, only the gaps change.  No word runs into what is written behind
it: either that is the same up to a byte that no word runs into, or the source was cut off there.  Between
two words there are as many comments as before, and a line ends there if it did before.
-/

namespace Cartridge.Lua

open Pen Grammar List Gap

variable {gs hs us : List Token} {ls : List (Bytes × Token)}

variable {r s s' w x : Bytes} {t : Token} {ts : List Token}

/-! ### Comments between words -/

/-- For every word, the number of comments before it and behind the word before, and the number behind the
last word; to the first of these `n` is added. -/
def commentsFrom (n : Nat) : List Token → List Nat
  | [] => [n]
  | t :: ts =>
      match t.kind with
      | .comment => commentsFrom (n + 1) ts
      | .space | .newline => commentsFrom n ts
      | _ => n :: commentsFrom 0 ts

/-- The numbers of comments before the first word, between any two consecutive words, and behind the last
one. -/
def commentCounts (ts : List Token) : List Nat := commentsFrom 0 ts

theorem commentsFrom_cons_of_word (h : t.isGap = false) (n : Nat) (ts : List Token) :
    commentsFrom n (t :: ts) = n :: commentsFrom 0 ts := by
  rw [Token.isGap] at h
  rw [commentsFrom]
  cases hk : t.kind with
  | space | newline | comment =>
    rw [hk] at h
    cases h
  | general | string | number | name | label | keyword | symbol => rfl

theorem commentsFrom_append (h : ∀ t ∈ ts, t.isGap = true) (n : Nat) (us : List Token) :
    commentsFrom n (ts ++ us) = commentsFrom (n + ts.countP fun t => t.kind == .comment) us := by
  induction ts generalizing n with
  | nil => rfl
  | cons t ts ih =>
    have hrest := fun n => ih (fun u hu => h u (mem_cons_of_mem t hu)) n
    have ht := h t mem_cons_self
    rw [Token.isGap] at ht
    rw [cons_append, commentsFrom, countP_cons]
    cases hk : t.kind with
    | comment =>
      simp only [hrest]
      congr 1
      simp
      omega
    | space | newline => simp [hrest]
    | general | string | number | name | label | keyword | symbol =>
      rw [hk] at ht
      cases ht

theorem breaksFrom_append (h : ∀ t ∈ ts, t.isGap = true) (b : Bool) (us : List Token) :
    breaksFrom b (ts ++ us) = breaksFrom (b || ts.any fun t => t.kind == .newline) us := by
  induction ts generalizing b with
  | nil =>
    rw [any_nil, Bool.or_false]
    rfl
  | cons t ts ih =>
    have hrest := fun b => ih (fun u hu => h u (mem_cons_of_mem t hu)) b
    have ht := h t mem_cons_self
    rw [Token.isGap] at ht
    rw [cons_append, breaksFrom, any_cons]
    cases hk : t.kind with
    | newline => simp [hrest]
    | space | comment => exact hrest b
    | general | string | number | name | label | keyword | symbol =>
      rw [hk] at ht
      cases ht

theorem words_of_gaps (h : ∀ t ∈ ts, t.isGap = true) (us : List Token) : words (ts ++ us) = words us := by
  induction ts with
  | nil => rfl
  | cons t ts ih =>
    rw [cons_append, words_cons_of_gap (h t mem_cons_self),
      ih fun u hu => h u (mem_cons_of_mem t hu)]

structure SameWords (ts us : List Token) : Prop where
  words_eq : words ts = words us
  breaks_eq : breaksFrom false ts = breaksFrom false us
  comments_eq : commentCounts ts = commentCounts us

theorem SameWords.of_gaps (hg : ∀ t ∈ gs, t.isGap = true)
    (hh : ∀ t ∈ hs, t.isGap = true) (hword : t.isGap = false)
    (hcomments : gs.countP (fun t => t.kind == .comment) = hs.countP fun t => t.kind == .comment)
    (hbroken : gs.any (fun t => t.kind == .newline) = hs.any fun t => t.kind == .newline)
    (h : SameWords ts us) : SameWords (gs ++ t :: ts) (hs ++ t :: us) := by
  refine ⟨?_, ?_, ?_⟩
  · rw [words_of_gaps hg, words_of_gaps hh, words_cons_of_word hword, words_cons_of_word hword, h.words_eq]
  · rw [breaksFrom_append hg, breaksFrom_append hh, breaksFrom_cons_of_word hword,
      breaksFrom_cons_of_word hword, hbroken, h.breaks_eq]
  · rw [commentCounts, commentCounts, commentsFrom_append hg, commentsFrom_append hh,
      commentsFrom_cons_of_word hword, commentsFrom_cons_of_word hword, hcomments]
    exact congrArg _ h.comments_eq

theorem SameWords.of_ends (hg : ∀ t ∈ gs, t.isGap = true) (hh : ∀ t ∈ hs, t.isGap = true)
    (hcomments : gs.countP (fun t => t.kind == .comment) = hs.countP fun t => t.kind == .comment) :
    SameWords gs hs := by
  rw [← append_nil gs, ← append_nil hs]
  refine ⟨?_, ?_, ?_⟩
  · rw [words_of_gaps hg, words_of_gaps hh]
  · rw [breaksFrom_append hg, breaksFrom_append hh]
    rfl
  · rw [commentCounts, commentCounts, commentsFrom_append hg, commentsFrom_append hh, hcomments]

/-! ### What words run into -/

/-- Words run into `s'` no more than into `s`: the two are the same up to a place where `s'` ends or goes
on with a byte that no word runs into; at that place `s` does not go on with a dot. -/
def Meets (s s' : Bytes) : Prop :=
  ∃ x, (s = x ∨ ∃ c y, c ≠ 46 ∧ s = x ++ c :: y) ∧ (s' = x ∨ ∃ b y, isBarrier b = true ∧ s' = x ++ b :: y)

theorem Meets.refl (s : Bytes) : Meets s s := ⟨s, .inl rfl, .inl rfl⟩

theorem Meets.append (w : Bytes) (h : Meets s s') : Meets (w ++ s) (w ++ s') := by
  obtain ⟨x, hs, hs'⟩ := h
  refine ⟨w ++ x, ?_, ?_⟩
  · rcases hs with rfl | ⟨c, y, hc, rfl⟩
    · exact .inl rfl
    · exact .inr ⟨c, y, hc, (append_assoc _ _ _).symm⟩
  · rcases hs' with rfl | ⟨b, y, hb, rfl⟩
    · exact .inl rfl
    · exact .inr ⟨b, y, hb, (append_assoc _ _ _).symm⟩

theorem Meets.of_heads (hs : startsWith (· != 46) s = true) (hs' : startsWith isBarrier s' = true) :
    Meets (x ++ s) (x ++ s') := by
  cases s with
  | nil => cases hs
  | cons c y =>
    cases s' with
    | nil => cases hs'
    | cons b y' => exact ⟨x, .inr ⟨c, y, bne_iff_ne.mp hs, rfl⟩, .inr ⟨b, y', hs', rfl⟩⟩

theorem Meets.runsInto_eq (h : Meets s s') {k : TokenKind} (hk : k.isGap = false)
    (hruns : runsInto k w s = false) : runsInto k w s' = false := by
  obtain ⟨x, hs, hs'⟩ := h
  have hx : runsInto k w x = false := by
    rcases hs with rfl | ⟨c, y, hc, rfl⟩
    · exact hruns
    · exact runsInto_of_append hc hruns
  rcases hs' with rfl | ⟨b, y, hb, rfl⟩
  · exact hx
  · rw [runsInto_append_barrier hb hk]
    exact hx

/-! ### The source -/

def lexemes (ts : List Token) : List (Bytes × Token) := ts.map fun t => (t.code, t.unplaced)

theorem flatten_lexemes (ts : List Token) : ((lexemes ts).map Prod.fst).flatten = sourceText ts := by
  rw [lexemes, map_map, sourceText, flatMap_def]
  rfl

theorem snd_lexemes (ts : List Token) : (lexemes ts).map Prod.snd = ts.map Token.unplaced := by
  rw [lexemes, map_map]
  rfl

theorem lexemes_append (ts us : List Token) : lexemes (ts ++ us) = lexemes ts ++ lexemes us :=
  map_append

structure Sourced (toks : Array Token) : Prop where
  lexed : Lexed (sourceText toks.toList) (lexemes toks.toList)
  return_not_mem : ∀ t ∈ toks.toList, t.isGap = true → (13 : UInt8) ∉ t.code

namespace Sourced

variable {toks : Array Token} {i j : Nat} {τ : Tally}

theorem lexed_rest (h : Sourced toks) (i : Nat) :
    Lexed (sourceText (rest toks i)) (lexemes (rest toks i)) := by
  have hlexed := h.lexed
  rw [← take_append_drop i toks.toList, lexemes_append] at hlexed
  rw [← flatten_lexemes]
  exact hlexed.drop

theorem lexeme (h : Sourced toks) (ht : toks[i]? = some t) :
    Lexeme t.code t.unplaced ∧ runsInto t.kind t.code (sourceText (rest toks (i + 1))) = false := by
  have hlexed := h.lexed_rest i
  rw [rest_eq_cons ht, sourceText_cons, lexemes, map_cons] at hlexed
  generalize hs : t.code ++ sourceText (rest toks (i + 1)) = s at hlexed
  cases hlexed with
  | cons hw hruns hr =>
    rw [← append_cancel_left hs] at hruns
    exact ⟨hw, hruns⟩

theorem return_not_mem_between (h : Sourced toks) (hblank : Blank toks i j) :
    (13 : UInt8) ∉ sourceText (between toks i j) := by
  intro hmem
  obtain ⟨t, ht, hcode⟩ := mem_flatMap.mp hmem
  obtain ⟨n, -, -, hn⟩ := exists_of_mem_between ht
  exact h.return_not_mem t (Array.mem_toList_iff.mpr (Array.mem_of_getElem? hn)) (hblank.isGap t ht) hcode

theorem read_between (h : Sourced toks) (hblank : Blank toks i j)
    (hτ : τ.Ready (sourceText (rest toks i))) :
    (τ.read (sourceText (between toks i j))).Ready (sourceText (rest toks j)) ∧
      τ.Counts (τ.read (sourceText (between toks i j))) ((between toks i j).map Token.unplaced) := by
  have hlexed := h.lexed_rest i
  rw [rest_eq_append hblank.le, lexemes_append] at hlexed
  have hgap : ∀ l ∈ lexemes (between toks i j), l.2.isGap = true := by
    intro l hl
    obtain ⟨t, ht, rfl⟩ := mem_map.mp hl
    exact hblank.isGap t ht
  have hreturn : ∀ l ∈ lexemes (between toks i j), (13 : UInt8) ∉ l.1 := by
    intro l hl hmem
    obtain ⟨t, ht, rfl⟩ := mem_map.mp hl
    exact h.return_not_mem_between hblank (mem_flatMap.mpr ⟨t, ht, hmem⟩)
  rw [rest_eq_append hblank.le] at hτ
  obtain ⟨r, hr, -, hready, hcounts⟩ := Tally.read_of_lexed hlexed hgap hreturn hτ
  rw [flatten_lexemes] at hr hready hcounts
  rw [sourceText_append] at hr
  rw [append_cancel_left hr]
  rw [snd_lexemes] at hcounts
  exact ⟨hready, hcounts⟩

theorem exists_cons (h : Sourced toks) (hblank : Blank toks i j) (hlt : i < j) :
    ∃ c s, sourceText (between toks i j) = c :: s := by
  obtain ⟨t, ht, -⟩ := hblank.gap i (Nat.le_refl i) hlt
  rw [between_cons ht hlt, sourceText_cons]
  obtain ⟨c, s, hs⟩ := exists_cons_of_ne_nil (h.lexeme ht).1.ne_nil
  exact ⟨c, s ++ _, by rw [hs]; rfl⟩

end Sourced

/-! ### One gap -/

theorem isSpace_of_mem_indentation (width : Int) (d : Nat) : ∀ c ∈ indentation width d, isSpace c = true := by
  intro c hc
  rw [eq_of_mem_replicate hc]
  rfl

/-- The machine that reads gaps cannot tell two texts apart; at the end of the program it finds the same
comments. -/
structure SameGap (τ : Tally) (atEnd : Prop) (g g' : Bytes) : Prop where
  read_eq : ¬atEnd → τ.read g' = τ.read g
  done_eq : (τ.read g').phase.isDone = (τ.read g).phase.isDone
  comments_eq : (τ.read g').comments = (τ.read g).comments

theorem SameGap.refl (τ : Tally) (atEnd : Prop) (g : Bytes) : SameGap τ atEnd g g :=
  ⟨fun _ => rfl, rfl, rfl⟩

theorem SameGap.of_read_eq {τ : Tally} (atEnd : Prop) {g' : Bytes} (h : τ.read g' = τ.read g) :
    SameGap τ atEnd g g' :=
  ⟨fun _ => h, by rw [h], by rw [h]⟩

namespace Sourced

variable {toks : Array Token} {i j : Nat} {τ : Tally} (width : Int) (d : Nat)

theorem sameGap_of_outside (h : Sourced toks) (hblank : Blank toks i j) (hτ : τ.phase = .outside) :
    SameGap τ (j = toks.size) (sourceText (between toks i j)) (laidOut width toks i j d) := by
  have hreturn := h.return_not_mem_between hblank
  by_cases hend : j = toks.size
  · obtain ⟨hdone, hcomments⟩ := read_formatted_end (isSpace_of_mem_indentation width d) (decide (i = 0))
      hreturn hτ
    rw [laidOut, decide_eq_true hend]
    exact ⟨fun hnot => absurd hend hnot, hdone, hcomments⟩
  · rw [laidOut, decide_eq_false hend]
    exact .of_read_eq _ (read_formatted (isSpace_of_mem_indentation width d) (decide (i = 0)) hreturn hτ)

theorem sameGap (h : Sourced toks) (hblank : Blank toks i j) (hτ : τ.Ready (sourceText (rest toks i)))
    (hstart : i = 0 → τ.phase = .outside) :
    SameGap τ (j = toks.size) (sourceText (between toks i j)) (laidOut width toks i j d) := by
  rcases hτ.free with hout | hline
  · exact h.sameGap_of_outside width d hblank hout
  by_cases hi : i = 0
  · exact h.sameGap_of_outside width d hblank (hstart hi)
  rcases Nat.eq_or_lt_of_le hblank.le with rfl | hlt
  · rw [thrifty_laidOut, between_self]
    exact .refl _ _ _
  -- a comment is open, which the newline ends in both
  obtain ⟨c, s, hs⟩ := h.exists_cons hblank hlt
  obtain rfl : c = 10 := by
    rw [rest_eq_append hblank.le, sourceText_append, hs, cons_append, startsWith_cons] at hline
    exact bne_eq_false_iff_eq.mp hline
  have hreturn := h.return_not_mem_between hblank
  have hlaid : ∃ s', laidOut width toks i j d = 10 :: s' := by
    rw [laidOut, decide_eq_false hi, hs]
    exact formatted_newline _ _ (hs ▸ hreturn)
  obtain ⟨s', hs'⟩ := hlaid
  have hsame := h.sameGap_of_outside (τ := { τ with phase := .outside }) width d hblank rfl
  rw [hs, hs'] at hsame ⊢
  refine ⟨fun hend => ?_, ?_, ?_⟩
  · rw [Tally.read_newline hτ.done, Tally.read_newline hτ.done]
    exact hsame.read_eq hend
  · rw [Tally.read_newline hτ.done, Tally.read_newline hτ.done]
    exact hsame.done_eq
  · rw [Tally.read_newline hτ.done, Tally.read_newline hτ.done]
    exact hsame.comments_eq

end Sourced

/-! ### Gaps between words -/

theorem Grammar.Blank.le_size {i j : Nat} (h : Blank toks i j) (hi : i ≤ toks.size) : j ≤ toks.size := by
  rcases Nat.eq_or_lt_of_le h.le with rfl | hlt
  · exact hi
  · obtain ⟨t, ht, -⟩ := h.gap (j - 1) (by omega) (by omega)
    have hsize := (Array.getElem?_eq_some_iff.mp ht).1
    omega

namespace Pen.Laid

variable {toks : Array Token} {i j : Nat} {width : Int} {s : Bytes} {τ : Tally}

theorem eq_nil (h : Laid width toks i s) (hi : toks.size ≤ i) : s = [] := by
  induction h with
  | done h => rfl
  | @gap i j s d hblank hrest ih =>
    rcases Nat.eq_or_lt_of_le hblank.le with rfl | hlt
    · rw [thrifty_laidOut, ih hi]
      rfl
    · obtain ⟨t, ht, -⟩ := hblank.gap i (Nat.le_refl i) hlt
      have hsize := (Array.getElem?_eq_some_iff.mp ht).1
      omega
  | word ht hword hrest ih =>
    have hsize := (Array.getElem?_eq_some_iff.mp ht).1
    omega

/-- What is laid out from `m` on has no gap in front: it is empty, or it starts with a word. -/
inductive Wordy (width : Int) (toks : Array Token) (m : Nat) : Bytes → Prop
  | done (h : m = toks.size) : Wordy width toks m []
  | word {t : Token} {s : Bytes} (ht : toks[m]? = some t) (hword : t.isGap = false)
      (hrest : Laid width toks (m + 1) s) : Wordy width toks m (t.code ++ s)

structure Splits (width : Int) (toks : Array Token) (i m : Nat) (g r : Bytes) : Prop where
  blank : Blank toks i m
  same : ∀ τ : Tally, τ.Ready (sourceText (rest toks i)) → (i = 0 → τ.phase = .outside) →
    SameGap τ (m = toks.size) (sourceText (between toks i m)) g
  wordy : Wordy width toks m r

theorem splits (h : Laid width toks i s) (htoks : Sourced toks) (hi : i ≤ toks.size) :
    ∃ m g r, s = g ++ r ∧ Splits width toks i m g r := by
  induction h with
  | @done i hsize =>
    refine ⟨i, [], [], rfl, .refl toks i, fun τ _ _ => ?_, .done (Nat.le_antisymm hi hsize)⟩
    rw [between_self]
    exact .refl _ _ _
  | @word i t s ht hword hrest ih =>
    refine ⟨i, [], t.code ++ s, rfl, .refl toks i, fun τ _ _ => ?_, .word ht hword hrest⟩
    rw [between_self]
    exact .refl _ _ _
  | @gap i j s d hblank hrest ih =>
    have hj : j ≤ toks.size := hblank.le_size hi
    by_cases hend : j = toks.size
    · -- nothing is written behind the last gap
      obtain rfl := hrest.eq_nil (Nat.le_of_eq hend.symm)
      exact ⟨j, _, [], rfl, hblank, fun τ hτ hstart => htoks.sameGap width d hblank hτ hstart, .done hend⟩
    · obtain ⟨m, g, r, rfl, hsplits⟩ := ih hj
      refine ⟨m, laidOut width toks i j d ++ g, r, (append_assoc _ _ _).symm, hblank.trans hsplits.blank,
        fun τ hτ hstart => ?_, hsplits.wordy⟩
      have hfirst := (htoks.sameGap width d hblank hτ hstart).read_eq hend
      have hlater := hsplits.same _ (htoks.read_between hblank hτ).1 ?_
      · rw [← between_append hblank.le hsplits.blank.le, sourceText_append]
        refine ⟨fun hm => ?_, ?_, ?_⟩
        · rw [Tally.read_append, Tally.read_append, hfirst]
          exact hlater.read_eq hm
        · rw [Tally.read_append, Tally.read_append, hfirst]
          exact hlater.done_eq
        · rw [Tally.read_append, Tally.read_append, hfirst]
          exact hlater.comments_eq
      · rintro rfl
        obtain rfl : i = 0 := Nat.le_zero.mp hblank.le
        rw [between_self]
        exact hstart rfl

end Pen.Laid

/-! ### Words in front of gaps -/

theorem Lexeme.gap_start (h : Lexeme w t) (hgap : t.isGap = true) (hreturn : (13 : UInt8) ∉ w) :
    (startsWith (fun c => isSpace c || c == 10) w = true ∨ [45, 45] <+: w) ∨
      t.kind = .comment ∧ ∃ x, w = 47 :: 47 :: x ∧ (10 : UInt8) ∉ x := by
  have hne := h.ne_nil
  cases h with
  | bracket hsigns hcut => cases hgap
  | quoted hmark hscan => cases hgap
  | @comment x hcut => exact .inl (.inr ⟨_, rfl⟩)
  | @plain k w hlong hbracket hquote hfirst =>
    have htext := isText_of_firstMatch hfirst
    obtain ⟨c, v, rfl⟩ := exists_cons_of_ne_nil hne
    cases k with
    | space =>
      have hc := htext c mem_cons_self
      rw [startsWith_cons, hc]
      exact .inl (.inl rfl)
    | newline =>
      rcases htext with heq | heq | heq
      · rw [heq]
        exact .inl (.inl rfl)
      · exact absurd (heq ▸ mem_cons_self) hreturn
      · exact absurd (heq ▸ mem_cons_self) hreturn
    | comment =>
      obtain ⟨hline, hmarks⟩ := htext
      rcases hmarks with hdashes | ⟨x, hx⟩
      · exact .inl (.inr hdashes)
      · refine .inr ⟨rfl, x, hx.symm, fun hmem => hline ?_⟩
        rw [← hx]
        exact mem_append_right _ hmem
    | general | string | number | name | label | keyword | symbol => cases hgap

theorem startsWith_of_runsInto_slash (h : runsInto .comment (47 :: x) r = false) :
    startsWith (· != Bytes.newline) r = false := by
  have hshort : (Bytes.ofText "--[[").isPrefixOf (47 :: x) = false := rfl
  rw [runsInto, hshort] at h
  exact h

theorem startsWith_isBarrier (h : startsWith isBlank s = true) (r : Bytes) :
    startsWith isBarrier (s ++ r) = true := by
  cases s with
  | nil => cases h
  | cons c s =>
    rw [startsWith_cons, isBlank, Bool.or_eq_true, beq_iff_eq, beq_iff_eq] at h
    rw [cons_append, startsWith_cons]
    rcases h with rfl | rfl <;> decide

theorem startsWith_ne_dot (h : startsWith (fun c => isSpace c || c == 10) s = true) (r : Bytes) :
    startsWith (· != 46) (s ++ r) = true := by
  cases s with
  | nil => cases h
  | cons c s =>
    rw [startsWith_cons] at h
    rw [cons_append, startsWith_cons, bne_iff_ne]
    rintro rfl
    cases h

section Starts

variable (indent : Bytes) (atEnd : Bool)

theorem meets_formatted (hreturn : (13 : UInt8) ∉ g)
    (h : startsWith (fun c => isSpace c || c == 10) g = true ∨ [45, 45] <+: g) (r s : Bytes) :
    Meets (g ++ r) (formatted indent false atEnd g ++ s) := by
  refine Meets.of_heads (x := []) ?_ (startsWith_isBarrier (startsWith_formatted hreturn h) s)
  rcases h with h | ⟨v, rfl⟩
  · exact startsWith_ne_dot h r
  · rfl

theorem meets_formatted_slash {y : Bytes} (hline : (10 : UInt8) ∉ x)
    (hreturn : (13 : UInt8) ∉ 47 :: 47 :: x ++ y) (hy : startsWith (· != Bytes.newline) (y ++ r) = false)
    (hlater : Meets r s) :
    Meets (47 :: 47 :: x ++ y ++ r) (formatted indent false atEnd (47 :: 47 :: x ++ y) ++ s) := by
  obtain ⟨v, z, rfl, hv, hz⟩ := Tally.exists_run (fun c => !isSpace c) x
  have hfree : ∀ c ∈ 47 :: 47 :: v, isSpace c = false ∧ c ≠ 10 := by
    intro c hc
    rcases mem_cons.mp hc with rfl | hc
    · decide
    rcases mem_cons.mp hc with rfl | hc
    · decide
    refine ⟨by simpa using hv c hc, ?_⟩
    rintro rfl
    exact hline (mem_append_left z hc)
  have hsource : 47 :: 47 :: (v ++ z) ++ y = 47 :: (47 :: v) ++ (z ++ y) := by simp
  rw [hsource] at hreturn ⊢
  obtain ⟨s', hs', hnil, hblank⟩ := formatted_slash hfree indent atEnd hreturn
  have hleft : 47 :: (47 :: v) ++ (z ++ y) ++ r = 47 :: 47 :: v ++ ((z ++ y) ++ r) := append_assoc _ _ _
  have hright : 47 :: (47 :: v) ++ s' ++ s = 47 :: 47 :: v ++ (s' ++ s) := append_assoc _ _ _
  rw [hs', hleft, hright]
  refine .append _ ?_
  by_cases hempty : z ++ y = []
  · rw [hnil hempty, hempty]
    exact hlater
  · have hstart : startsWith (fun c => isSpace c || c == 10) (z ++ y) = true := by
      cases z with
      | cons c z =>
        rw [startsWith_cons, Bool.not_eq_false'] at hz
        rw [cons_append, startsWith_cons, hz]
        rfl
      | nil =>
        cases y with
        | nil => exact absurd rfl hempty
        | cons c y =>
          obtain rfl : c = 10 := bne_eq_false_iff_eq.mp hy
          rfl
    exact .of_heads (x := []) (startsWith_ne_dot hstart r) (startsWith_isBarrier (hblank hstart) s)

end Starts

namespace Pen.Laid

variable {toks : Array Token} {i j : Nat} {width : Int} {s : Bytes}

theorem meets_gap (htoks : Sourced toks) (hblank : Blank toks i j) (hlt : i < j) (hi : i ≠ 0) (d : Nat)
    (hlater : Meets (sourceText (rest toks j)) s) :
    Meets (sourceText (rest toks i)) (laidOut width toks i j d ++ s) := by
  obtain ⟨t, ht, hgap⟩ := hblank.gap i (Nat.le_refl i) hlt
  obtain ⟨hw, hruns⟩ := htoks.lexeme ht
  have hreturn := htoks.return_not_mem_between hblank
  have hrest : Blank toks (i + 1) j := hblank.of_le (Nat.le_succ i) hlt
  have hsource : sourceText (between toks i j) = t.code ++ sourceText (between toks (i + 1) j) := by
    rw [between_cons ht hlt, sourceText_cons]
  have hreturn' : (13 : UInt8) ∉ t.code := fun hmem => hreturn (hsource ▸ mem_append_left _ hmem)
  rw [rest_eq_append hblank.le, sourceText_append, laidOut, decide_eq_false hi]
  rcases hw.gap_start hgap hreturn' with hstart | ⟨hkind, x, hx, hline⟩
  · refine meets_formatted _ _ hreturn ?_ _ _
    rw [hsource]
    rcases hstart with hstart | ⟨v, hv⟩
    · exact .inl (startsWith_append hstart _)
    · exact .inr ⟨v ++ _, by rw [← hv, append_assoc]⟩
  · rw [hsource, hx] at hreturn ⊢
    refine meets_formatted_slash _ _ hline hreturn ?_ hlater
    rw [← sourceText_append, ← rest_eq_append hrest.le]
    rw [hx, show t.kind = .comment from hkind] at hruns
    exact startsWith_of_runsInto_slash hruns

theorem meets (h : Laid width toks i s) (htoks : Sourced toks) (hi : i ≠ 0) :
    Meets (sourceText (rest toks i)) s := by
  induction h with
  | @done i hsize =>
    rw [rest_eq_nil hsize]
    exact .refl []
  | @word i t s ht hword hrest ih =>
    rw [rest_eq_cons ht, sourceText_cons]
    exact .append _ (ih (Nat.succ_ne_zero i))
  | @gap i j s d hblank hrest ih =>
    rcases Nat.eq_or_lt_of_le hblank.le with rfl | hlt
    · rw [thrifty_laidOut]
      exact ih hi
    · exact meets_gap htoks hblank hlt hi d (ih (by omega))

end Pen.Laid

/-! ### Reading what was laid out -/

theorem startsWith_word (hw : Lexeme w t) (hword : t.isGap = false) :
    startsWith isSpace (w ++ r) = false ∧ startsWith (· != Bytes.newline) (w ++ r) = true := by
  obtain ⟨c, v, rfl⟩ := exists_cons_of_ne_nil hw.ne_nil
  rw [cons_append, startsWith_cons, startsWith_cons, bne_iff_ne]
  refine ⟨Bool.eq_false_iff.mpr fun hc => ?_, ?_⟩
  · rw [hw.isGap_of_blank (.inl hc)] at hword
    cases hword
  · rintro rfl
    rw [hw.isGap_of_blank (.inr (.inl rfl))] at hword
    cases hword

namespace Pen.Laid

variable {toks : Array Token} {i m : Nat} {width : Int} {s g r : Bytes}

theorem Splits.exists_lexed (h : Splits width toks i m g r) (htoks : Sourced toks) {lr : List (Bytes × Token)}
    (hr : Lexed r lr) :
    ∃ lg, Lexed (g ++ r) (lg ++ lr) ∧ (∀ t ∈ lg.map Prod.snd, t.isGap = true) ∧
      (lg.map Prod.snd).countP (fun t => t.kind == .comment) =
        ((between toks i m).map Token.unplaced).countP (fun t => t.kind == .comment) ∧
      (m ≠ toks.size → (lg.map Prod.snd).any (fun t => t.kind == .newline) =
        ((between toks i m).map Token.unplaced).any fun t => t.kind == .newline) := by
  obtain ⟨hready, hsource⟩ := htoks.read_between (τ := {}) h.blank (.of_outside rfl _)
  have hsame := h.same {} (.of_outside rfl _) fun _ => rfl
  have hends : (Tally.read {} g).phase = .outside ∧ startsWith isSpace r = false ∨ r = [] := by
    cases h.wordy with
    | done hm => exact .inr rfl
    | @word t s ht hword hrest =>
      have hlt := (Array.getElem?_eq_some_iff.mp ht).1
      have hw := (htoks.lexeme ht).1
      rw [rest_eq_cons ht, sourceText_cons] at hready
      rw [hsame.read_eq (Nat.ne_of_lt hlt)]
      exact .inl ⟨hready.phase_eq (startsWith_word hw hword).2, (startsWith_word hw hword).1⟩
  obtain ⟨lg, hlexed, hgap, hcounts⟩ :=
    Tally.exists_lexed_of_read hr ⟨rfl, hsame.done_eq.trans hready.done, hends⟩
  refine ⟨lg, hlexed, ?_, ?_, fun hm => ?_⟩
  · intro t ht
    obtain ⟨l, hl, rfl⟩ := mem_map.mp ht
    exact hgap l hl
  · have hcomments := hsame.comments_eq
    rw [hcounts.comments, hsource.comments] at hcomments
    exact Nat.add_left_cancel hcomments
  · have hbroken := congrArg Tally.broken (hsame.read_eq hm)
    rw [hcounts.broken, hsource.broken] at hbroken
    exact hbroken

theorem exists_lexed (h : Laid width toks i s) (htoks : Sourced toks) (hi : i ≤ toks.size) :
    ∃ ls, Lexed s ls ∧ SameWords (ls.map Prod.snd) ((rest toks i).map Token.unplaced) := by
  induction hn : toks.size - i using Nat.strongRecOn generalizing i s with
  | _ n ih =>
    obtain ⟨m, g, r, rfl, hsplits⟩ := h.splits htoks hi
    have hgaps : ∀ t ∈ (between toks i m).map Token.unplaced, t.isGap = true := by
      intro t ht
      obtain ⟨u, hu, rfl⟩ := mem_map.mp ht
      exact hsplits.blank.isGap u hu
    rw [rest_eq_append hsplits.blank.le, map_append]
    cases hsplits.wordy with
    | done hm =>
      obtain ⟨lg, hlexed, hgap, hcomments, -⟩ := hsplits.exists_lexed htoks .nil
      rw [append_nil lg] at hlexed
      rw [rest_eq_nil (Nat.le_of_eq hm.symm), map_nil, append_nil (map _ _)]
      exact ⟨lg, hlexed, .of_ends hgap hgaps hcomments⟩
    | @word t s ht hword hrest =>
      have hlt := (Array.getElem?_eq_some_iff.mp ht).1
      have hle := hsplits.blank.le
      obtain ⟨ls, hls, hsame⟩ := ih (toks.size - (m + 1)) (by omega) hrest hlt rfl
      obtain ⟨hw, hruns⟩ := htoks.lexeme ht
      have hmeets := hrest.meets htoks (Nat.succ_ne_zero m)
      have hfront : Lexed (t.code ++ s) ((t.code, t.unplaced) :: ls) :=
        .cons hw (hmeets.runsInto_eq (by exact hword) hruns) hls
      obtain ⟨lg, hlexed, hgap, hcomments, hbroken⟩ := hsplits.exists_lexed htoks hfront
      refine ⟨_, hlexed, ?_⟩
      rw [map_append, map_cons, rest_eq_cons ht, map_cons]
      exact .of_gaps hgap hgaps hword hcomments (hbroken (Nat.ne_of_lt hlt)) hsame

end Pen.Laid

/-! ### Formatting a program -/

theorem commentsFrom_map_unplaced (n : Nat) (ts : List Token) :
    commentsFrom n (ts.map Token.unplaced) = commentsFrom n ts := by
  induction ts generalizing n with
  | nil => rfl
  | cons t ts ih =>
    rw [map_cons, commentsFrom, commentsFrom, ih, ih, ih]
    rfl

theorem SameWords.of_unplaced (h : SameWords (ts.map Token.unplaced) (us.map Token.unplaced)) :
    SameWords ts us := by
  obtain ⟨hwords, hbreaks, hcomments⟩ := h
  rw [Stream.words_map_unplaced, Stream.words_map_unplaced] at hwords
  rw [Stream.breaksFrom_map_unplaced, Stream.breaksFrom_map_unplaced] at hbreaks
  rw [commentCounts, commentCounts, commentsFrom_map_unplaced, commentsFrom_map_unplaced] at hcomments
  exact ⟨hwords, hbreaks, hcomments⟩

theorem Lexed.lexeme_of_mem (h : Lexed s ls) (hl : (w, t) ∈ ls) : Lexeme w t := by
  induction h with
  | nil => cases hl
  | cons hw hruns hr ih =>
    rcases mem_cons.mp hl with heq | hl
    · cases heq
      exact hw
    · exact ih hl

theorem Token.isQuoted_of_isGap (h : t.isGap = true) : t.isQuoted = false := by
  rw [Token.isGap] at h
  have hkind : t.kind ≠ .string := by
    intro hk
    rw [hk] at h
    cases h
  rw [Token.isQuoted, beq_eq_false_iff_ne.mpr hkind]
  rfl

theorem sourced_of_lexed (h : Lexed s ls)
    (htoks : toks.toList.map Token.unplaced = ls.map Prod.snd) (hreturn : (13 : UInt8) ∉ s) :
    Sourced toks := by
  have hechoed : echoed ls = lexemes toks.toList := by
    have hpairs := congrArg (map fun t : Token => (t.code, t)) htoks
    rw [map_map, map_map] at hpairs
    exact hpairs.symm
  refine ⟨?_, fun t ht hgap hmem => hreturn ?_⟩
  · have hlexed := h.echoed
    rw [hechoed, flatten_lexemes] at hlexed
    exact hlexed
  · -- the text of a gap is a piece of the source
    have hsnd : t.unplaced ∈ ls.map Prod.snd := htoks ▸ mem_map_of_mem ht
    obtain ⟨⟨w, u⟩, hl, hu⟩ := mem_map.mp hsnd
    obtain rfl : u = t.unplaced := hu
    have hcode : t.code = w := (h.lexeme_of_mem hl).code_eq (Token.isQuoted_of_isGap hgap)
    rw [h.text_eq]
    exact mem_flatten.mpr ⟨w, mem_map_of_mem hl, hcode ▸ hmem⟩

/-- **Formatting changes only layout.**

Let a program without returns be written from its tree as it is written from its tokens.  Then it can be
laid out with any number of spaces for each level, and the text, in any pieces, is read without failure: it
has the same words, as many comments between them, and a newline between two consecutive words exactly if
the program has one there. -/
theorem Program.feed_write_format {v : Int} {pieces : List Bytes} (hcut : LineCut pieces) {p : Program}
    (hp : Program.ofLines v pieces = .ok p) (hreturn : (13 : UInt8) ∉ pieces.flatten)
    (hfailure : (p.write (.tree {})).failure = none)
    (hecho : (p.write (.tree {})).lines.flatten = (p.write .echo).lines.flatten) (width : Int) :
    (p.write (.tree { style := .format (some width) })).failure = none ∧
      ∀ pieces' : List Bytes, LineCut pieces' →
        pieces'.flatten = (p.write (.tree { style := .format (some width) })).lines.flatten →
        ∃ sc, Scanner.feed {} pieces' = (sc, none) ∧
          words sc.tokens.toList = words p.tokens.toList ∧
          commentCounts sc.tokens.toList = commentCounts p.tokens.toList ∧
          lineBreaks sc.tokens.toList = lineBreaks p.tokens.toList := by
  obtain ⟨ls, root, hls, hroot, rfl⟩ := (Program.ofLines_eq_ok_iff hcut).mp hp
  have htoks := Scanner.unplaced_fresh hls
  have hsourced := sourced_of_lexed hls htoks hreturn
  obtain ⟨stop, hderived⟩ := Tree.derived_of_ofTokens hroot
  have hcodes : ∀ t ∈ (Scanner.passedAll {} ls).tokens.toList, t.code ≠ [] := by
    intro t ht
    obtain ⟨w, hw⟩ := hls.exists_lexeme (t := t.unplaced) (htoks ▸ List.mem_map_of_mem ht)
    exact hw.code.ne_nil
  have hsource : (root.write {} (Scanner.passedAll {} ls).tokens).lines.flatten =
      sourceText (Scanner.passedAll {} ls).tokens.toList :=
    hecho.trans (flatten_echo _)
  obtain ⟨hdone, hlaid⟩ := Tree.laid_of_write (regular_of_lexed hls htoks) hcodes hderived hfailure hsource width
  refine ⟨hdone, fun pieces' hcut' htext => ?_⟩
  obtain ⟨ls', hls', hsame⟩ := hlaid.exists_lexed hsourced (Nat.zero_le _)
  rw [← Scanner.unplaced_fresh hls'] at hsame
  have hsame' := hsame.of_unplaced
  refine ⟨_, (Scanner.feed_eq_iff hcut' rfl).mpr ⟨ls', htext ▸ hls', rfl⟩, hsame'.words_eq, hsame'.comments_eq,
    ?_⟩
  exact congrArg List.tail hsame'.breaks_eq

def formatSample : List Bytes :=
  ["x=1--[[ a ]]+2// b\n", "while x do\n", "-- c\n", "\t y = 2 --d\n", "end\n", "\n"].map Bytes.ofText

def formattedSample : Bytes :=
  Bytes.ofText "x=1  --[[ a ]]+2// b\nwhile x do\n  -- c\n  y = 2  --d\nend\n"

theorem Program.feed_write_format_sample : ∃ p, Program.ofLines 8 formatSample = .ok p ∧
    (13 : UInt8) ∉ formatSample.flatten ∧ (p.write (.tree {})).failure = none ∧
    (p.write (.tree {})).lines.flatten = (p.write .echo).lines.flatten ∧
    (p.write (.tree { style := .format (some 2) })).failure = none ∧
    (p.write (.tree { style := .format (some 2) })).lines.flatten = formattedSample ∧
    ∃ sc, Scanner.feed {} [formattedSample] = (sc, none) ∧
      words sc.tokens.toList = words p.tokens.toList ∧
      commentCounts sc.tokens.toList = commentCounts p.tokens.toList ∧
      lineBreaks sc.tokens.toList = lineBreaks p.tokens.toList := by
  have hcut : LineCut formatSample := by unfold LineCut; decide
  have hreturn : (13 : UInt8) ∉ formatSample.flatten := by decide +kernel
  have hsample : (Program.ofLines 8 formatSample).toOption.map (fun p =>
      ((p.write (.tree {})).failure, (p.write (.tree {})).lines.flatten,
        (p.write .echo).lines.flatten, (p.write (.tree { style := .format (some 2) })).lines.flatten)) =
      some (none, formatSample.flatten, formatSample.flatten, formattedSample) := by
    decide +kernel
  cases h : Program.ofLines 8 formatSample with
  | error e =>
    rw [h] at hsample
    cases hsample
  | ok p =>
    rw [h] at hsample
    have hall := Option.some.inj hsample
    simp only [Prod.mk.injEq] at hall
    obtain ⟨hfailure, htree, htokens, htext⟩ := hall
    have hecho := htree.trans htokens.symm
    obtain ⟨hdone, hread⟩ := Program.feed_write_format hcut h hreturn hfailure hecho 2
    refine ⟨p, rfl, hreturn, hfailure, hecho, hdone, htext, hread [formattedSample] ?_ ?_⟩
    · exact fun p hp => absurd hp List.not_mem_nil
    · rw [htext, List.flatten_singleton]

end Cartridge.Lua
