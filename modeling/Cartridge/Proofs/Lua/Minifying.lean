import Cartridge.Lua.Program
import Cartridge.Proofs.Lua.Joining
import Cartridge.Proofs.Lua.ShortNames

/-!
# Minified programs

A minified program has the words of the program, with short names, and a newline between two of them
where the program has one.  It has no comments and no spaces but between names, reserved words and
numerals.  Nothing is put between a symbol and the word behind it, nor between a numeral and a symbol;
so two words that were apart may run together, and then the text has other words.
-/

namespace Cartridge.Lua

variable {ls : List (Bytes × Token)} {s : Bytes} {t : Token} {ts : List Token}

/-! ### Words and lines -/

/-- For every word, whether a newline stands before it and behind the word before; for the first one
the flag tells. -/
def breaksFrom (broken : Bool) : List Token → List Bool
  | [] => []
  | t :: ts =>
      match t.kind with
      | .newline => breaksFrom true ts
      | .space | .comment => breaksFrom broken ts
      | _ => broken :: breaksFrom false ts

def lineBreaks (ts : List Token) : List Bool := (breaksFrom false ts).tail

def ShortName.Table.shorten (names : ShortName.Table) :
    List (TokenKind × Bytes) → List (TokenKind × Bytes)
  | [] => []
  | (k, x) :: ws =>
      if k = .name then (k, (names.lookup x).1) :: shorten (names.lookup x).2 ws
      else (k, x) :: shorten names ws

theorem breaksFrom_cons_of_word (h : t.isGap = false) (b : Bool) (ts : List Token) :
    breaksFrom b (t :: ts) = b :: breaksFrom false ts := by
  rw [Token.isGap] at h
  rw [breaksFrom]
  cases hk : t.kind with
  | space | newline | comment =>
    rw [hk] at h
    cases h
  | general | string | number | name | label | keyword | symbol => rfl

theorem tail_breaksFrom (b b' : Bool) (ts : List Token) :
    (breaksFrom b ts).tail = (breaksFrom b' ts).tail := by
  induction ts with
  | nil => rfl
  | cons t ts ih =>
    rw [breaksFrom, breaksFrom]
    cases t.kind with
    | newline => rfl
    | space | comment => exact ih
    | general | string | number | name | label | keyword | symbol => rfl

theorem words_append (ts ts' : List Token) : words (ts ++ ts') = words ts ++ words ts' := by
  simp [words]

theorem written_append (ts ts' : List Token) : written (ts ++ ts') = written ts ++ written ts' := by
  simp [written]

/-! ### The tokens of a minified program -/

namespace Stream

def pressedWord (needsSpace : Bool) (t : Token) : List Token :=
  if needsSpace then [spaceToken, t] else [t]

def pressedToken (s : MinifyState) (t : Token) : List Token :=
  match t.kind with
  | .comment | .space => []
  | .newline => if s.afterNewline then [] else [newlineToken]
  | .name => pressedWord s.needsSpace (plainToken .name (s.names.lookup t.code).1)
  | .keyword | .number => pressedWord s.needsSpace t.unplaced
  | _ => [t.unplaced]

def pressedFrom (s : MinifyState) : List Token → List Token
  | [] => []
  | t :: ts => pressedToken s t ++ pressedFrom (minifyToken s t).2 ts

def pressed (ts : List Token) : List Token := pressedFrom {} ts

theorem written_pressedWord (needsSpace : Bool) (t : Token) :
    written (pressedWord needsSpace t) = (wordPieces needsSpace t.code).flatten := by
  cases needsSpace <;> simp [pressedWord, wordPieces, written] <;> rfl

theorem written_pressedToken (s : MinifyState) (t : Token) :
    written (pressedToken s t) = (minifyToken s t).1.flatten := by
  rw [pressedToken, minifyToken]
  cases t.kind with
  | comment | space => rfl
  | newline => cases s.afterNewline <;> rfl
  | name => exact written_pressedWord _ _
  | keyword | number => exact written_pressedWord _ _
  | general | string | label | symbol => rfl

theorem written_pressed (ts : List Token) : written (pressed ts) = (minify ts).lines.flatten := by
  have hall : ∀ (ts : List Token) (s : MinifyState),
      written (pressedFrom s ts) = (minifyFrom s ts).1.flatten := by
    intro ts
    induction ts with
    | nil => intro s; rfl
    | cons t ts ih =>
      intro s
      rw [pressedFrom, minifyFrom, written_append, written_pressedToken, ih]
      exact List.flatten_append.symm
  exact hall ts {}

inductive Pressing (s : MinifyState) (t : Token) : List Token → MinifyState → Prop
  | gap (hk : t.kind = .space ∨ t.kind = .comment) : Pressing s t [] s
  | newline (hk : t.kind = .newline) :
      Pressing s t (if s.afterNewline then [] else [newlineToken])
        { s with needsSpace := false, afterNewline := true }
  | name (hk : t.kind = .name) :
      Pressing s t (pressedWord s.needsSpace (plainToken .name (s.names.lookup t.data).1))
        { needsSpace := true, afterNewline := false, names := (s.names.lookup t.data).2 }
  | word (hk : t.kind = .keyword ∨ t.kind = .number) :
      Pressing s t (pressedWord s.needsSpace t.unplaced)
        { s with needsSpace := true, afterNewline := false }
  | sign (ht : t.isGap = false) (hk : t.kind.isSpaced = false) (b : Bool) :
      Pressing s t [t.unplaced] { s with needsSpace := b, afterNewline := false }

theorem pressing (s : MinifyState) (t : Token) :
    Pressing s t (pressedToken s t) (minifyToken s t).2 := by
  have hsign : t.isGap = false → t.kind.isSpaced = false →
      Pressing s t [t.unplaced]
        { s with needsSpace := Bytes.holds t.code (Bytes.ofText "])\x7d"), afterNewline := false } :=
    fun ht hk => .sign ht hk _
  rw [Token.isGap] at hsign
  rw [pressedToken, minifyToken]
  cases hk : t.kind with
  | comment => exact .gap (.inr hk)
  | space => exact .gap (.inl hk)
  | newline => exact .newline hk
  | name =>
    have hcode : t.code = t.data := Token.code_of_ne_string (by rw [hk]; decide)
    rw [hcode]
    exact .name hk
  | keyword => exact .word (.inl hk)
  | number => exact .word (.inr hk)
  | general | string | label | symbol =>
    rw [hk] at hsign
    exact hsign rfl rfl

/-! ### Its words and lines -/

theorem isGap_of_kind {k : TokenKind} (h : t.kind = k) : t.isGap = k.isGap := by
  rw [Token.isGap, h]

theorem words_pressedWord (needsSpace : Bool) (h : t.isGap = false) :
    words (pressedWord needsSpace t) = [(t.kind, t.data)] := by
  have hone : words [t] = [(t.kind, t.data)] := words_cons_of_word h []
  cases needsSpace with
  | false => exact hone
  | true => exact (words_cons_of_gap rfl [t]).trans hone

theorem words_pressedFrom (ts : List Token) (s : MinifyState) :
    words (pressedFrom s ts) = s.names.shorten (words ts) := by
  induction ts generalizing s with
  | nil => rfl
  | cons t ts ih =>
    rw [pressedFrom, words_append, ih]
    have hstep := pressing s t
    generalize pressedToken s t = us at hstep ⊢
    generalize (minifyToken s t).2 = s' at hstep ⊢
    cases hstep with
    | gap hk =>
      have ht : t.isGap = true := by rcases hk with hk | hk <;> rw [isGap_of_kind hk] <;> rfl
      rw [words_cons_of_gap ht]
      rfl
    | newline hk =>
      rw [words_cons_of_gap (isGap_of_kind hk)]
      cases s.afterNewline <;> rfl
    | name hk =>
      rw [words_cons_of_word (isGap_of_kind hk), ShortName.Table.shorten, if_pos hk,
        words_pressedWord _ rfl, hk]
      rfl
    | word hk =>
      have ht : t.isGap = false := by rcases hk with hk | hk <;> rw [isGap_of_kind hk] <;> rfl
      have hname : t.kind ≠ .name := by rcases hk with hk | hk <;> rw [hk] <;> decide
      have hplain : t.unplaced.isGap = false := ht
      rw [words_cons_of_word ht, ShortName.Table.shorten, if_neg hname, words_pressedWord _ hplain]
      rfl
    | sign ht hk b =>
      have hname : t.kind ≠ .name := by
        intro hname
        rw [hname] at hk
        cases hk
      have hplain : t.unplaced.isGap = false := ht
      rw [words_cons_of_word ht, ShortName.Table.shorten, if_neg hname, words_cons_of_word hplain]
      rfl

theorem breaksFrom_pressedWord (needsSpace b : Bool) (h : t.isGap = false) (ts : List Token) :
    breaksFrom b (pressedWord needsSpace t ++ ts) = b :: breaksFrom false ts := by
  have hone := breaksFrom_cons_of_word h b ts
  cases needsSpace with
  | false => exact hone
  | true => exact hone

theorem breaksFrom_pressedFrom (ts : List Token) (s : MinifyState) :
    breaksFrom s.afterNewline (pressedFrom s ts) = breaksFrom s.afterNewline ts := by
  induction ts generalizing s with
  | nil => rfl
  | cons t ts ih =>
    have hstep := pressing s t
    have hrest := ih (minifyToken s t).2
    rw [pressedFrom]
    generalize pressedToken s t = us at hstep ⊢
    generalize (minifyToken s t).2 = s' at hstep hrest ⊢
    cases hstep with
    | gap hk =>
      rw [List.nil_append, hrest, breaksFrom]
      rcases hk with hk | hk <;> rw [hk]
    | newline hk =>
      rw [breaksFrom, hk]
      -- the newline is written only if there is none yet
      cases hs : s.afterNewline with
      | true => exact hrest
      | false => exact hrest
    | name hk =>
      rw [breaksFrom_pressedWord _ _ rfl, breaksFrom_cons_of_word (isGap_of_kind hk), hrest]
    | word hk =>
      have ht : t.isGap = false := by rcases hk with hk | hk <;> rw [isGap_of_kind hk] <;> rfl
      have hplain : t.unplaced.isGap = false := ht
      rw [breaksFrom_pressedWord _ _ hplain, breaksFrom_cons_of_word ht, hrest]
    | sign ht hk b =>
      rw [breaksFrom_cons_of_word ht, ← hrest]
      exact breaksFrom_cons_of_word ht _ _

theorem lineBreaks_pressed (ts : List Token) : lineBreaks (pressed ts) = lineBreaks ts := by
  rw [lineBreaks, lineBreaks, tail_breaksFrom false true, tail_breaksFrom false true ts]
  exact congrArg List.tail (breaksFrom_pressedFrom ts {})

/-! ### Its spaces -/

theorem writable_shortName {names : ShortName.Table} (hnames : names.Sound) {w : Bytes}
    (h : Lexeme w t) (hk : t.kind = .name) : Writable (plainToken .name (names.lookup t.data).1) := by
  refine ⟨rfl, ?_⟩
  rcases (hnames.lookup t.data).2 with ⟨hsame, -⟩ | hnil | hfresh
  · have heq : plainToken .name t.data = t := by
      cases h with
      | comment hcut | bracket hsigns hcut | quoted hmark hscan => cases hk
      | plain hcomment hbracket hquote hfirst => rw [← hk]; rfl
    rw [hsame, heq]
    exact .inl h.code
  · rw [hnil]
    exact .inr rfl
  · exact .inl hfresh.lexeme

theorem pressed_pressedWord {b : Bool} (ht : Writable t) (hk : t.kind.isSpaced = true) (h : Pressed true ts) :
    Pressed b (pressedWord b t ++ ts) := by
  cases b with
  | false => exact .first ht hk h
  | true => exact .spaced ht hk h

theorem pressed_pressedFrom (hts : ∀ t ∈ ts, ∃ w, Lexeme w t) (s : MinifyState)
    (hs : s.afterNewline = true → s.needsSpace = false) (hnames : s.names.Sound) :
    Pressed s.needsSpace (pressedFrom s ts) := by
  induction ts generalizing s with
  | nil => exact .nil
  | cons t ts ih =>
    obtain ⟨w, hw⟩ := hts t List.mem_cons_self
    have hrest := ih (fun u hu => hts u (List.mem_cons_of_mem t hu)) (minifyToken s t).2
    have hstep := pressing s t
    rw [pressedFrom]
    generalize pressedToken s t = us at hstep ⊢
    generalize (minifyToken s t).2 = s' at hstep hrest ⊢
    cases hstep with
    | gap hk => exact hrest hs hnames
    | newline hk =>
      have hpressed := hrest (fun _ => rfl) hnames
      cases hnewline : s.afterNewline with
      | true =>
        rw [hs hnewline]
        exact hpressed
      | false => exact .newline hpressed
    | name hk =>
      exact pressed_pressedWord (writable_shortName hnames hw hk) rfl
        (hrest nofun (hnames.lookup t.data).1)
    | word hk =>
      have ht : t.isGap = false := by rcases hk with hk | hk <;> rw [isGap_of_kind hk] <;> rfl
      have hspaced : t.kind.isSpaced = true := by rcases hk with hk | hk <;> rw [hk] <;> rfl
      rw [hw.unplaced_eq]
      exact pressed_pressedWord ⟨ht, .inl hw.code⟩ hspaced (hrest nofun hnames)
    | sign ht hk b =>
      rw [hw.unplaced_eq]
      exact .sign ⟨ht, .inl hw.code⟩ hk (hrest nofun hnames)

/-! ### Tokens and their places -/

theorem words_map_unplaced (ts : List Token) : words (ts.map Token.unplaced) = words ts := by
  induction ts with
  | nil => rfl
  | cons t ts ih =>
    have hgap : t.unplaced.isGap = t.isGap := rfl
    rw [List.map_cons]
    cases ht : t.isGap with
    | true => rw [words_cons_of_gap ht, words_cons_of_gap (hgap.trans ht), ih]
    | false =>
      rw [words_cons_of_word ht, words_cons_of_word (hgap.trans ht), ih]
      rfl

theorem breaksFrom_map_unplaced (b : Bool) (ts : List Token) :
    breaksFrom b (ts.map Token.unplaced) = breaksFrom b ts := by
  induction ts generalizing b with
  | nil => rfl
  | cons t ts ih =>
    rw [List.map_cons, breaksFrom, breaksFrom, ih, ih, ih]
    rfl

theorem pressedFrom_map_unplaced (s : MinifyState) (ts : List Token) :
    pressedFrom s (ts.map Token.unplaced) = pressedFrom s ts := by
  induction ts generalizing s with
  | nil => rfl
  | cons t ts ih =>
    have htoken : pressedToken s t.unplaced = pressedToken s t := rfl
    have hstate : minifyToken s t.unplaced = minifyToken s t := by
      have hkind : t.unplaced.kind = t.kind := rfl
      have hcode : t.unplaced.code = t.code := rfl
      rw [minifyToken, minifyToken, hkind, hcode]
    rw [List.map_cons, pressedFrom, pressedFrom, ih, htoken, hstate]

end Stream

/-! ### Reading a minified program -/

theorem words_fresh (h : Lexed s ls) :
    words (Scanner.passedAll {} ls).tokens.toList = words (ls.map Prod.snd) := by
  rw [← Stream.words_map_unplaced, Scanner.unplaced_fresh h]

theorem lineBreaks_fresh (h : Lexed s ls) :
    lineBreaks (Scanner.passedAll {} ls).tokens.toList = lineBreaks (ls.map Prod.snd) := by
  rw [lineBreaks, lineBreaks, ← Stream.breaksFrom_map_unplaced, Scanner.unplaced_fresh h]

/-- **A minified program has the words of the program exactly if they are kept apart.**

Let a program be read from its source, and its minified text be read in any pieces.  The text is read
without failure, has the words of the program with the short names that one table gives them, and has a
newline between two consecutive words exactly if the program has one there: all this holds if and only
if in the minified text no symbol and no numeral is run into by what is written behind it, and every
name has a text. -/
theorem feed_minify_iff {pieces pieces' : List Bytes} (hcut : LineCut pieces) (hcut' : LineCut pieces')
    {sc : Scanner} (hsc : Scanner.feed {} pieces = (sc, none))
    (htext : pieces'.flatten = (Stream.minify sc.tokens.toList).lines.flatten) :
    (∃ sc', Scanner.feed {} pieces' = (sc', none) ∧
        words sc'.tokens.toList = ShortName.Table.shorten {} (words sc.tokens.toList) ∧
        lineBreaks sc'.tokens.toList = lineBreaks sc.tokens.toList) ↔
      keptApart (Stream.pressed sc.tokens.toList) = true := by
  obtain ⟨ls, hls, rfl⟩ := (Scanner.feed_eq_iff hcut rfl).mp hsc
  generalize hts : (Scanner.passedAll {} ls).tokens.toList = ts at htext ⊢
  have hunplaced : ts.map Token.unplaced = ls.map Prod.snd := hts ▸ Scanner.unplaced_fresh hls
  have hpressed : Pressed false (Stream.pressed ts) := by
    rw [Stream.pressed, ← Stream.pressedFrom_map_unplaced, hunplaced]
    exact Stream.pressed_pressedFrom (fun t ht => hls.exists_lexeme ht) {} (fun _ => rfl)
      ShortName.Table.sound_empty
  have hwords : words (Stream.pressed ts) = ShortName.Table.shorten {} (words ts) :=
    Stream.words_pressedFrom ts {}
  rw [← Stream.written_pressed] at htext
  rw [← hwords, ← Stream.lineBreaks_pressed ts]
  constructor
  · rintro ⟨sc', hsc', hsame, -⟩
    obtain ⟨ls', hls', rfl⟩ := (Scanner.feed_eq_iff hcut' rfl).mp hsc'
    rw [htext] at hls'
    rw [words_fresh hls'] at hsame
    exact hpressed.keptApart_of_lexed hls' hsame
  · intro hapart
    have hlexed := hpressed.lexed hapart
    have hsnd : ((Stream.pressed ts).map fun t => (t.code, t)).map Prod.snd = Stream.pressed ts := by
      rw [List.map_map]
      exact List.map_id _
    refine ⟨_, (Scanner.feed_eq_iff hcut' rfl).mpr ⟨_, by rw [htext]; exact hlexed, rfl⟩, ?_, ?_⟩
    · rw [words_fresh hlexed, hsnd]
    · rw [lineBreaks_fresh hlexed, hsnd]

def minifySample : List Bytes :=
  ["foo = 1 --[[ c ]] + .5\n", "\n", "?foo..'-- '\n"].map Bytes.ofText

theorem feed_minify_sample :
    LineCut minifySample ∧ (Scanner.feed {} minifySample).2 = none ∧
      (Stream.minify (Scanner.feed {} minifySample).1.tokens.toList).lines.flatten =
        Bytes.ofText "a=1+.5\n? a..'-- '\n" ∧
      ∃ sc', Scanner.feed {} [Bytes.ofText "a=1+.5\n? a..'-- '\n"] = (sc', none) ∧
        words sc'.tokens.toList =
          ShortName.Table.shorten {} (words (Scanner.feed {} minifySample).1.tokens.toList) ∧
        lineBreaks sc'.tokens.toList =
          lineBreaks (Scanner.feed {} minifySample).1.tokens.toList := by
  have hcut : LineCut minifySample := by unfold LineCut; decide
  obtain ⟨hnone, htext, hapart⟩ : (Scanner.feed {} minifySample).2 = none ∧
      (Stream.minify (Scanner.feed {} minifySample).1.tokens.toList).lines.flatten =
        Bytes.ofText "a=1+.5\n? a..'-- '\n" ∧
      keptApart (Stream.pressed (Scanner.feed {} minifySample).1.tokens.toList) = true := by
    decide +kernel
  refine ⟨hcut, hnone, htext, ?_⟩
  generalize hsc : Scanner.feed {} minifySample = p at hnone htext hapart ⊢
  obtain ⟨sc, e⟩ := p
  obtain rfl : e = none := hnone
  refine (feed_minify_iff hcut (fun p hp => absurd hp List.not_mem_nil) hsc ?_).mpr hapart
  rw [htext, List.flatten_singleton]

def dashSample : Bytes := Bytes.ofText "x=a- -b\n"

/-- **Two dashes run together**: a program is read that has two dashes with a space between them, and
its minified text has a comment instead of them. -/
theorem words_minify_dashes :
    (Program.ofLines 8 [dashSample]).isOk = true ∧
      (Stream.minify (Scanner.feed {} [dashSample]).1.tokens.toList).lines.flatten =
        Bytes.ofText "a=b--c\n" ∧
      ShortName.Table.shorten {} (words (Scanner.feed {} [dashSample]).1.tokens.toList) =
        [(.name, [97]), (.symbol, [61]), (.name, [98]), (.symbol, [45]), (.symbol, [45]),
          (.name, [99])] ∧
      words (Scanner.feed {} [Bytes.ofText "a=b--c\n"]).1.tokens.toList =
        [(.name, [97]), (.symbol, [61]), (.name, [98])] := by
  decide +kernel

end Cartridge.Lua
