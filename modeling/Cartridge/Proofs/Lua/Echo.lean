import Cartridge.Lua.Writing.Stream
import Cartridge.Proofs.Lua.WholeText

/-!
# Echoed source

Tokens written as they are give a text that differs from the source only inside string literals
between quotes, where escapes are spelled anew.  A literal starts with its quote, and nothing behind
a quote runs into the token in front of it; so the new text falls into the same tokens.
-/

namespace Cartridge.Lua

variable {ls : List (Bytes × Token)} {s w : Bytes} {t : Token}

/-! ### Written tokens -/

def Token.isQuoted (t : Token) : Bool :=
  t.kind == .string && match t.quote with
    | .short _ => true
    | .long _ => false

theorem code_plainToken {k : TokenKind} (h : firstMatch standardRules w = some (k, w.length)) :
    (plainToken k w).code = w := by
  have htext := isText_of_firstMatch h
  cases k with
  | string => exact absurd htext id
  | general | space | newline | comment | number | name | label | keyword | symbol => rfl

theorem code_longString (signs x : Bytes) :
    (longString signs x).code = openingBracket signs ++ x ++ closingBracket signs := by
  simp [longString, Token.code, openingBracket, closingBracket]

theorem code_quotedString (mark : UInt8) (data : Bytes) :
    (quotedString mark data).code = mark :: (data.flatMap (Token.escape [mark]) ++ [mark]) := rfl

theorem Lexeme.code_eq (h : Lexeme w t) (hq : t.isQuoted = false) : t.code = w := by
  cases h with
  | comment hcut => rfl
  | @bracket signs x hsigns hcut => exact code_longString signs x
  | quoted hmark hscan => cases hq
  | plain hcomment hbracket hquote hfirst => exact code_plainToken hfirst

theorem lexeme_quotedString {mark : UInt8} (hmark : isQuote mark = true) (data : Bytes) :
    Lexeme (quotedString mark data).code (quotedString mark data) := by
  rw [code_quotedString]
  refine .quoted hmark ?_
  simpa using scanQuoted_escape hmark [] data [] 0

theorem Lexeme.code {w : Bytes} {t : Token} (h : Lexeme w t) : Lexeme t.code t := by
  cases h with
  | comment hcut => exact .comment hcut
  | @bracket signs x hsigns hcut =>
    rw [code_longString]
    exact .bracket hsigns hcut
  | @quoted mark body data hmark hscan => exact lexeme_quotedString hmark data
  | plain hcomment hbracket hquote hfirst =>
    rw [code_plainToken hfirst]
    exact .plain hcomment hbracket hquote hfirst

theorem Lexeme.code_eq_of_plain (h : Lexeme w t)
    (hplain : t.isQuoted = true → ∀ c ∈ w, c ≠ Bytes.backslash ∧ ¬(7 ≤ c ∧ c ≤ 13)) : t.code = w := by
  cases hq : t.isQuoted with
  | false => exact h.code_eq hq
  | true =>
    have hbytes := hplain hq
    cases h with
    | comment hcut => rfl
    | @bracket signs x hsigns hcut => exact code_longString signs x
    | plain hcomment hbracket hquote hfirst => exact code_plainToken hfirst
    | @quoted mark body data hmark hscan =>
      have hback : Bytes.backslash ∉ body := by
        intro hmem
        exact (hbytes _ (by simp [hmem])).1 rfl
      -- the first mark in the body would have closed the string
      have hnot : mark ∉ body := by
        intro hmem
        obtain ⟨x, y, rfl, hx⟩ := List.eq_append_cons_of_mem hmem
        have hback' : Bytes.backslash ∉ x := fun hx' => hback (List.mem_append_left _ hx')
        have hscan' := scanQuoted_plain x [] 0 (y ++ [mark]) hx hback'
        rw [List.append_assoc, List.cons_append, hscan'] at hscan
        simp at hscan
      have hdata : data = body := by
        have hscan' := scanQuoted_plain body [] 0 [] hnot hback
        rw [hscan] at hscan'
        simpa using hscan'
      rw [code_quotedString, hdata,
        flatMap_escape_of_plain hnot hback fun c hc => (hbytes c (by simp [hc])).2]

/-! ### The echoed text -/

theorem flatten_echoFrom (ts : List Token) : ∀ current : List Bytes,
    (Stream.echoFrom current ts).flatten = current.reverse.flatten ++ (ts.map Token.code).flatten := by
  induction ts with
  | nil =>
    intro current
    rw [Stream.echoFrom]
    split
    · next h =>
      rw [List.isEmpty_iff.mp h]
      rfl
    · simp
  | cons t ts ih =>
    intro current
    rw [Stream.echoFrom]
    split
    · simp [ih []]
    · simp [ih (t.code :: current)]

theorem flatten_echo (ts : List Token) : (Stream.echo ts).flatten = (ts.map Token.code).flatten :=
  flatten_echoFrom ts []

def echoed (ls : List (Bytes × Token)) : List (Bytes × Token) := ls.map fun l => (l.2.code, l.2)

theorem Lexeme.code_or_quote (h : Lexeme w t) :
    t.code = w ∨
      t.kind = .string ∧ ∃ b x y, isBarrier b = true ∧ w = b :: x ∧ t.code = b :: y := by
  cases h with
  | comment hcut => exact .inl rfl
  | @bracket signs x hsigns hcut => exact .inl (code_longString signs x)
  | plain hcomment hbracket hquote hfirst => exact .inl (code_plainToken hfirst)
  | @quoted mark body data hmark hscan =>
    have hbarrier : isBarrier mark = true := by
      rcases isQuote_iff.mp hmark with rfl | rfl <;> decide
    exact .inr ⟨rfl, mark, _, _, hbarrier, rfl, rfl⟩

theorem Lexed.agree (h : Lexed s ls) :
    s = ((echoed ls).map Prod.fst).flatten ∨
      ∃ x b y y', isBarrier b = true ∧ s = x ++ b :: y ∧
        ((echoed ls).map Prod.fst).flatten = x ++ b :: y' := by
  induction h with
  | nil => exact .inl rfl
  | @cons w r t ls hw hruns hr ih =>
    have hcons : ((echoed ((w, t) :: ls)).map Prod.fst).flatten =
        t.code ++ ((echoed ls).map Prod.fst).flatten := rfl
    rw [hcons]
    rcases hw.code_or_quote with hcode | ⟨-, b, x, y, hb, rfl, hcode⟩
    · rw [hcode]
      rcases ih with heq | ⟨x, b, y, y', hb, hx, hx'⟩
      · exact .inl (by rw [← heq])
      · exact .inr ⟨w ++ x, b, y, y', hb, by rw [hx, List.append_assoc],
          by rw [hx', List.append_assoc]⟩
    · rw [hcode]
      exact .inr ⟨[], b, _, _, hb, rfl, rfl⟩

theorem Lexed.echoed (h : Lexed s ls) : Lexed ((echoed ls).map Prod.fst).flatten (Lua.echoed ls) := by
  induction h with
  | nil => exact .nil
  | @cons w r t ls hw hruns hr ih =>
    have hnext : runsInto t.kind t.code ((Lua.echoed ls).map Prod.fst).flatten = false := by
      rcases hw.code_or_quote with hcode | ⟨hkind, -⟩
      · rw [hcode, ← hruns]
        rcases hr.agree with heq | ⟨x, b, y, y', hb, hx, hx'⟩
        · rw [← heq]
        · rw [hx, hx', runsInto_barrier hb]
      · rw [hkind]
        rfl
    exact .cons hw.code hnext ih

theorem map_snd_echoed (ls : List (Bytes × Token)) : (echoed ls).map Prod.snd = ls.map Prod.snd := by
  simp [echoed]

theorem flatten_echoed (ls : List (Bytes × Token)) :
    ((echoed ls).map Prod.fst).flatten = ((ls.map Prod.snd).map Token.code).flatten := by
  simp [echoed, Function.comp_def]

theorem Lexed.eq_echo (h : Lexed s ls)
    (hplain : ∀ l ∈ ls, l.2.isQuoted = true → ∀ c ∈ l.1, c ≠ Bytes.backslash ∧ ¬(7 ≤ c ∧ c ≤ 13)) :
    ((Lua.echoed ls).map Prod.fst).flatten = s := by
  induction h with
  | nil => rfl
  | @cons w r t ls hw hruns hr ih =>
    have hcode := hw.code_eq_of_plain (hplain (w, t) List.mem_cons_self)
    have hrest := ih fun l hl => hplain l (List.mem_cons_of_mem _ hl)
    have hcons : ((Lua.echoed ((w, t) :: ls)).map Prod.fst).flatten =
        t.code ++ ((Lua.echoed ls).map Prod.fst).flatten := rfl
    rw [hcons, hcode, hrest]

theorem flatten_echo_of_unplaced {ts : List Token} (h : ts.map Token.unplaced = ls.map Prod.snd) :
    (Stream.echo ts).flatten = ((echoed ls).map Prod.fst).flatten := by
  rw [flatten_echo, flatten_echoed, ← h, List.map_map]
  rfl

/-- **A literal between quotes survives writing**, whatever bytes it holds: its text alone is read
without failure, in whatever pieces that end behind newlines, and as one token with the same bytes
and the same quotes. -/
theorem feed_code_quoted {t : Token} {mark : UInt8} (hkind : t.kind = .string)
    (hquote : t.quote = .short [mark]) (hmark : mark = 34 ∨ mark = 39) {pieces : List Bytes}
    (hcut : LineCut pieces) (htext : pieces.flatten = t.code) :
    ∃ sc, Scanner.feed {} pieces = (sc, none) ∧ sc.tokens = #[{ t with place := some ⟨0, 0⟩ }] := by
  obtain ⟨kind, data, quote, place⟩ := t
  cases hkind
  cases hquote
  have hone : Lexeme (quotedString mark data).code (quotedString mark data) :=
    lexeme_quotedString (isQuote_iff.mpr hmark.symm) data
  have hlexed : Lexed pieces.flatten [((quotedString mark data).code, quotedString mark data)] := by
    rw [htext, ← List.append_nil (Token.code _)]
    exact .cons hone (runsInto_nil _ _) .nil
  exact ⟨_, (Scanner.feed_eq_iff hcut rfl).mpr ⟨_, hlexed, rfl⟩, rfl⟩

/-- Bytes that have an escape, digits behind them, and both quotes. -/
theorem feed_code_quoted_sample :
    (∃ sc, Scanner.feed {} [Bytes.ofText "\"\\n1\\\\65\\\"'\""] = (sc, none) ∧
        sc.tokens = #[{ kind := .string, data := Bytes.ofText "\n1\\65\"'", quote := .short [34]
                        place := some ⟨0, 0⟩ }]) ∧
      ∃ sc, Scanner.feed {} [Bytes.ofText "'\\n1\\\\65\"\\''"] = (sc, none) ∧
        sc.tokens = #[{ kind := .string, data := Bytes.ofText "\n1\\65\"'", quote := .short [39]
                        place := some ⟨0, 0⟩ }] := by
  have hcut (text : Bytes) : LineCut [text] := fun p hp => absurd hp List.not_mem_nil
  exact ⟨feed_code_quoted (t := quotedString 34 (Bytes.ofText "\n1\\65\"'")) rfl rfl (.inl rfl) (hcut _)
      (by decide),
    feed_code_quoted (t := quotedString 39 (Bytes.ofText "\n1\\65\"'")) rfl rfl (.inr rfl) (hcut _)
      (by decide)⟩

/-- **Echoed source means the same.**

Source that is read without failure, in pieces that end behind newlines, gives an echoed text that is
read without failure, in whatever pieces that end behind newlines, and as the same tokens: of the same
kinds, with the same data and the same quotes.  The echoed text is the source itself if no literal
between quotes holds a backslash or a byte from 7 to 13. -/
theorem feed_echo {pieces : List Bytes} (hcut : LineCut pieces) {sc : Scanner}
    (hread : Scanner.feed {} pieces = (sc, none)) :
    (∀ pieces', LineCut pieces' → pieces'.flatten = (Stream.echo sc.tokens.toList).flatten →
        ∃ sc', Scanner.feed {} pieces' = (sc', none) ∧
          sc'.tokens.toList.map Token.unplaced = sc.tokens.toList.map Token.unplaced) ∧
      ∃ ls, Lexed pieces.flatten ls ∧ ls.map Prod.snd = sc.tokens.toList.map Token.unplaced ∧
        ((∀ l ∈ ls, l.2.isQuoted = true → ∀ c ∈ l.1, c ≠ Bytes.backslash ∧ ¬(7 ≤ c ∧ c ≤ 13)) →
          (Stream.echo sc.tokens.toList).flatten = pieces.flatten) := by
  obtain ⟨ls, hls, rfl⟩ := (Scanner.feed_eq_iff hcut rfl).mp hread
  have htokens := Scanner.unplaced_fresh hls
  have htext := flatten_echo_of_unplaced htokens
  refine ⟨fun pieces' hcut' hflat => ?_, ls, hls, htokens.symm, fun hplain => ?_⟩
  · rw [htext] at hflat
    have hlexed := hls.echoed
    refine ⟨Scanner.passedAll {} (echoed ls), ?_, ?_⟩
    · exact (Scanner.feed_eq_iff hcut' rfl).mpr ⟨echoed ls, by rw [hflat]; exact hlexed, rfl⟩
    · rw [Scanner.unplaced_fresh hlexed, map_snd_echoed, htokens]
  · rw [htext]
    exact hls.eq_echo hplain

def echoSample : List Bytes :=
  ["x='\\65\\n'..y- -1\n", "--[[ z\n", "]] a=[=[\\]]=]"].map Bytes.ofText

theorem feed_echo_sample :
    LineCut echoSample ∧ (Scanner.feed {} echoSample).2 = none ∧
      (Stream.echo (Scanner.feed {} echoSample).1.tokens.toList).flatten =
        Bytes.ofText "x='A\\n'..y- -1\n--[[ z\n]] a=[=[\\]]=]" ∧
      ∃ sc', Scanner.feed {} [Bytes.ofText "x='A\\n'..y- -1\n--[[ z\n]] a=[=[\\]]=]"] = (sc', none) ∧
        sc'.tokens.toList.map Token.unplaced =
          (Scanner.feed {} echoSample).1.tokens.toList.map Token.unplaced := by
  have hcut : LineCut echoSample := by unfold LineCut; decide
  have hnone : (Scanner.feed {} echoSample).2 = none := by decide +kernel
  have htext : (Stream.echo (Scanner.feed {} echoSample).1.tokens.toList).flatten =
      Bytes.ofText "x='A\\n'..y- -1\n--[[ z\n]] a=[=[\\]]=]" := by decide +kernel
  refine ⟨hcut, hnone, htext, ?_⟩
  generalize hsc : Scanner.feed {} echoSample = p at hnone htext ⊢
  obtain ⟨sc, e⟩ := p
  obtain rfl : e = none := hnone
  refine (feed_echo hcut hsc).1 _ (fun p hp => absurd hp List.not_mem_nil) ?_
  rw [htext, List.flatten_singleton]

end Cartridge.Lua
