import Cartridge.Lua.Program
import Cartridge.Proofs.Lua.Echo
import Cartridge.Proofs.Lua.Reparsing
import Cartridge.Proofs.Text.Lines

/-!
# Programs that are written and read again

A program that is written as it is, closed by a newline if there is none at its
end, is read again as the same program.  Its tokens are the same up to places,
with one newline more if one was added; so it has a tree again.  Its lines are
those of the source, except that a line with a string literal may be another one.
-/

namespace Cartridge.Lua

open List Bytes

variable {ls : List (Bytes × Token)} {p : Program} {pieces : List Bytes} {s w : Bytes}

/-! ### A newline behind a text -/

theorem runsInto_newline {k : TokenKind} (hw : k = .newline → w ≠ [13]) (x s : Bytes) :
    runsInto k w (x ++ newline :: s) = runsInto k w x := by
  cases hk : k.isGap with
  | false => exact runsInto_append_barrier isBarrier_newline hk w x s
  | true =>
    cases k with
    | space => rw [runsInto, runsInto, startsWith_barrier (by decide)]
    | comment => rw [runsInto, runsInto, startsWith_barrier (by decide)]
    | newline =>
      have hne : (w == [13]) = false := beq_false_of_ne (hw rfl)
      rw [runsInto, runsInto, hne, Bool.false_and, Bool.false_and]
    | general | string | number | name | label | keyword | symbol => cases hk

def PlainLineEnds (ts : List Token) : Prop :=
  ∀ t ∈ ts, t.kind = .newline → t.data = [newline]

theorem Lexeme.eq_data_of_newline {t : Token} (h : Lexeme w t) (hk : t.kind = .newline) : w = t.data := by
  cases h with
  | comment hcut => cases hk
  | bracket hsigns hcut => cases hk
  | quoted hmark hscan => cases hk
  | plain hcomment hbracket hquote hfirst => rfl

theorem Lexed.append_newline (h : Lexed s ls) (hends : PlainLineEnds (ls.map Prod.snd)) :
    Lexed (s ++ [newline]) (ls ++ [([newline], newlineToken)]) := by
  induction h with
  | nil => exact .cons lexeme_newline (runsInto_nil _ _) .nil
  | @cons w r t ls hw hruns hr ih =>
    rw [map_cons] at hends
    have hnext : runsInto t.kind w (r ++ [newline]) = false := by
      rw [← hruns]
      refine runsInto_newline (fun hk h13 => ?_) r []
      rw [hw.eq_data_of_newline hk, hends t mem_cons_self hk] at h13
      exact absurd h13 (by decide)
    rw [append_assoc]
    exact .cons hw hnext (ih fun u hu => hends u (mem_cons_of_mem _ hu))

theorem Lexed.plainLineEnds (h : Lexed s ls) (hreturn : 13 ∉ s) : PlainLineEnds (ls.map Prod.snd) := by
  induction h with
  | nil =>
    intro t ht
    cases ht
  | @cons w r t ls hw hruns hr ih =>
    rw [mem_append, not_or] at hreturn
    intro u hu hk
    rcases mem_cons.mp hu with rfl | hu
    · cases hw with
      | comment hcut => cases hk
      | bracket hsigns hcut => cases hk
      | quoted hmark hscan => cases hk
      | plain hcomment hbracket hquote hfirst =>
        obtain rfl : _ = TokenKind.newline := hk
        rcases isText_of_firstMatch hfirst with hw | hw | hw
        · exact hw
        · exact absurd (hw ▸ mem_cons_self) hreturn.1
        · exact absurd (hw ▸ mem_cons_self) hreturn.1
    · exact ih hreturn.2 u hu hk

/-! ### The written lines -/

theorem echoFrom_cut {ts : List Token} (hends : PlainLineEnds ts) (current : List Bytes) :
    LineCut (Stream.echoFrom current ts) := by
  induction ts generalizing current with
  | nil =>
    rw [Stream.echoFrom]
    split
    · intro p hp
      cases hp
    · intro p hp
      cases hp
  | cons t ts ih =>
    have htail : PlainLineEnds ts := fun u hu => hends u (mem_cons_of_mem t hu)
    rw [Stream.echoFrom]
    split
    · next hk =>
      have hkind : t.kind = .newline := eq_of_beq hk
      have hcode : t.code = [newline] := by
        rw [Token.code.eq_def, hkind]
        exact hends t mem_cons_self hkind
      refine LineCut.cons ?_ (ih htail [])
      simp [hcode]
    · exact ih htail _

theorem echoFrom_ne_nil {ts : List Token} (hcode : ∀ t ∈ ts, t.code ≠ []) {current : List Bytes}
    (hcurrent : ∀ w ∈ current, w ≠ []) : ∀ p ∈ Stream.echoFrom current ts, p ≠ [] := by
  induction ts generalizing current with
  | nil =>
    intro p hp
    rw [Stream.echoFrom] at hp
    split at hp
    · cases hp
    · next hne =>
      rw [mem_singleton.mp hp]
      obtain ⟨w, ws, rfl⟩ := exists_cons_of_ne_nil (mt isEmpty_iff.mpr hne)
      simp [hcurrent w mem_cons_self]
  | cons t ts ih =>
    have ht := hcode t mem_cons_self
    have htail : ∀ u ∈ ts, u.code ≠ [] := fun u hu => hcode u (mem_cons_of_mem t hu)
    intro p hp
    rw [Stream.echoFrom] at hp
    split at hp
    · rcases mem_cons.mp hp with rfl | hp
      · simp [ht]
      · exact ih htail (fun w hw => by cases hw) p hp
    · refine ih htail (fun w hw => ?_) p hp
      rcases mem_cons.mp hw with rfl | hw
      · exact ht
      · exact hcurrent w hw

/-! ### Programs -/

structure Program.Holds (p : Program) (ls : List (Bytes × Token)) : Prop where
  tokens_eq : p.tokens.toList.map Token.unplaced = ls.map Prod.snd
  parses : ∃ t, Tree.ofTokens p.tokens = .ok t

theorem Program.ofLines_eq (v : Int) (pieces : List Bytes) :
    Program.ofLines v pieces = match Scanner.feed {} pieces with
      | (_, some e) => .error e
      | (sc, none) => (Tree.ofTokens sc.tokens).map fun t =>
          { version := v, scanner := sc, root := t } := by
  rw [Program.ofLines, Program.ofSource, Program.updateFrom, Scanner.feed]
  cases Scanner.feedFrom {} pieces none with
  | mk sc e =>
    cases e with
    | some e => rfl
    | none =>
      dsimp only
      cases Tree.ofTokens sc.tokens <;> rfl

theorem Program.ofLines_eq_ok_iff {v : Int} (hcut : LineCut pieces) :
    Program.ofLines v pieces = .ok p ↔
      ∃ ls t, Lexed pieces.flatten ls ∧ Tree.ofTokens (Scanner.passedAll {} ls).tokens = .ok t ∧
        p = { version := v, scanner := Scanner.passedAll {} ls, root := t } := by
  have hfeed : ∀ sc, Scanner.feed {} pieces = (sc, none) ↔
      ∃ ls, Lexed pieces.flatten ls ∧ sc = Scanner.passedAll {} ls :=
    fun _ => Scanner.feed_eq_iff hcut rfl
  rw [Program.ofLines_eq]
  constructor
  · intro h
    split at h
    · cases h
    · next sc hsc =>
      obtain ⟨ls, hls, rfl⟩ := (hfeed sc).mp hsc
      cases ht : Tree.ofTokens (Scanner.passedAll {} ls).tokens with
      | error e =>
        rw [ht] at h
        cases h
      | ok t =>
        rw [ht] at h
        cases h
        exact ⟨ls, t, hls, ht, rfl⟩
  · rintro ⟨ls, t, hls, ht, rfl⟩
    rw [(hfeed _).mpr ⟨ls, hls, rfl⟩]
    dsimp only
    rw [ht]
    rfl

theorem Program.holds_of_ofLines {v : Int} (hcut : LineCut pieces) (h : Program.ofLines v pieces = .ok p) :
    ∃ ls, Lexed pieces.flatten ls ∧ p.Holds ls := by
  obtain ⟨ls, t, hls, ht, rfl⟩ := (Program.ofLines_eq_ok_iff hcut).mp h
  exact ⟨ls, hls, Scanner.unplaced_fresh hls, t, ht⟩

theorem Program.Holds.exists_ofLines (hp : p.Holds ls) (v : Int) (hcut : LineCut pieces)
    {ls' : List (Bytes × Token)} (hls : Lexed pieces.flatten ls') {tail : List Token}
    (hsnd : ls'.map Prod.snd = ls.map Prod.snd ++ tail) (htail : ∀ t ∈ tail, t.kind = .newline) :
    ∃ q, Program.ofLines v pieces = .ok q ∧ q.Holds ls' := by
  obtain ⟨t, ht⟩ := hp.parses
  have htokens := Scanner.unplaced_fresh hls
  have hadded : (Scanner.passedAll {} ls').tokens.toList.map Token.unplaced =
      p.tokens.toList.map Token.unplaced ++ tail := by
    rw [htokens, hsnd, hp.tokens_eq]
  obtain ⟨t', ht', -⟩ := Tree.ofTokens_of_newlines hadded htail ht
  exact ⟨_, (Program.ofLines_eq_ok_iff hcut).mpr ⟨ls', t', hls, ht', rfl⟩, htokens, t', ht'⟩

/-! ### The written text -/

def closedEcho (ls : List (Bytes × Token)) : List (Bytes × Token) :=
  if ((echoed ls).map Prod.fst).flatten.getLast? = some newline then echoed ls
  else echoed ls ++ [([newline], newlineToken)]

/-- **The written text, closed by a newline, has the lexemes of the source and at
most one newline more.** -/
theorem lexed_closedEcho (h : Lexed s ls) (hends : PlainLineEnds (ls.map Prod.snd)) :
    Lexed (closed ((echoed ls).map Prod.fst).flatten) (closedEcho ls) := by
  unfold closed closedEcho
  split
  · exact h.echoed
  · exact h.echoed.append_newline (by rwa [map_snd_echoed])

theorem map_snd_closedEcho (ls : List (Bytes × Token)) :
    (closedEcho ls).map Prod.snd = ls.map Prod.snd ∨
      (closedEcho ls).map Prod.snd = ls.map Prod.snd ++ [newlineToken] := by
  unfold closedEcho
  split
  · exact .inl (map_snd_echoed ls)
  · exact .inr (by rw [map_append, map_snd_echoed]; rfl)

theorem flatten_echoed_closedEcho (ls : List (Bytes × Token)) :
    ((echoed (closedEcho ls)).map Prod.fst).flatten =
      closed ((echoed ls).map Prod.fst).flatten := by
  have htwice : echoed (echoed ls) = echoed ls := by simp [echoed]
  unfold closedEcho closed
  split
  · rw [htwice]
  · have happend : echoed (echoed ls ++ [([newline], newlineToken)]) =
        echoed ls ++ [([newline], newlineToken)] := by
      rw [echoed, map_append, ← echoed, htwice]
      rfl
    rw [happend, map_append, flatten_append]
    rfl

theorem plainLineEnds_closedEcho (hends : PlainLineEnds (ls.map Prod.snd)) :
    PlainLineEnds ((closedEcho ls).map Prod.snd) := by
  rcases map_snd_closedEcho ls with hsnd | hsnd
  · rwa [hsnd]
  · rw [hsnd]
    intro t ht hk
    rcases mem_append.mp ht with ht | ht
    · exact hends t ht hk
    · rw [mem_singleton.mp ht]
      rfl

theorem Program.Holds.exists_ofLines_closed (hp : p.Holds ls) (h : Lexed s ls)
    (hends : PlainLineEnds (ls.map Prod.snd)) (v : Int) :
    ∃ q, Program.ofLines v (lines (closed ((echoed ls).map Prod.fst).flatten)) = .ok q ∧
      q.Holds (closedEcho ls) := by
  have hcut : LineCut (lines (closed ((echoed ls).map Prod.fst).flatten)) := fun l hl =>
    (isLine_of_mem_lines_closed (dropLast_subset _ hl)).getLast?
  have hlexed := lexed_closedEcho h hends
  rw [← flatten_lines (closed _)] at hlexed
  rcases map_snd_closedEcho ls with hsnd | hsnd
  · rw [← append_nil (ls.map Prod.snd)] at hsnd
    exact hp.exists_ofLines v hcut hlexed hsnd fun t ht => by cases ht
  · refine hp.exists_ofLines v hcut hlexed hsnd fun t ht => ?_
    rw [mem_singleton.mp ht]
    rfl

/-! ### The lines a program is written in -/

section Written

variable {p : Program} {s : Bytes} {ls : List (Bytes × Token)}

theorem Program.Holds.flatten_echo (hp : p.Holds ls) :
    (Stream.echo p.tokens.toList).flatten = ((echoed ls).map Prod.fst).flatten :=
  flatten_echo_of_unplaced hp.tokens_eq

theorem Program.Holds.mem_tokens (hp : p.Holds ls) {t : Token} (ht : t ∈ p.tokens.toList) :
    t.unplaced ∈ ls.map Prod.snd := by
  rw [← hp.tokens_eq]
  exact mem_map_of_mem ht

theorem Program.Holds.lineCut_echo (hp : p.Holds ls) (hends : PlainLineEnds (ls.map Prod.snd)) :
    LineCut (Stream.echo p.tokens.toList) :=
  echoFrom_cut (fun t ht hk => hends t.unplaced (hp.mem_tokens ht) hk) []

theorem Program.Holds.echo_ne_nil (hp : p.Holds ls) (h : Lexed s ls) :
    ∀ l ∈ Stream.echo p.tokens.toList, l ≠ [] := by
  refine echoFrom_ne_nil (fun t ht => ?_) (fun w hw => by cases hw)
  obtain ⟨w, hw⟩ := h.exists_lexeme (hp.mem_tokens ht)
  exact hw.code.ne_nil

theorem Program.Holds.exists_ofLines_echo (hp : p.Holds ls) (h : Lexed s ls)
    (hends : PlainLineEnds (ls.map Prod.snd)) (v : Int) :
    ∃ q, Program.ofLines v (Stream.echo p.tokens.toList) = .ok q := by
  have hlexed : Lexed (Stream.echo p.tokens.toList).flatten (echoed ls) := by
    rw [hp.flatten_echo]
    exact h.echoed
  have hsnd : (echoed ls).map Prod.snd = ls.map Prod.snd ++ [] := by
    rw [map_snd_echoed, append_nil]
  obtain ⟨q, hq, -⟩ := hp.exists_ofLines v (hp.lineCut_echo hends) hlexed hsnd
    fun t ht => by cases ht
  exact ⟨q, hq⟩

end Written

/-! ### Lines with quotes -/

def HoldsQuote (l : Bytes) : Prop := ∃ c ∈ l, isQuote c = true

theorem firstLine_append (hw : newline ∉ w) (s : Bytes) :
    firstLine (w ++ s) = w ++ firstLine s := by
  induction w with
  | nil => rfl
  | cons c w ih =>
    rw [mem_cons, not_or] at hw
    rw [cons_append, firstLine, if_neg (Ne.symm hw.1), ih hw.2, cons_append]

theorem laterLines_append (hw : newline ∉ w) (s : Bytes) :
    laterLines (w ++ s) = laterLines s := by
  induction w with
  | nil => rfl
  | cons c w ih =>
    rw [mem_cons, not_or] at hw
    rw [cons_append, laterLines, if_neg (Ne.symm hw.1), ih hw.2]

theorem mem_laterLines_append {l : Bytes} (h : l ∈ laterLines s) (w : Bytes) :
    l ∈ laterLines (w ++ s) := by
  induction w with
  | nil => exact h
  | cons c w ih =>
    rw [cons_append, laterLines]
    split
    · exact mem_cons_of_mem _ ih
    · exact ih

structure SameLines (s s' : Bytes) : Prop where
  first : firstLine s' = firstLine s ∨ HoldsQuote (firstLine s')
  later : ∀ l ∈ laterLines s', l ∈ laterLines s ∨ HoldsQuote l

theorem SameLines.append {s' : Bytes} (h : SameLines s s') (w : Bytes) : SameLines (w ++ s) (w ++ s') := by
  induction w with
  | nil => exact h
  | cons c w ih =>
    rw [cons_append, cons_append]
    by_cases hc : c = newline
    · subst hc
      refine ⟨.inl rfl, ?_⟩
      simp only [laterLines, if_pos]
      intro l hl
      rcases mem_cons.mp hl with rfl | hl
      · rcases ih.first with heq | hquote
        · exact .inl (heq ▸ mem_cons_self)
        · exact .inr hquote
      · exact (ih.later l hl).imp_left (mem_cons_of_mem _)
    · have hfirst : ∀ u, firstLine (c :: u) = c :: firstLine u := fun u => by
        rw [firstLine, if_neg hc]
      have hlater : ∀ u, laterLines (c :: u) = laterLines u := fun u => by
        rw [laterLines, if_neg hc]
      refine ⟨?_, ?_⟩
      · rw [hfirst, hfirst]
        rcases ih.first with heq | ⟨d, hd, hquote⟩
        · exact .inl (by rw [heq])
        · exact .inr ⟨d, mem_cons_of_mem c hd, hquote⟩
      · rw [hlater, hlater]
        exact ih.later

theorem newline_not_mem_escape (mark : Bytes) (c : UInt8) :
    newline ∉ Token.escape mark c := by
  unfold Token.escape
  split
  · next letter hletter =>
    have hne : letter ≠ newline := by
      unfold Token.escapeLetter? at hletter
      split at hletter <;> cases hletter <;> decide
    simp [hne.symm, show newline ≠ backslash by decide]
  · next hnone =>
    have hne : c ≠ newline := by
      rintro rfl
      cases hnone
    split <;> simp [hne.symm, show newline ≠ backslash by decide]

theorem newline_not_mem_code_quotedString {mark : UInt8} (hmark : isQuote mark = true)
    (data : Bytes) : newline ∉ (quotedString mark data).code := by
  have hne : newline ≠ mark := by
    rintro rfl
    cases hmark
  rw [code_quotedString]
  simp [hne, newline_not_mem_escape]

theorem sameLines_echoed (h : Lexed s ls) : SameLines s ((echoed ls).map Prod.fst).flatten := by
  induction h with
  | nil => exact ⟨.inl rfl, fun l hl => .inl hl⟩
  | @cons w r t ls hw hruns hr ih =>
    have hcons : ((echoed ((w, t) :: ls)).map Prod.fst).flatten =
        t.code ++ ((echoed ls).map Prod.fst).flatten := rfl
    rw [hcons]
    cases hq : t.isQuoted with
    | false =>
      rw [hw.code_eq hq]
      exact ih.append w
    | true =>
      cases hw with
      | comment hcut => cases hq
      | bracket hsigns hcut => cases hq
      | plain hcomment hbracket hquote hfirst =>
        rw [code_plainToken hfirst]
        exact ih.append _
      | @quoted mark body data hmark hscan =>
        have hnewline := newline_not_mem_code_quotedString hmark data
        refine ⟨.inr ⟨mark, ?_, hmark⟩, fun l hl => ?_⟩
        · rw [firstLine_append hnewline, code_quotedString]
          exact mem_cons_self
        · rw [laterLines_append hnewline] at hl
          exact (ih.later l hl).imp_left fun h => mem_laterLines_append h _

end Cartridge.Lua
