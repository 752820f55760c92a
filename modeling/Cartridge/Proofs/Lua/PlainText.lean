import Cartridge.Proofs.Lua.Covered
import Cartridge.Proofs.Lua.Pieces
import Cartridge.Proofs.Lua.Rows

/-!
# Words with blanks between them

A tree that is written without regard to the source has a blank before every word.  So no word runs into
the next one, and the text is read as the words again, whatever they are.
-/

namespace Cartridge.Lua

variable {steps : List Step} {w : Bytes} {ws : List Token}

def Blanked (s : Bytes) : Prop := ∃ c r, s = c :: r ∧ (c = Gap.space ∨ c = Bytes.newline)

inductive Spaced : Bytes → List Token → Prop
  | nil : Spaced [] []
  | space {r : Bytes} {ws : List Token} (h : Spaced r ws) : Spaced (Gap.space :: r) ws
  | newline {r : Bytes} {ws : List Token} (h : Spaced r ws) : Spaced (Bytes.newline :: r) ws
  | word {w r : Bytes} {t : Token} {ws : List Token} (hw : Lexeme w t) (ht : t.isGap = false)
      (hr : Blanked r) (h : Spaced r ws) : Spaced (w ++ r) (t :: ws)

/-! ### Reading -/

theorem Lexeme.kind_of_space {c : UInt8} {v : Bytes} {t : Token} (h : Lexeme (c :: v) t)
    (hc : isSpace c = true) : t.kind = .space := by
  have hfirst := lexeme?_eq_length_iff.mpr h
  have hcomment : ¬commentOpening <+: c :: v := by
    rintro ⟨z, hz⟩
    rw [← (List.cons.inj hz).1] at hc
    cases hc
  have hbracket : longBracket? (c :: v) = none := by
    rw [isSpace, Bool.or_eq_true, beq_iff_eq, beq_iff_eq] at hc
    rcases hc with rfl | rfl <;> rfl
  have hquote : isQuote c = false := by
    rw [isSpace, Bool.or_eq_true, beq_iff_eq, beq_iff_eq] at hc
    rcases hc with rfl | rfl <;> rfl
  rw [lexeme?_of_rules hcomment hbracket hquote, firstMatch_space hc, Option.map_some,
    Option.some.injEq, Prod.mk.injEq] at hfirst
  rw [← hfirst.1]

theorem lexeme_spaces (hw : ∀ c ∈ w, isSpace c = true) :
    Lexeme (Gap.space :: w) (plainToken .space (Gap.space :: w)) := by
  have hall : ∀ c ∈ Gap.space :: w, isSpace c = true := by
    intro c hc
    rcases List.mem_cons.mp hc with rfl | hc
    · rfl
    · exact hw c hc
  refine .plain ?_ rfl rfl ?_
  · rintro ⟨z, hz⟩
    exact absurd (List.cons.inj hz).1 (by decide)
  · rw [firstMatch_space rfl]
    exact congrArg (fun n => some (TokenKind.space, n)) (Recogniser.run_eq_length_iff.mpr hall)

theorem ReadAs.space {r : Bytes} {ts : List Token} (h : ReadAs r ts) :
    ∃ ts', ReadAs (Gap.space :: r) ts' ∧ solids ts' = solids ts := by
  obtain ⟨ls, hls, rfl⟩ := h
  cases hls with
  | nil => exact ⟨[spaceToken], ⟨[([32], spaceToken)], .cons lexeme_space (runsInto_nil _ _) .nil, rfl⟩, rfl⟩
  | @cons w r t ls hw hruns hr =>
    by_cases hkind : t.kind = .space
    · -- the two gaps are one
      have htext := hw.isText (by rw [hkind]; decide) (by rw [hkind]; decide)
      rw [hkind, hw.data_eq (by rw [hkind]; decide)] at htext
      rw [hkind] at hruns
      have hgap : t.isGap = true := by
        rw [Token.isGap, hkind]
        rfl
      refine ⟨_, ⟨_, .cons (lexeme_spaces htext) hruns hr, rfl⟩, ?_⟩
      rw [List.map_cons, List.map_cons, solids, solids, List.filter_cons_of_neg (by exact Bool.noConfusion),
        List.filter_cons_of_neg (by rw [hgap]; exact Bool.noConfusion)]
    · have hapart : runsInto .space [32] (w ++ r) = false := by
        obtain ⟨c, v, rfl⟩ := List.exists_cons_of_ne_nil hw.ne_nil
        rw [runsInto, List.cons_append, startsWith_cons]
        cases hc : isSpace c with
        | false => rfl
        | true => exact absurd (hw.kind_of_space hc) hkind
      exact ⟨_, ⟨_, .cons lexeme_space hapart (.cons hw hruns hr), rfl⟩, rfl⟩

theorem Spaced.readAs {s : Bytes} (h : Spaced s ws) : ∃ ts, ReadAs s ts ∧ solids ts = ws := by
  induction h with
  | nil => exact ⟨[], .nil, rfl⟩
  | space _ ih =>
    obtain ⟨ts, hts, rfl⟩ := ih
    exact hts.space
  | newline _ ih =>
    obtain ⟨_, ⟨ls, hls, rfl⟩, rfl⟩ := ih
    exact ⟨_, ⟨_, .cons lexeme_newline rfl hls, rfl⟩, rfl⟩
  | @word w r t ws hw ht hr _ ih =>
    obtain ⟨_, ⟨ls, hls, rfl⟩, rfl⟩ := ih
    have hbarrier : runsInto t.kind w r = false := by
      obtain ⟨c, r, rfl, hc⟩ := hr
      have hb : isBarrier c = true := by
        rcases hc with rfl | rfl <;> decide
      have hpass := runsInto_append_barrier hb ht w [] r
      rw [runsInto_nil] at hpass
      exact hpass
    refine ⟨_, ⟨_, .cons hw hbarrier hls, rfl⟩, ?_⟩
    rw [List.map_cons, solids, List.filter_cons_of_pos (by rw [ht]; rfl), solids]

/-! ### Steps -/

inductive Says : List Step → List Token → Prop
  | nil : Says [] []
  | gap (o : Owner) {steps : List Step} {ws : List Token} (h : Says steps ws) : Says (.gap o :: steps) ws
  | semicolons (o : Owner) {steps : List Step} {ws : List Token} (h : Says steps ws) :
      Says (.semicolons o :: steps) ws
  | indent {steps : List Step} {ws : List Token} (h : Says steps ws) : Says (.indent :: steps) ws
  | dedent {steps : List Step} {ws : List Token} (h : Says steps ws) : Says (.dedent :: steps) ws
  | text (o : Owner) {w : Bytes} {t : Token} {steps : List Step} {ws : List Token} (hw : Lexeme w t)
      (ht : t.isGap = false) (h : Says steps ws) : Says (.text o w :: steps) (t :: ws)
  | name (o : Owner) {u t : Token} {steps : List Step} {ws : List Token} (hw : Lexeme u.code t)
      (ht : t.isGap = false) (h : Says steps ws) : Says (.name o (.token u) :: steps) (t :: ws)
  | label (o : Owner) {b : Bytes} {t : Token} {steps : List Step} {ws : List Token} (hw : Lexeme b t)
      (ht : t.isGap = false) (h : Says steps ws) : Says (.name o (.label b) :: steps) (t :: ws)
  | put (o : Owner) {w : Bytes} {t : Token} {steps : List Step} {ws : List Token} (hw : Lexeme w t)
      (ht : t.isGap = false) (h : Says steps ws) : Says (.gap o :: .put w :: steps) (t :: ws)
  | take (o : Owner) {w : Bytes} {t : Token} {steps : List Step} {ws : List Token} (hw : Lexeme w t)
      (ht : t.isGap = false) (h : Says steps ws) : Says (.gap o :: .take w :: steps) (t :: ws)
  | comma (o : Owner) {steps : List Step} {ws : List Token} (h : Says steps ws) :
      Says (.gap o :: .put (Tree.word ", ") :: steps) (Token.symbol "," :: ws)

theorem Says.append {steps' : List Step} {ws' : List Token} (h : Says steps ws) (h' : Says steps' ws') :
    Says (steps ++ steps') (ws ++ ws') := by
  induction h with
  | nil => exact h'
  | gap o _ ih => exact .gap o ih
  | semicolons o _ ih => exact .semicolons o ih
  | indent _ ih => exact .indent ih
  | dedent _ ih => exact .dedent ih
  | text o hw ht _ ih => exact .text o hw ht ih
  | name o hw ht _ ih => exact .name o hw ht ih
  | label o hw ht _ ih => exact .label o hw ht ih
  | put o hw ht _ ih => exact .put o hw ht ih
  | take o hw ht _ ih => exact .take o hw ht ih
  | comma o _ ih => exact .comma o ih

theorem lexeme_of_mem_keywords (h : w ∈ keywords) : Lexeme w (plainToken .keyword w) := by
  have hall : ∀ w ∈ keywords, lexeme? w = some (plainToken .keyword w, w.length) := by decide +kernel
  exact lexeme?_eq_length_iff.mp (hall w h)

theorem lexeme_of_mem_symbols (h : w ∈ symbols) : Lexeme w (plainToken .symbol w) := by
  have hall : ∀ w ∈ symbols, lexeme? w = some (plainToken .symbol w, w.length) := by decide +kernel
  exact lexeme?_eq_length_iff.mp (hall w h)

theorem Says.reserved (o : Owner) {s : String} (hs : Bytes.ofText s ∈ keywords) (h : Says steps ws) :
    Says (.text o (Tree.word s) :: steps) (Token.keyword s :: ws) :=
  .text o (lexeme_of_mem_keywords hs) rfl h

theorem Says.sign (o : Owner) {s : String} (hs : Bytes.ofText s ∈ symbols) (h : Says steps ws) :
    Says (.text o (Tree.word s) :: steps) (Token.symbol s :: ws) :=
  .text o (lexeme_of_mem_symbols hs) rfl h

/-! ### The text -/

/-- The pieces, behind a newline or not, and the newline at the end are a text of the words. -/
structure Inked (ps : List Bytes) (ws : List Token) : Prop where
  spaced : ∀ b, Spaced (Pen.joined true b ps ++ [Bytes.newline]) ws
  blanked : Blanked (Pen.joined true false ps ++ [Bytes.newline])

namespace Inked

variable {ps : List Bytes} {ws : List Token} {w : Bytes} {t : Token}

theorem nil : Inked [] [] := ⟨fun _ => .newline .nil, ⟨_, _, rfl, .inr rfl⟩⟩

theorem newline (h : Inked ps ws) : Inked ([Bytes.newline] :: ps) ws := by
  refine ⟨fun b => ?_, ⟨_, _, rfl, .inr rfl⟩⟩
  cases b with
  | true => exact h.spaced true
  | false => exact .newline (h.spaced true)

theorem space (h : Inked ps ws) : Inked ([Gap.space] :: ps) ws :=
  ⟨fun _ => .space (h.spaced false), ⟨_, _, rfl, .inl rfl⟩⟩

theorem joined_cons {s : Bytes} (hs : s ≠ [Bytes.newline]) (b : Bool) :
    Pen.joined true b (s :: ps) = s ++ Pen.joined true false ps := by
  rw [Pen.joined, if_neg hs]

theorem word (hw : Lexeme w t) (ht : t.isGap = false) (h : Inked ps ws) :
    Inked ((Gap.space :: w) :: ps) (t :: ws) := by
  have hne : Gap.space :: w ≠ [Bytes.newline] := fun heq => absurd (List.cons.inj heq).1 (by decide)
  refine ⟨fun b => ?_, ?_⟩
  · rw [joined_cons hne, List.cons_append, List.cons_append, List.append_assoc]
    exact .space (.word hw ht h.blanked (h.spaced false))
  · rw [joined_cons hne]
    exact ⟨_, _, rfl, .inl rfl⟩

theorem bare (hw : Lexeme w t) (ht : t.isGap = false) (h : Inked ps ws) :
    Inked ([Bytes.newline] :: w :: ps) (t :: ws) := by
  have hne : w ≠ [Bytes.newline] := by
    rintro rfl
    rw [hw.isGap_of_blank (.inr (.inl rfl))] at ht
    cases ht
  have hspaced : Spaced (Pen.joined true true (w :: ps) ++ [Bytes.newline]) (t :: ws) := by
    rw [joined_cons hne, List.append_assoc]
    exact .word hw ht h.blanked (h.spaced false)
  refine ⟨fun b => ?_, ⟨_, _, rfl, .inr rfl⟩⟩
  cases b with
  | true => exact hspaced
  | false => exact .newline hspaced

theorem comma (h : Inked ps ws) :
    Inked ([Bytes.newline] :: Tree.word ", " :: ps) (Token.symbol "," :: ws) := by
  have hcomma : Lexeme [44] (Token.symbol ",") := lexeme_of_mem_symbols (by decide)
  have hspaced : Spaced ([44] ++ Gap.space :: (Pen.joined true false ps ++ [Bytes.newline]))
      (Token.symbol "," :: ws) :=
    .word hcomma rfl ⟨_, _, rfl, .inl rfl⟩ (.space (h.spaced false))
  refine ⟨fun b => ?_, ⟨_, _, rfl, .inr rfl⟩⟩
  cases b with
  | true => exact hspaced
  | false => exact .newline hspaced

end Inked

def plainly : Manner := { plain := true }

def Puts (toks : Array Token) (steps : List Step) (ps : List Bytes) : Prop :=
  ∀ p : Pen, ∃ q, Pen.carryOutAll plainly toks steps p = .ok () q ∧
    q.pieces.toList = p.pieces.toList ++ ps

theorem Puts.cons {toks : Array Token} {s : Step} {new ps : List Bytes}
    (hs : ∀ p : Pen, ∃ q, Pen.carryOut plainly toks s p = .ok () q ∧
      q.pieces.toList = p.pieces.toList ++ new) (h : Puts toks steps ps) :
    Puts toks (s :: steps) (new ++ ps) := by
  intro p
  obtain ⟨q, hq, hnew⟩ := hs p
  obtain ⟨q', hq', hps⟩ := h q
  refine ⟨q', ?_, by rw [hps, hnew, List.append_assoc]⟩
  show EStateM.bind (Pen.carryOut plainly toks s) (fun _ => Pen.carryOutAll plainly toks steps) p = _
  rw [EStateM.bind, hq]
  exact hq'

theorem Puts.piece {toks : Array Token} {s : Step} {ps : List Bytes}
    (hs : ∀ p : Pen, Pen.carryOut plainly toks s p = .ok () { p with pieces := p.pieces.push w })
    (h : Puts toks steps ps) : Puts toks (s :: steps) (w :: ps) :=
  .cons (fun p => ⟨_, hs p, Array.toList_push⟩) h

theorem Says.puts (h : Says steps ws) (toks : Array Token) : ∃ ps, Puts toks steps ps ∧ Inked ps ws := by
  induction h with
  | nil => exact ⟨[], fun p => ⟨p, rfl, by simp⟩, .nil⟩
  | gap o _ ih =>
    obtain ⟨ps, hps, hinked⟩ := ih
    exact ⟨_, .piece (fun _ => rfl) hps, hinked.newline⟩
  | semicolons o _ ih =>
    obtain ⟨ps, hps, hinked⟩ := ih
    exact ⟨_, .piece (fun _ => rfl) hps, hinked.space⟩
  | indent _ ih | dedent _ ih =>
    obtain ⟨ps, hps, hinked⟩ := ih
    refine ⟨[] ++ ps, .cons (fun p => ?_) hps, hinked⟩
    exact ⟨_, rfl, by rw [List.append_nil]⟩
  | text o hw ht _ ih | name o hw ht _ ih | label o hw ht _ ih =>
    obtain ⟨ps, hps, hinked⟩ := ih
    exact ⟨_, .piece (fun _ => rfl) hps, hinked.word hw ht⟩
  | put o hw ht _ ih | take o hw ht _ ih =>
    obtain ⟨ps, hps, hinked⟩ := ih
    exact ⟨_, .piece (fun _ => rfl) (.piece (fun _ => rfl) hps), hinked.bare hw ht⟩
  | comma o _ ih =>
    obtain ⟨ps, hps, hinked⟩ := ih
    exact ⟨_, .piece (fun _ => rfl) (.piece (fun _ => rfl) hps), hinked.comma⟩

theorem Tree.write_of_saying {root : Tree} (h : Says (root.script true) ws) (toks : Array Token) :
    (root.write plainly toks).failure = none ∧
      ∃ text ts, (root.write plainly toks).lines = Bytes.lines text ∧ ReadAs text ts ∧ solids ts = ws := by
  obtain ⟨ps, hputs, hinked⟩ := h.puts toks
  obtain ⟨q, hrun, hpieces⟩ := hputs {}
  obtain ⟨ts, hts, hsolids⟩ := (hinked.spaced false).readAs
  have hwrite : (Pen.writeScript plainly toks (root.script true)).run {} = .ok [Bytes.newline] q := by
    show EStateM.bind (Pen.carryOutAll plainly toks _) (fun _ => Pen.gap plainly toks .program) {} = _
    rw [EStateM.bind, hrun]
    rfl
  rw [Tree.write]
  simp only [plainly] at hwrite ⊢
  rw [hwrite]
  refine ⟨rfl, _, ts, rfl, ?_, hsolids⟩
  rw [hpieces]
  exact hts

end Cartridge.Lua
