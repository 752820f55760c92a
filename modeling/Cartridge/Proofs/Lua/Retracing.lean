import Cartridge.Lua.Writing.Stream
import Cartridge.Proofs.Lua.Derivation
import Cartridge.Proofs.Lua.Joining
import Cartridge.Proofs.Text.Lines

/-!
# Retracing the source

A pen that writes as in the source moves over the tokens while it writes.  It is in step with them as
long as the text that it adds is the text of the tokens it passes.  This is stated for an act that
returns a text, for steps in a row, and for steps that may start anywhere in the gap before a phrase.
-/

namespace Cartridge.Lua

variable {count i j m stop : Nat} {p : Pen} {ps : List Pattern} {s : Spelling} {t : Token}

namespace Pen

open Grammar

/-! ### Acts -/

section Acts

variable {α β : Type} {toks : Array Token}

theorem bind_eq_ok {x : Write α} {f : α → Write β} {q r : Pen} {a : α} {b : β} (hx : x p = .ok a q)
    (hf : f a q = .ok b r) : (x >>= f) p = .ok b r := by
  show EStateM.bind x f p = .ok b r
  rw [EStateM.bind, hx]
  exact hf

theorem next_eq (h : toks[p.pos]? = some t) : next toks p = .ok t p := by
  show (next toks).run p = .ok t p
  rw [next, EStateM.run_bind, EStateM.run_get]
  dsimp only
  rw [h]
  rfl

theorem within_eq (stop : Nat) (p : Pen) :
    within toks (.upTo stop) p = .ok (decide (p.pos < stop)) p :=
  rfl

structure Yields (toks : Array Token) (act : Write Bytes) (i j : Nat) : Prop where
  le : i ≤ j
  run : ∀ p : Pen, p.pos = i → act p = .ok (sourceText (between toks i j)) { p with pos := j }

def GapEnds (toks : Array Token) (stop j : Nat) : Prop :=
  j = stop ∨ j < stop ∧ ∃ t, toks[j]? = some t ∧ t.isGap = false

theorem gapEnds_of_takes (h : Takes toks ps i t m) (hm : m < stop) : GapEnds toks stop m :=
  .inr ⟨hm, t, h.get, h.solid⟩

theorem takeGap_end (hend : GapEnds toks stop p.pos) (count : Nat) :
    takeGap toks (.upTo stop) (count + 1) p = .ok [] p := by
  refine bind_eq_ok (within_eq stop p) ?_
  rcases hend with heq | ⟨hlt, t, ht, hgap⟩
  · rw [decide_eq_false (by omega)]
    rfl
  · rw [decide_eq_true hlt]
    refine bind_eq_ok (next_eq ht) ?_
    rw [hgap]
    rfl

theorem takeGap_cons {q : Pen} {ts : List Token} (hlt : p.pos < stop) (ht : toks[p.pos]? = some t)
    (hgap : t.isGap = true) (hrest : takeGap toks (.upTo stop) count { p with pos := p.pos + 1 } = .ok ts q) :
    takeGap toks (.upTo stop) (count + 1) p = .ok (t :: ts) q := by
  refine bind_eq_ok (within_eq stop p) ?_
  rw [decide_eq_true hlt]
  refine bind_eq_ok (next_eq ht) ?_
  rw [hgap]
  exact bind_eq_ok rfl (bind_eq_ok hrest rfl)

theorem between_cons (ht : toks[i]? = some t) (hij : i < j) :
    between toks i j = t :: between toks (i + 1) j := by
  rw [← between_append (Nat.le_succ i) hij, between_succ ht]
  rfl

theorem takeGap_eq (hend : GapEnds toks stop j) (hblank : Blank toks p.pos j) (hcount : j < p.pos + count) :
    takeGap toks (.upTo stop) count p = .ok (between toks p.pos j) { p with pos := j } := by
  have hle := hblank.le
  induction count generalizing p with
  | zero => omega
  | succ count ih =>
    by_cases hpos : p.pos = j
    · subst hpos
      rw [takeGap_end hend, between_self]
    · obtain ⟨t, ht, hgap⟩ := hblank.gap p.pos (Nat.le_refl _) (by omega)
      have hlt : p.pos < stop := by
        rcases hend with rfl | ⟨hlt, -⟩ <;> omega
      have hlater : p.pos + 1 ≤ j := by omega
      have hrest := @ih { p with pos := p.pos + 1 } (hblank.of_le (Nat.le_succ _) hlater)
        (show j < p.pos + 1 + count by omega) hlater
      rw [between_cons ht (by omega)]
      exact takeGap_cons hlt ht hgap hrest

theorem gap_yields (hend : GapEnds toks stop j) (hblank : Blank toks i j) (hsize : j ≤ toks.size) :
    Yields toks (gap {} toks (.upTo stop)) i j := by
  refine ⟨hblank.le, ?_⟩
  rintro p rfl
  exact bind_eq_ok (takeGap_eq hend hblank (by omega)) rfl

theorem exists_gapEnds (hstop : stop ≤ toks.size) (hi : i ≤ stop) :
    ∃ j, Blank toks i j ∧ j ≤ stop ∧ GapEnds toks stop j := by
  induction hn : stop - i generalizing i with
  | zero => exact ⟨i, .refl toks i, hi, .inl (by omega)⟩
  | succ n ih =>
    obtain ⟨t, ht⟩ : ∃ t, toks[i]? = some t := ⟨_, Array.getElem?_eq_getElem (by omega)⟩
    cases hgap : t.isGap with
    | false => exact ⟨i, .refl toks i, hi, .inr ⟨by omega, t, ht, hgap⟩⟩
    | true =>
      obtain ⟨j, hblank, hj, hend⟩ := ih (i := i + 1) (by omega) (by omega)
      refine ⟨j, .trans ⟨Nat.le_succ i, fun n hin hni => ?_⟩ hblank, hj, hend⟩
      obtain rfl : n = i := by omega
      exact ⟨t, ht, hgap⟩

@[simp] theorem sourceText_append (ts us : List Token) :
    sourceText (ts ++ us) = sourceText ts ++ sourceText us :=
  List.flatMap_append

@[simp] theorem sourceText_nil : sourceText [] = [] := rfl

@[simp] theorem sourceText_singleton (t : Token) : sourceText [t] = t.code :=
  List.append_nil _

structure IsWord (t : Token) (word : Bytes) : Prop where
  code_eq : t.code = word
  agrees : (t.agrees { kind := .keyword, data := word } ||
    t.agrees { kind := .symbol, data := word }) = true

theorem textFor_yields {word : Bytes} (h : Takes toks ps i t m) (hend : GapEnds toks stop m)
    (hword : IsWord t word) : Yields toks (textFor {} toks (.upTo stop) word) i (m + 1) := by
  have hgap := gap_yields hend h.blank (Nat.le_of_lt h.lt_size)
  refine ⟨Nat.le_succ_of_le h.blank.le, ?_⟩
  intro p hp
  refine bind_eq_ok (hgap.run p hp) (bind_eq_ok (next_eq h.get) ?_)
  rw [if_pos hword.agrees, h.between_eq, sourceText_append, sourceText_singleton, hword.code_eq]
  exact bind_eq_ok rfl rfl

def Spells : Spelling → Bytes → Prop
  | .token t, text => t.kind = .name ∧ t.code = text
  | .label name, text => name = text
  | _, _ => False

theorem nameFor_eq {text : Bytes} (h : Takes toks ps p.pos t m) (hend : GapEnds toks stop m)
    (hs : Spells s text) :
    nameFor {} toks (.upTo stop) s p =
      .ok (sourceText (between toks p.pos m) ++ text) { p with pos := m + 1 } := by
  have hgap := gap_yields hend h.blank (Nat.le_of_lt h.lt_size)
  refine bind_eq_ok (hgap.run p rfl) ?_
  cases s with
  | token u =>
    have hcheck : ∀ q : Pen, checkName (.token u) q = .ok () q := by
      intro q
      rw [checkName, hs.1]
      rfl
    rw [← hs.2]
    exact bind_eq_ok (hcheck _) (bind_eq_ok rfl (bind_eq_ok rfl rfl))
  | label name =>
    rw [← (show name = text from hs)]
    exact bind_eq_ok rfl (bind_eq_ok rfl (bind_eq_ok rfl rfl))
  | noToken => cases hs
  | noName => cases hs

theorem nameFor_yields (h : Takes toks ps i t m) (hend : GapEnds toks stop m) (hs : Spells s t.code) :
    Yields toks (nameFor {} toks (.upTo stop) s) i (m + 1) := by
  refine ⟨Nat.le_succ_of_le h.blank.le, ?_⟩
  rintro p rfl
  rw [nameFor_eq h hend hs, h.between_eq, sourceText_append, sourceText_singleton]

theorem eq_of_solid {u : Token} (h : Takes toks ps i t m) (hu : toks[i]? = some u) (hsolid : u.isGap = false) :
    m = i := by
  rcases Nat.lt_or_ge i m with hlt | hge
  · obtain ⟨v, hv, hgap⟩ := h.blank.gap i (Nat.le_refl i) hlt
    rw [hu, Option.some.injEq] at hv
    rw [← hv, hsolid] at hgap
    cases hgap
  · exact Nat.le_antisymm hge h.blank.le

theorem code_of_agrees_symbol {s : String} (h : t.agrees (Token.symbol s) = true) :
    t.code = Bytes.ofText s := by
  have hkind : t.kind = .symbol := kind_eq_of_agrees h
  rw [Token.code_of_ne_string (by rw [hkind]; decide)]
  simpa [Token.agrees, hkind, Token.symbol] using h

theorem not_agrees_of_symbol {s s' : String} (h : t.agrees (Token.symbol s) = true)
    (hne : Bytes.ofText s ≠ Bytes.ofText s') : t.agrees (Token.symbol s') = false := by
  rw [← Bool.not_eq_true]
  intro h'
  exact hne ((code_of_agrees_symbol h).symm.trans (code_of_agrees_symbol h'))

theorem semicolonsFor_yields {k : Nat} (h : Semicolons toks i k) (hblank : Blank toks k m)
    (hend : GapEnds toks stop m) (ht : toks[m]? = some t) (hother : t.agrees (Token.symbol ";") = false)
    {p : Nat} (hp : Blank toks i p) (hle : p ≤ m) (hcount : m < p + count) :
    Yields toks (semicolonsFor {} toks (.upTo stop) (Bytes.ofText ";") count) p m := by
  have hsize : m < toks.size := (Array.getElem?_eq_some_iff.mp ht).1
  have hstop : m ≤ stop := by
    rcases hend with rfl | ⟨hlt, -⟩ <;> omega
  induction h generalizing p count with
  | nil i =>
    obtain ⟨count, rfl⟩ : ∃ c, count = c + 1 := ⟨count - 1, by omega⟩
    have hgap := gap_yields hend (hblank.of_le hp.le hle) (Nat.le_of_lt hsize)
    refine ⟨hle, ?_⟩
    intro pen hpen
    refine bind_eq_ok (hgap.run pen hpen) (bind_eq_ok (next_eq ht) ?_)
    rw [hother]
    rfl
  | @cons i n k u h rest ih =>
    obtain ⟨count, rfl⟩ : ∃ c, count = c + 1 := ⟨count - 1, by omega⟩
    have hpn := h.le_of_blank hp
    have hnk := rest.le
    have hkm := hblank.le
    have hsemi : u.agrees (Token.symbol ";") = true := by simpa [Token.fits] using h.fits
    have hends : GapEnds toks stop n := gapEnds_of_takes h (by omega)
    have hgap := gap_yields hends (h.moved hp).blank (Nat.le_of_lt h.lt_size)
    have hrest := @ih count hblank (n + 1) (.refl toks _) (by omega) (by omega)
    refine ⟨hle, ?_⟩
    intro pen hpen
    refine bind_eq_ok (hgap.run pen hpen) (bind_eq_ok (next_eq h.get) ?_)
    rw [if_pos hsemi, ← between_append hpn (show n ≤ m by omega), between_cons h.get (by omega)]
    refine bind_eq_ok rfl (bind_eq_ok (hrest.run _ rfl) ?_)
    simp [sourceText, code_of_agrees_symbol hsemi]
    rfl

end Acts

/-! ### Steps -/

def text (p : Pen) : Bytes := p.pieces.toList.flatten

@[simp] theorem text_push (p : Pen) (s : Bytes) :
    text { p with pieces := p.pieces.push s } = p.text ++ s := by
  simp [text]

/-- The pen has gone on to `j` and written the text of the tokens it has passed; the values that are
open are the same. -/
structure Passed (toks : Array Token) (p : Pen) (j : Nat) (q : Pen) : Prop where
  pos_eq : q.pos = j
  parens_eq : q.parens = p.parens
  text_eq : q.text = p.text ++ sourceText (between toks p.pos j)

structure Traces (toks : Array Token) (steps : List Step) (i j : Nat) : Prop where
  le : i ≤ j
  run : ∀ p : Pen, p.pos = i → ∃ q, carryOutAll {} toks steps p = .ok () q ∧ Passed toks p j q

section Steps

variable {toks : Array Token} {steps more : List Step} {i k j : Nat}

theorem Traces.nil (toks : Array Token) (i : Nat) : Traces toks [] i i := by
  refine ⟨Nat.le_refl i, ?_⟩
  rintro p rfl
  exact ⟨p, rfl, rfl, rfl, by rw [between_self]; simp⟩

theorem carryOutAll_append (steps more : List Step) :
    carryOutAll {} toks (steps ++ more) =
      (do carryOutAll {} toks steps; carryOutAll {} toks more) := by
  induction steps with
  | nil => rfl
  | cons s steps ih => rw [List.cons_append, carryOutAll, carryOutAll, ih, bind_assoc]

theorem Traces.append (h : Traces toks steps i k) (h' : Traces toks more k j) :
    Traces toks (steps ++ more) i j := by
  refine ⟨Nat.le_trans h.le h'.le, ?_⟩
  rintro p rfl
  obtain ⟨q, hq, hpq⟩ := h.run p rfl
  obtain ⟨r, hr, hqr⟩ := h'.run q hpq.pos_eq
  refine ⟨r, ?_, hqr.pos_eq, hqr.parens_eq.trans hpq.parens_eq, ?_⟩
  · rw [carryOutAll_append]
    exact bind_eq_ok hq hr
  rw [hqr.text_eq, hpq.text_eq, hpq.pos_eq, List.append_assoc, ← sourceText_append,
    between_append h.le h'.le]

theorem Traces.of_step {s : Step} (hle : i ≤ j) (h : ∀ p : Pen, p.pos = i →
    ∃ q, carryOut {} toks s p = .ok () q ∧ Passed toks p j q) : Traces toks [s] i j := by
  refine ⟨hle, ?_⟩
  intro p hp
  obtain ⟨q, hq, hpq⟩ := h p hp
  exact ⟨q, bind_eq_ok hq rfl, hpq⟩

theorem Traces.of_yields {s : Step} {act : Write Bytes} (h : Yields toks act i j)
    (hs : carryOut {} toks s = do put (← act)) : Traces toks [s] i j := by
  refine .of_step h.le ?_
  rintro p rfl
  rw [hs]
  exact ⟨_, bind_eq_ok (h.run p rfl) rfl, rfl, rfl, text_push _ _⟩

theorem Traces.of_still {s : Step} (f : Pen → Pen) (hs : carryOut {} toks s = modify f)
    (hpos : ∀ p, (f p).pos = p.pos) (hparens : ∀ p, (f p).parens = p.parens)
    (hpieces : ∀ p, (f p).pieces = p.pieces) (i : Nat) : Traces toks [s] i i := by
  refine .of_step (Nat.le_refl i) ?_
  rintro p rfl
  rw [hs]
  refine ⟨f p, rfl, hpos p, hparens p, ?_⟩
  rw [between_self, text, hpieces p]
  simp [text]

theorem traces_indent (toks : Array Token) (i : Nat) : Traces toks [.indent] i i :=
  .of_still (fun p => { p with depth := p.depth + 1 }) rfl (fun _ => rfl) (fun _ => rfl)
    (fun _ => rfl) i

theorem traces_dedent (toks : Array Token) (i : Nat) : Traces toks [.dedent] i i :=
  .of_still (fun p => { p with depth := p.depth - 1 }) rfl (fun _ => rfl) (fun _ => rfl)
    (fun _ => rfl) i

theorem traces_gap (hend : GapEnds toks stop j) (hblank : Blank toks i j) (hsize : j ≤ toks.size) :
    Traces toks [.gap (.upTo stop)] i j :=
  .of_yields (gap_yields hend hblank hsize) rfl

theorem traces_text {word : Bytes} (h : Takes toks ps i t m) (hm : m < stop) (hword : IsWord t word) :
    Traces toks [.text (.upTo stop) word] i (m + 1) :=
  .of_yields (textFor_yields h (gapEnds_of_takes h hm) hword) rfl

theorem traces_name (h : Takes toks ps i t m) (hm : m < stop) (hs : Spells s t.code) :
    Traces toks [.name (.upTo stop) s] i (m + 1) :=
  .of_yields (nameFor_yields h (gapEnds_of_takes h hm) hs) rfl

theorem traces_semicolons {k : Nat} (h : Semicolons toks i k) (hblank : Blank toks k m)
    (hend : GapEnds toks stop m) (ht : toks[m]? = some t) (hother : t.agrees (Token.symbol ";") = false)
    {p : Nat} (hp : Blank toks i p) (hle : p ≤ m) : Traces toks [.semicolons (.upTo stop)] p m := by
  have hsize : m < toks.size := (Array.getElem?_eq_some_iff.mp ht).1
  exact .of_yields (semicolonsFor_yields h hblank hend ht hother hp hle (by omega)) rfl

theorem traces_take (ht : toks[i]? = some t) : Traces toks [.take t.code] i (i + 1) := by
  refine .of_step (Nat.le_succ i) ?_
  rintro p rfl
  refine ⟨{ p with pieces := p.pieces.push t.code, pos := p.pos + 1 }, rfl, rfl, rfl, ?_⟩
  rw [between_succ ht, sourceText_singleton]
  exact text_push p t.code

theorem traces_check (ht : toks[i]? = some t) : Traces toks [.check t] i i := by
  refine .of_step (Nat.le_refl i) ?_
  rintro p rfl
  have hself : t.agrees t = true := by simp [Token.agrees]
  refine ⟨p, bind_eq_ok (next_eq ht) ?_, rfl, rfl, ?_⟩
  · rw [hself]
    rfl
  · rw [between_self]
    simp

theorem traces_label {name colons : Bytes} (h : Takes toks ps i t i) (hi : i < stop)
    (hcode : t.code = colons ++ name ++ colons) :
    Traces toks [.put colons, .name (.upTo stop) (.label name), .put colons] i (i + 1) := by
  refine ⟨Nat.le_succ i, ?_⟩
  rintro p rfl
  have hname : nameFor {} toks (.upTo stop) (.label name) { p with pieces := p.pieces.push colons } =
      .ok (sourceText (between toks p.pos p.pos) ++ name)
        { p with pieces := p.pieces.push colons, pos := p.pos + 1 } :=
    nameFor_eq h (gapEnds_of_takes h hi) rfl
  rw [between_self] at hname
  refine ⟨_, bind_eq_ok rfl (bind_eq_ok (bind_eq_ok hname rfl) (bind_eq_ok rfl rfl)), rfl, rfl, ?_⟩
  rw [between_succ h.get, sourceText_singleton, hcode]
  simp [text]

theorem isWord_of_agrees_symbol {s : String} (h : t.agrees (Token.symbol s) = true) :
    IsWord t (Bytes.ofText s) := by
  refine ⟨code_of_agrees_symbol h, ?_⟩
  rw [Bool.or_eq_true]
  exact .inr h

theorem traces_separator (h : Takes toks ps i t i) (hi : i < stop) (hword : IsWord t t.code) :
    Traces toks [.separator (.upTo stop)] i (i + 1) := by
  have htext := textFor_yields h (gapEnds_of_takes h hi) hword
  refine .of_step htext.le ?_
  rintro p rfl
  refine ⟨_, bind_eq_ok (next_eq h.get) (bind_eq_ok (htext.run p rfl) rfl), rfl, rfl, text_push _ _⟩

theorem traces_lastSeparator (h : Takes toks ps i t i) (hi : i < stop) (hword : IsWord t t.code)
    (ht : (t.agrees (Token.symbol ",") || t.agrees (Token.symbol ";")) = true) :
    Traces toks [.lastSeparator (.upTo stop)] i (i + 1) := by
  have htext := textFor_yields h (gapEnds_of_takes h hi) hword
  refine .of_step htext.le ?_
  rintro p rfl
  refine ⟨{ p with
    pos := p.pos + 1, pieces := p.pieces.push (sourceText (between toks p.pos (p.pos + 1))) },
    bind_eq_ok (next_eq h.get) ?_, rfl, rfl, text_push p _⟩
  rw [if_pos ht]
  exact bind_eq_ok (htext.run p rfl) rfl

theorem traces_lastSeparator_none (ht : toks[i]? = some t)
    (hnone : (t.agrees (Token.symbol ",") || t.agrees (Token.symbol ";")) = false) :
    Traces toks [.lastSeparator (.upTo stop)] i i := by
  refine .of_step (Nat.le_refl i) ?_
  rintro p rfl
  refine ⟨p, bind_eq_ok (next_eq ht) ?_, rfl, rfl, ?_⟩
  · rw [hnone]
    rfl
  · rw [between_self]
    simp

theorem Traces.bracketed {u : Token} (ht : toks[i]? = some t) (hopen : t.agrees (Token.symbol "(") = true)
    (h : Traces toks steps (i + 1) k) (hclose : Takes toks ps k u m) (hend : GapEnds toks stop m)
    (hu : u.agrees (Token.symbol ")") = true) :
    Traces toks (.openIf :: (steps ++ [.closeIf (.upTo stop)])) i (m + 1) := by
  have hik := h.le
  have hkm := hclose.blank.le
  have htext := textFor_yields hclose hend (isWord_of_agrees_symbol hu)
  refine ⟨by omega, ?_⟩
  rintro p rfl
  -- the pen behind the opening parenthesis, and behind the value
  let p₁ : Pen := { p with
    pos := p.pos + 1, depth := p.depth + 1, pieces := p.pieces.push (Bytes.ofText "(")
    parens := true :: p.parens }
  have hfirst : carryOut {} toks .openIf p = .ok () p₁ := by
    refine bind_eq_ok (next_eq ht) ?_
    rw [if_pos hopen]
    rfl
  obtain ⟨q, hq, hpq⟩ := h.run p₁ rfl
  let q₁ : Pen := { q with
    pos := m + 1, depth := q.depth - 1, parens := p.parens
    pieces := q.pieces.push (sourceText (between toks k (m + 1))) }
  have hlast : carryOut {} toks (.closeIf (.upTo stop)) q = .ok () q₁ := by
    refine bind_eq_ok (rfl : (get : Write Pen) q = .ok q q) ?_
    rw [hpq.parens_eq]
    exact bind_eq_ok rfl (bind_eq_ok rfl (bind_eq_ok (htext.run _ hpq.pos_eq) rfl))
  refine ⟨q₁, bind_eq_ok hfirst ?_, rfl, rfl, ?_⟩
  · rw [carryOutAll_append]
    exact bind_eq_ok hq (bind_eq_ok hlast rfl)
  · have hq₁ : q₁.text = q.text ++ sourceText (between toks k (m + 1)) := text_push q _
    have hp₁ : p₁.text = p.text ++ Bytes.ofText "(" := text_push p _
    rw [hq₁, hpq.text_eq, hp₁, List.append_assoc, List.append_assoc, ← sourceText_append,
      between_append hik (by omega), between_cons ht (by omega), ← code_of_agrees_symbol hopen]
    rfl

theorem Traces.unbracketed (ht : toks[i]? = some t) (hopen : t.agrees (Token.symbol "(") = false)
    (h : Traces toks steps i j) : Traces toks (.openIf :: (steps ++ [.closeIf (.upTo stop)])) i j := by
  refine ⟨h.le, ?_⟩
  rintro p rfl
  let p₁ : Pen := { p with parens := false :: p.parens }
  have hfirst : carryOut {} toks .openIf p = .ok () p₁ := by
    refine bind_eq_ok (next_eq ht) ?_
    rw [hopen]
    rfl
  obtain ⟨q, hq, hpq⟩ := h.run p₁ rfl
  have hlast : carryOut {} toks (.closeIf (.upTo stop)) q = .ok () { q with parens := p.parens } := by
    refine bind_eq_ok (rfl : (get : Write Pen) q = .ok q q) ?_
    rw [hpq.parens_eq]
    rfl
  refine ⟨{ q with parens := p.parens }, bind_eq_ok hfirst ?_, hpq.pos_eq, rfl, hpq.text_eq⟩
  rw [carryOutAll_append]
  exact bind_eq_ok hq (bind_eq_ok hlast rfl)

end Steps

/-! ### Phrases -/

def Follows (toks : Array Token) (steps : List Step) (i j : Nat) : Prop :=
  ∀ p, Blank toks i p → p ≤ j → Traces toks steps p j

section Phrases

variable {toks : Array Token} {steps : List Step} {i j : Nat}

theorem Follows.traces (h : Follows toks steps i j) (hij : i ≤ j) : Traces toks steps i j :=
  h i (.refl toks i) hij

theorem Follows.moved (h : Follows toks steps i j) {p : Nat} (hp : Blank toks i p) :
    Follows toks steps p j :=
  fun q hq hle => h q (hp.trans hq) hle

theorem Follows.gap_before (h : Follows toks steps i j) (hend : GapEnds toks stop j) (hsize : j ≤ toks.size) :
    Follows toks (.gap (.upTo stop) :: steps) i j := by
  intro p hp hle
  obtain ⟨k, hblank, hk, hends⟩ := exists_gapEnds hsize hle
  have hstop : GapEnds toks stop k := by
    rcases hends with rfl | ⟨hlt, hsolid⟩
    · exact hend
    · refine .inr ⟨?_, hsolid⟩
      rcases hend with rfl | ⟨hlt', -⟩ <;> omega
  exact (traces_gap hstop hblank (Nat.le_trans hk hsize)).append (h k (hp.trans hblank) hk)

theorem Follows.gap (h : Follows toks steps i j) (hsize : j ≤ toks.size) :
    Follows toks (.gap (.upTo j) :: steps) i j :=
  h.gap_before (.inl rfl) hsize

end Phrases

/-! ### Whole programs -/

theorem joined_false (afterNewline : Bool) (pieces : List Bytes) :
    joined false afterNewline pieces = pieces.flatten := by
  induction pieces generalizing afterNewline with
  | nil => rfl
  | cons s rest ih => by_cases hs : s = [Bytes.newline] <;> simp [joined, hs, ih]

theorem takeGap_program (toks : Array Token) (count : Nat) :
    takeGap toks .program count = takeGap toks (.upTo toks.size) count := by
  induction count with
  | zero => rfl
  | succ count ih =>
    have hwithin : within toks .program = within toks (.upTo toks.size) := rfl
    rw [takeGap, takeGap, ih, hwithin]

theorem gap_program (toks : Array Token) :
    gap {} toks .program = gap {} toks (.upTo toks.size) := by
  show (do return sourceText (← takeGap toks .program (toks.size + 1))) =
    (do return sourceText (← takeGap toks (.upTo toks.size) (toks.size + 1)) : Write Bytes)
  rw [takeGap_program]

end Pen

theorem Tree.write_of_traces_before {toks : Array Token} {root : Tree}
    (h : Pen.Traces toks (root.script false) 0 stop) (hrest : Grammar.Blank toks stop m)
    (hend : Pen.GapEnds toks toks.size m) :
    (root.write {} toks).failure = none ∧
      (root.write {} toks).lines = Bytes.lines (Pen.sourceText (Grammar.between toks 0 m)) := by
  obtain ⟨q, hq, hpassed⟩ := h.run {} rfl
  have hsize : m ≤ toks.size := by
    rcases hend with rfl | ⟨hlt, -⟩ <;> omega
  have hgap := Pen.gap_yields hend hrest hsize
  have hrun : (Pen.writeScript {} toks (root.script false)).run {} =
      .ok (Pen.sourceText (Grammar.between toks stop m)) { q with pos := m } := by
    refine Pen.bind_eq_ok hq ?_
    rw [Pen.gap_program]
    exact hgap.run q hpassed.pos_eq
  have htext : q.text = Pen.sourceText (Grammar.between toks 0 stop) := hpassed.text_eq
  have hwrite : root.write {} toks = { lines := Bytes.lines (Pen.joined false false q.pieces.toList ++
      Pen.sourceText (Grammar.between toks stop m)), renamed := q.names.given } := by
    simp only [Tree.write, hrun]
  rw [hwrite]
  refine ⟨rfl, ?_⟩
  dsimp only
  rw [Pen.joined_false, ← Pen.text, htext, ← Pen.sourceText_append,
    Grammar.between_append h.le hrest.le]

theorem Tree.write_of_traces {toks : Array Token} {root : Tree}
    (h : Pen.Traces toks (root.script false) 0 stop) (hrest : Grammar.Blank toks stop toks.size) :
    (root.write {} toks).failure = none ∧
      (root.write {} toks).lines.flatten = Pen.sourceText toks.toList := by
  have hall : Grammar.between toks 0 toks.size = toks.toList := by
    rw [Grammar.between, List.drop_zero, List.take_of_length_le (by simp)]
  obtain ⟨hfailure, hlines⟩ := write_of_traces_before h hrest (.inl rfl)
  exact ⟨hfailure, by rw [hlines, Bytes.flatten_lines, hall]⟩

end Cartridge.Lua
