import Cartridge.Proofs.Lua.GapLayout
import Cartridge.Proofs.Lua.ScriptWords

/-!
# Pens that keep in step

Names and literals are written from the tree, whatever token the pen is at.  So a pen that finishes may
have passed the wrong tokens.  It has not, if its text is that of the tokens: every act adds at most the
length of the words of the grammar that it passes and of the content that it writes, and a name or literal
that is written over a word of the grammar adds less.  Then the names and literals are those of the tokens,
one after the other, and a pen that lays gaps out writes each token as it is.
-/

namespace Cartridge.Lua

open List

variable {owner : Owner} {st st' : Pen.Stand} {t : Token} {ws : List Bytes}

namespace Pen

open Grammar

variable {m : Nat} {s : Step} {steps : List Step} {vs : List Bytes} {word : Bytes}

inductive Walks (toks : Array Token) : Nat → List Act → Nat → Prop
  | nil (i : Nat) : Walks toks i [] i
  | gap {i j k : Nat} {acts : List Act} (d : Nat) (h : Blank toks i j) (hrest : Walks toks j acts k) :
      Walks toks i (.gap i j d :: acts) k
  | sign {i k : Nat} {t : Token} {text : Bytes} {acts : List Act} (ht : toks[i]? = some t)
      (hword : isWordOf text t = true) (hrest : Walks toks (i + 1) acts k) :
      Walks toks i (.sign i text :: acts) k
  | word {i k : Nat} {acts : List Act} (text : Bytes) (hrest : Walks toks (i + 1) acts k) :
      Walks toks i (.word i text :: acts) k

def Act.recited? : Act → Option Bytes
  | .word _ text => some text
  | _ => none

def recited (acts : List Act) : List Bytes := acts.filterMap Act.recited?

section Walking

variable {toks : Array Token} {i j k : Nat} {acts more : List Act}

theorem Walks.append (h : Walks toks i acts j) (h' : Walks toks j more k) :
    Walks toks i (acts ++ more) k := by
  induction h with
  | nil i => exact h'
  | gap d h hrest ih => exact .gap d h (ih h')
  | sign ht hword hrest ih => exact .sign ht hword (ih h')
  | word text hrest ih => exact .word text (ih h')

theorem recited_append (acts more : List Act) : recited (acts ++ more) = recited acts ++ recited more :=
  filterMap_append

theorem Finds.walks (h : Finds toks owner word i m) (d : Nat) :
    Walks toks i [.gap i m d, .sign m word] (m + 1) := by
  obtain ⟨t, ht, hword⟩ := h.found
  exact .gap d h.skips.blank (.sign ht hword (.nil _))

theorem isWordOf_of_symbol {s : String} (h : t.agrees (Token.symbol s) = true) :
    isWordOf (Bytes.ofText s) t = true := by
  rw [isWordOf, Bool.or_eq_true]
  exact .inr h

theorem Loosens.walks {d count : Nat} (h : Loosens toks owner d count i acts j) :
    Walks toks i acts j ∧ recited acts = [] := by
  induction h with
  | done i => exact ⟨.nil i, rfl⟩
  | stop hskips ht hother => exact ⟨.gap _ hskips.blank (.nil _), rfl⟩
  | more hskips ht hsemi hrest ih =>
    exact ⟨.gap _ hskips.blank (.sign ht (isWordOf_of_symbol hsemi) ih.1), ih.2⟩

theorem Moves.walks (h : Moves toks s st acts st') (hs : s.isSeeing = true) :
    Walks toks st.pos acts st'.pos ∧ recited acts = [] := by
  cases h with
  | gap h => exact ⟨.gap _ h.blank (.nil _), rfl⟩
  | text h => exact ⟨h.walks _, rfl⟩
  | semicolons h => exact h.walks
  | check hu h => exact ⟨.nil _, rfl⟩
  | opens ht h => exact ⟨.sign ht (isWordOf_of_symbol h) (.nil _), rfl⟩
  | opensNot ht h => exact ⟨.nil _, rfl⟩
  | closes h => exact ⟨h.walks _, rfl⟩
  | closesNot h => exact ⟨.nil _, rfl⟩
  | separator ht h => exact ⟨h.walks _, rfl⟩
  | lastSeparator ht hsign h => exact ⟨h.walks _, rfl⟩
  | noSeparator ht hsign => exact ⟨.nil _, rfl⟩
  | indent i d ps => exact ⟨.nil _, rfl⟩
  | dedent i d ps => exact ⟨.nil _, rfl⟩
  | name h hs' => cases hs
  | put text st => cases hs
  | take text i d ps => cases hs

theorem Moves.not_isStop (h : Moves toks s st acts st') : s.isStop = false := by
  cases h with
  | @name owner s text i m d ps h hs =>
    cases s with
    | token t =>
      show (t.kind != .name) = false
      rw [hs.1]
      rfl
    | label b => rfl
    | noToken => cases hs
    | noName => cases hs
  | _ => rfl

def Thrifty (lay : Nat → Nat → Nat → Bytes) : Prop := ∀ i d, lay i i d = []

theorem thrifty_asSource (toks : Array Token) : Thrifty (asSource toks) := by
  intro i d
  rw [asSource, between_self]
  rfl

theorem thrifty_laidOut (width : Int) (toks : Array Token) : Thrifty (laidOut width toks) := by
  intro i d
  rw [laidOut, between_self]
  cases decide (i = 0) <;> cases decide (i = toks.size) <;> rfl

theorem spells_unique {s : Spelling} {a b : Bytes} (ha : Spells s a) (hb : Spells s b) : a = b := by
  cases s with
  | token t => exact ha.2.symm.trans hb.2
  | label name => exact ha.symm.trans hb
  | noToken => cases ha
  | noName => cases ha

theorem Skips.stop_eq {i j k : Nat} (h : Skips toks owner i j) (h' : Skips toks owner j k) : j = k := by
  have hrun := h'.run { pos := j } rfl
  rw [h.ends { pos := j } rfl] at hrun
  injection hrun with _ hpen
  exact congrArg Pen.pos hpen

theorem runs_label {w : Owner} {name : Bytes}
    (h : Runs toks (.gap w :: .put colons :: .name w (.label name) :: .put colons :: steps) st acts st') :
    ∃ i m d ps more, st = ⟨i, d, ps⟩ ∧ Blank toks i m ∧ Runs toks steps ⟨m + 1, d, ps⟩ more st' ∧
      acts = .gap i m d :: .extra colons :: .gap m m d :: .word m name :: .extra colons :: more := by
  cases h with
  | cons hgap hrest =>
    cases hgap with
    | @gap _ i m d ps hskips =>
      cases hrest with
      | cons hput hrest =>
        cases hput
        cases hrest with
        | cons hname hrest =>
          cases hname with
          | @name _ _ b _ m₁ _ _ hskips' hs =>
            obtain rfl := hskips.stop_eq hskips'
            obtain rfl : name = b := hs
            cases hrest with
            | cons hput hrest =>
              cases hput
              exact ⟨i, m, d, ps, _, rfl, hskips.blank, hrest, rfl⟩

theorem walks_of_recites (h : Recites steps ws) (hruns : Runs toks steps st acts st') :
    ∃ acts', Walks toks st.pos acts' st'.pos ∧ recited acts' = ws ∧
      ∀ lay, Thrifty lay → texts lay acts' = texts lay acts := by
  induction h generalizing st acts with
  | nil =>
    cases hruns
    exact ⟨[], .nil _, rfl, fun _ _ => rfl⟩
  | seeing hs h ih =>
    cases hruns with
    | cons hmoves hrest =>
      obtain ⟨acts', hwalks, hrecited, htexts⟩ := ih hrest
      obtain ⟨hwalk, hnone⟩ := hmoves.walks hs
      refine ⟨_, hwalk.append hwalks, ?_, fun lay hlay => ?_⟩
      · rw [recited_append, hnone, hrecited]
        rfl
      · rw [texts_append, texts_append, htexts lay hlay]
  | name hs h ih =>
    cases hruns with
    | cons hmoves hrest =>
      cases hmoves with
      | @name _ _ text' i m d ps hskips hs' =>
        obtain ⟨acts', hwalks, hrecited, htexts⟩ := ih hrest
        obtain rfl := spells_unique hs' hs
        refine ⟨.gap i m d :: .word m text' :: acts', .gap d hskips.blank (.word _ hwalks), ?_,
          fun lay hlay => ?_⟩
        · rw [← hrecited]
          rfl
        · rw [texts_append, texts_cons, texts_cons, htexts lay hlay]
          simp
  | @take text steps ws h ih =>
    cases hruns with
    | cons hmoves hrest =>
      cases hmoves with
      | take _ i d ps =>
        obtain ⟨acts', hwalks, hrecited, htexts⟩ := ih hrest
        refine ⟨.word i text :: acts', .word _ hwalks, ?_, fun lay hlay => ?_⟩
        · rw [← hrecited]
          rfl
        · rw [texts_append, texts_cons, htexts lay hlay]
          simp
  | @label w name steps ws h ih =>
    obtain ⟨i, m, d, ps, more, rfl, hblank, hrest, rfl⟩ := runs_label hruns
    obtain ⟨acts', hwalks, hrecited, htexts⟩ := ih hrest
    refine ⟨.gap i m d :: .word m (colons ++ name ++ colons) :: acts', .gap d hblank (.word _ hwalks), ?_,
      fun lay hlay => ?_⟩
    · rw [← hrecited]
      rfl
    · simp only [texts_cons, htexts lay hlay, Act.text, hlay m d, nil_append, append_assoc]
  | stop hs steps ws =>
    cases hruns with
    | cons hmoves hrest =>
      rw [hmoves.not_isStop] at hs
      cases hs
  | putStop hs steps ws =>
    cases hruns with
    | cons hmoves hrest =>
      cases hrest with
      | cons hmoves hrest =>
        rw [hmoves.not_isStop] at hs
        cases hs

end Walking

/-! ### Lengths -/

def rest (toks : Array Token) (i : Nat) : List Token := toks.toList.drop i

def contentFrom (toks : Array Token) (i : Nat) : List Token := (rest toks i).filter Token.isContent

def noiseFrom (toks : Array Token) (i : Nat) : Nat :=
  (sourceText ((rest toks i).filter fun t => !t.isContent)).length

def codesOf (ts : List Token) : List Bytes := ts.map Token.code

section Lengths

variable {toks : Array Token} {i j k : Nat} {acts : List Act}

theorem rest_eq_cons (ht : toks[i]? = some t) : rest toks i = t :: rest toks (i + 1) := by
  obtain ⟨hlt, rfl⟩ := Array.getElem?_eq_some_iff.mp ht
  rw [rest, drop_eq_getElem_cons (by simpa using hlt)]
  simp [rest]

theorem rest_eq_nil (h : toks.size ≤ i) : rest toks i = [] := by
  rw [rest, drop_eq_nil_iff]
  simpa using h

theorem rest_eq_append (hij : i ≤ j) : rest toks i = between toks i j ++ rest toks j := by
  have hall : ∀ n, rest toks n = between toks n (toks.size + j) := by
    intro n
    rw [rest, between, take_of_length_le (by simp)]
  rw [hall i, hall j, between_append hij (Nat.le_add_left j toks.size)]

theorem sourceText_cons (t : Token) (ts : List Token) : sourceText (t :: ts) = t.code ++ sourceText ts := rfl

theorem contentFrom_cons (ht : toks[i]? = some t) (h : t.isContent = true) :
    contentFrom toks i = t :: contentFrom toks (i + 1) := by
  rw [contentFrom, rest_eq_cons ht, filter_cons_of_pos h]
  rfl

theorem contentFrom_succ (ht : toks[i]? = some t) (h : t.isContent = false) :
    contentFrom toks i = contentFrom toks (i + 1) := by
  rw [contentFrom, rest_eq_cons ht, filter_cons_of_neg (by rw [h]; decide)]
  rfl

theorem contentFrom_of_blank (h : Blank toks i j) : contentFrom toks i = contentFrom toks j := by
  have hnone : (between toks i j).filter Token.isContent = [] := by
    rw [filter_eq_nil_iff]
    intro t ht
    rw [isContent_of_isGap (h.isGap t ht)]
    decide
  rw [contentFrom, rest_eq_append h.le, filter_append, hnone]
  rfl

theorem noiseFrom_cons (ht : toks[i]? = some t) (h : t.isContent = false) :
    noiseFrom toks i = t.code.length + noiseFrom toks (i + 1) := by
  rw [noiseFrom, rest_eq_cons ht, filter_cons_of_pos (by rw [h]; rfl), sourceText_cons,
    length_append]
  rfl

theorem noiseFrom_of_content (ht : toks[i]? = some t) (h : t.isContent = true) :
    noiseFrom toks i = noiseFrom toks (i + 1) := by
  rw [noiseFrom, rest_eq_cons ht, filter_cons_of_neg (by rw [h]; decide)]
  rfl

theorem noiseFrom_of_blank (h : Blank toks i j) :
    noiseFrom toks i = (sourceText (between toks i j)).length + noiseFrom toks j := by
  have hall : (between toks i j).filter (fun t => !t.isContent) = between toks i j := by
    rw [filter_eq_self]
    intro t ht
    rw [isContent_of_isGap (h.isGap t ht)]
    rfl
  rw [noiseFrom, rest_eq_append h.le, filter_append, hall, sourceText_append, length_append]
  rfl

theorem noiseFrom_succ_le (toks : Array Token) (i : Nat) : noiseFrom toks (i + 1) ≤ noiseFrom toks i := by
  cases ht : toks[i]? with
  | none =>
    have hsize := Array.getElem?_eq_none_iff.mp ht
    rw [noiseFrom, rest_eq_nil (Nat.le_succ_of_le hsize)]
    exact Nat.zero_le _
  | some t =>
    cases hcontent : t.isContent with
    | true => exact Nat.le_of_eq (noiseFrom_of_content ht hcontent).symm
    | false =>
      rw [noiseFrom_cons ht hcontent]
      exact Nat.le_add_left _ _

theorem length_sourceText_rest (toks : Array Token) (i : Nat) : (sourceText (rest toks i)).length =
    noiseFrom toks i + (codesOf (contentFrom toks i)).flatten.length := by
  rw [noiseFrom, contentFrom]
  induction rest toks i with
  | nil => rfl
  | cons t ts ih =>
    cases hcontent : t.isContent <;> simp [hcontent, sourceText, codesOf] at ih ⊢ <;> omega

theorem facts_of_isWordOf (h : isWordOf word t = true) :
    t.isContent = false ∧ t.isGap = false ∧ t.code.length = word.length := by
  rw [isWordOf, Bool.or_eq_true] at h
  rcases h with h | h
  · have hkind : t.kind = .keyword := kind_eq_of_agrees h
    have hdata : Bytes.lower t.data = Bytes.lower word := by simpa [Token.agrees, hkind] using h
    have hlength := congrArg length hdata
    rw [Bytes.lower, Bytes.lower, length_map, length_map] at hlength
    rw [Token.isContent, Token.isGap, hkind, Token.code_of_ne_string (by rw [hkind]; decide)]
    exact ⟨rfl, rfl, hlength⟩
  · have hkind : t.kind = .symbol := kind_eq_of_agrees h
    have hdata : t.data = word := by simpa [Token.agrees, hkind] using h
    rw [Token.isContent, Token.isGap, hkind, Token.code_of_ne_string (by rw [hkind]; decide), hdata]
    exact ⟨rfl, rfl, rfl⟩

theorem recited_gap (i j d : Nat) (acts : List Act) : recited (.gap i j d :: acts) = recited acts := rfl

theorem recited_sign (i : Nat) (text : Bytes) (acts : List Act) :
    recited (.sign i text :: acts) = recited acts := rfl

theorem recited_word (i : Nat) (text : Bytes) (acts : List Act) :
    recited (.word i text :: acts) = text :: recited acts := rfl

theorem Walks.length_le (h : Walks toks i acts k) :
    (texts (asSource toks) acts).length + noiseFrom toks k ≤
      noiseFrom toks i + (recited acts).flatten.length := by
  induction h with
  | nil i => simp [recited]
  | @gap i j k acts d hblank hrest ih =>
    rw [noiseFrom_of_blank hblank, recited_gap, texts_cons, length_append]
    show (sourceText (between toks i j)).length + _ + _ ≤ _
    omega
  | @sign i k t text acts ht hword hrest ih =>
    obtain ⟨hcontent, -, hlength⟩ := facts_of_isWordOf hword
    rw [noiseFrom_cons ht hcontent, recited_sign, texts_cons, length_append]
    show text.length + _ + _ ≤ _
    omega
  | @word i k acts text hrest ih =>
    have hle := noiseFrom_succ_le toks i
    rw [recited_word, texts_cons, length_append, flatten_cons, length_append]
    show text.length + _ + _ ≤ _
    omega

end Lengths

/-! ### Layouts -/

/-- A text has the words of the tokens from `i` on as they are, and gaps that are laid out. -/
inductive Laid (width : Int) (toks : Array Token) : Nat → Bytes → Prop
  | done {i : Nat} (h : toks.size ≤ i) : Laid width toks i []
  | gap {i j : Nat} {s : Bytes} (d : Nat) (h : Blank toks i j) (hrest : Laid width toks j s) :
      Laid width toks i (laidOut width toks i j d ++ s)
  | word {i : Nat} {t : Token} {s : Bytes} (ht : toks[i]? = some t) (hword : t.isGap = false)
      (hrest : Laid width toks (i + 1) s) : Laid width toks i (t.code ++ s)

section Layout

variable {toks : Array Token} {i k : Nat} {acts : List Act}

theorem size_le_of_sourceText (hcodes : ∀ t ∈ toks.toList, t.code ≠ [])
    (h : sourceText (rest toks i) = []) : toks.size ≤ i := by
  cases ht : toks[i]? with
  | none => exact Array.getElem?_eq_none_iff.mp ht
  | some t =>
    rw [rest_eq_cons ht, sourceText_cons, append_eq_nil_iff] at h
    exact absurd h.1 (hcodes t (Array.mem_toList_iff.mpr (Array.mem_of_getElem? ht)))

theorem isGap_of_isContent (h : t.isContent = true) : t.isGap = false := by
  cases hgap : t.isGap with
  | false => rfl
  | true =>
    rw [isContent_of_isGap hgap] at h
    cases h

theorem Walks.isContent {text : Bytes} (hcodes : ∀ t ∈ toks.toList, t.code ≠ [])
    (h : Walks toks (i + 1) acts k)
    (htext : text ++ texts (asSource toks) acts = sourceText (rest toks i))
    (hrecited : text :: recited acts = codesOf (contentFrom toks i)) :
    ∃ t, toks[i]? = some t ∧ t.isContent = true := by
  cases ht : toks[i]? with
  | none =>
    rw [contentFrom, rest_eq_nil (Array.getElem?_eq_none_iff.mp ht)] at hrecited
    cases hrecited
  | some t =>
    refine ⟨t, rfl, ?_⟩
    cases hcontent : t.isContent with
    | true => rfl
    | false =>
      -- the token would have added its length as well
      have hle := h.length_le
      have hlength := congrArg length htext
      rw [length_sourceText_rest, ← hrecited, length_append, flatten_cons,
        length_append, noiseFrom_cons ht hcontent] at hlength
      have hpos := length_pos_iff.mpr
        (hcodes t (Array.mem_toList_iff.mpr (Array.mem_of_getElem? ht)))
      omega

theorem Walks.laid (hcodes : ∀ t ∈ toks.toList, t.code ≠ []) (h : Walks toks i acts k)
    (htext : texts (asSource toks) acts = sourceText (rest toks i))
    (hrecited : recited acts = codesOf (contentFrom toks i)) (width : Int) :
    Laid width toks i (texts (laidOut width toks) acts) := by
  induction h with
  | nil i => exact .done (size_le_of_sourceText hcodes htext.symm)
  | @gap i j k acts d hblank hrest ih =>
    rw [rest_eq_append hblank.le, sourceText_append, texts_cons] at htext
    refine .gap d hblank (ih (append_cancel_left htext) ?_)
    rw [← contentFrom_of_blank hblank]
    exact hrecited
  | @sign i k t text acts ht hword hrest ih =>
    obtain ⟨hcontent, hgap, hlength⟩ := facts_of_isWordOf hword
    rw [rest_eq_cons ht, sourceText_cons, texts_cons] at htext
    obtain ⟨hcode, hlater⟩ := append_inj htext hlength.symm
    obtain rfl : text = t.code := hcode
    refine .word ht hgap (ih hlater ?_)
    rw [← contentFrom_succ ht hcontent]
    exact hrecited
  | @word i k acts text hrest ih =>
    obtain ⟨t, ht, hcontent⟩ := hrest.isContent hcodes htext hrecited
    rw [contentFrom_cons ht hcontent, recited_word] at hrecited
    obtain ⟨rfl, hlater⟩ := cons.inj hrecited
    rw [rest_eq_cons ht, sourceText_cons, texts_cons] at htext
    exact .word ht (isGap_of_isContent hcontent) (ih (append_cancel_left htext) hlater)

theorem length_flatten_le (h : ws.Sublist vs) : ws.flatten.length ≤ vs.flatten.length := by
  induction h with
  | slnil => exact Nat.le_refl _
  | @cons ws vs v h ih =>
    rw [flatten_cons, length_append]
    omega
  | @cons_cons ws vs v h ih =>
    rw [flatten_cons, flatten_cons, length_append, length_append]
    omega

theorem eq_of_sublist (h : ws.Sublist vs) (hne : ∀ v ∈ vs, v ≠ [])
    (hlength : vs.flatten.length ≤ ws.flatten.length) : ws = vs := by
  induction h with
  | slnil => rfl
  | @cons ws vs v h ih =>
    have hle := length_flatten_le h
    have hpos := length_pos_iff.mpr (hne v mem_cons_self)
    rw [flatten_cons, length_append] at hlength
    omega
  | @cons_cons ws vs v h ih =>
    rw [flatten_cons, flatten_cons, length_append, length_append] at hlength
    rw [ih (fun u hu => hne u (mem_cons_of_mem v hu)) (by omega)]

end Layout

end Pen

open Pen Grammar

namespace Tree

variable {toks : Array Token} {root : Tree}

theorem runs_of_write (h : (root.write {} toks).failure = none) :
    ∃ acts st m, Runs toks (root.script false) ⟨0, 0, []⟩ acts st ∧ Skips toks .program st.pos m ∧
      (root.write {} toks).lines.flatten = texts (asSource toks) (acts ++ [.gap st.pos m st.depth]) := by
  cases hrun : (Pen.writeScript {} toks (root.script false)).run {} with
  | error e q =>
    have hwrite : (root.write {} toks).failure = some e := by
      simp only [Tree.write, hrun]
    rw [hwrite] at h
    cases h
  | ok last q =>
    obtain ⟨_, p, hsteps, hgap⟩ := bind_ok hrun
    obtain ⟨acts, hruns, htext⟩ := runs_of_carryOutAll hsteps
    obtain ⟨m, hskips, rfl, rfl⟩ := gap_ok hgap
    refine ⟨acts, p.stand, m, hruns, hskips, ?_⟩
    simp only [Tree.write, hrun]
    rw [Bytes.flatten_lines, joined_false, ← Pen.text, texts_append, texts_cons, texts_nil,
      append_nil]
    exact congrArg (· ++ _) htext

theorem write_of_runs {acts : List Act} (h : Runs toks (root.script false) ⟨0, 0, []⟩ acts st)
    (hskips : Skips toks .program st.pos m) (width : Int) :
    (root.write (formatting width) toks).failure = none ∧
      (root.write (formatting width) toks).lines.flatten =
        texts (laidOut width toks) (acts ++ [.gap st.pos m st.depth]) := by
  obtain ⟨q, hq, hdone⟩ := h.carryOutAll width (p := {}) rfl
  obtain ⟨rfl, htext⟩ := hdone
  have hrun : (Pen.writeScript (formatting width) toks (root.script false)).run {} =
      .ok (laidOut width toks q.pos m q.depth) { q with pos := m } :=
    Pen.bind_eq_ok hq (hskips.gap width rfl)
  have hwrite : root.write (formatting width) toks =
      { lines := Bytes.lines (Pen.joined false false q.pieces.toList ++ laidOut width toks q.pos m q.depth)
        renamed := q.names.given } := by
    have hplain : (formatting width).plain = false := rfl
    simp only [Tree.write, hplain, hrun]
  rw [hwrite]
  refine ⟨rfl, ?_⟩
  dsimp only
  rw [Bytes.flatten_lines, joined_false, ← Pen.text, texts_append, texts_cons, texts_nil,
    append_nil, htext]
  rfl

theorem laid_of_write {s : Category} {stop : Nat} (hreg : Regular toks)
    (hcodes : ∀ t ∈ toks.toList, t.code ≠ []) (hderived : Derived toks s root 0 stop)
    (hfailure : (root.write {} toks).failure = none)
    (htext : (root.write {} toks).lines.flatten = sourceText toks.toList) (width : Int) :
    (root.write (formatting width) toks).failure = none ∧
      Laid width toks 0 (root.write (formatting width) toks).lines.flatten := by
  obtain ⟨acts, st, m, hruns, hskips, hsource⟩ := runs_of_write hfailure
  obtain ⟨hdone, hlaid⟩ := write_of_runs hruns hskips width
  refine ⟨hdone, ?_⟩
  rw [hlaid]
  obtain ⟨ws, hrecites, hsub⟩ := root.draws_script
  obtain ⟨acts', hwalks, hrecited, htexts⟩ := walks_of_recites hrecites hruns
  have hwalks' : Walks toks 0 (acts' ++ [.gap st.pos m st.depth]) m :=
    hwalks.append (.gap st.depth hskips.blank (.nil m))
  have htexts' : ∀ lay, Thrifty lay → texts lay (acts' ++ [.gap st.pos m st.depth]) =
      texts lay (acts ++ [.gap st.pos m st.depth]) := by
    intro lay hlay
    rw [texts_append, texts_append, htexts lay hlay]
  have hrecited' : recited (acts' ++ [.gap st.pos m st.depth]) = ws := by
    rw [recited_append, hrecited]
    exact append_nil ws
  rw [← htexts' _ (thrifty_laidOut width toks)]
  have hall : texts (asSource toks) (acts' ++ [.gap st.pos m st.depth]) = sourceText (rest toks 0) := by
    rw [htexts' _ (thrifty_asSource toks), ← hsource, htext]
    rfl
  refine hwalks'.laid hcodes hall ?_ width
  rw [hrecited']
  -- the content of the tree is content of the tokens, and not shorter than what was written
  rw [hderived.codes_eq hreg] at hsub
  have hsub' : ws.Sublist (codesOf (contentFrom toks 0)) := by
    refine hsub.trans (Sublist.map _ (Sublist.filter _ ?_))
    rw [between, drop_zero]
    exact take_sublist _ _
  refine eq_of_sublist hsub' (fun v hv => ?_) ?_
  · obtain ⟨t, ht, rfl⟩ := mem_map.mp hv
    exact hcodes t (mem_of_mem_drop (mem_of_mem_filter ht))
  · have hle := hwalks'.length_le
    rw [hall, hrecited', length_sourceText_rest] at hle
    omega

end Tree
end Cartridge.Lua
