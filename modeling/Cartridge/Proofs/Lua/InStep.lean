import Cartridge.Proofs.Lua.Legible

/-!
# Legible programs are retraced

By induction on how the tokens follow the grammar, the script of a legible tree writes the tokens of its
phrase.
-/

namespace Cartridge.Lua

open List Lua.Tree
namespace Grammar

open Pen

variable {block : Tree} {op : Token} {rest : List Token} {ts : List (Category × Tree)} {w : Word}

variable {args first : Tree} {i j k m p : Nat} {item : Item} {ps : List Pattern} {s : Category}
  {t u : Token} {toks : Array Token}

theorem Takes.gap {stop : Nat} (h : Takes toks ps i t m) (hm : m < stop) :
    Traces toks [.gap (.upTo stop)] i m :=
  traces_gap (gapEnds_of_takes h hm) h.blank (Nat.le_of_lt h.lt_size)

theorem Takes.gaps {stop : Nat} (h : Takes toks ps i t m) (hm : m < stop) :
    Traces toks [.gap (.upTo stop), .gap (.upTo stop)] i m :=
  (h.gap hm).append (h.self.gap hm)

/-! ### First words -/

/-- The phrase from `i` up to `j` starts with a word that is not the sign, by default a semicolon. -/
def Opens (toks : Array Token) (i j : Nat) (s : String := ";") : Prop :=
  ∃ ps t m, Takes toks ps i t m ∧ m < j ∧ t.agrees (Token.symbol s) = false

def Category.opens : Category → Bool
  | .block | .perhaps | .nothing => false
  | _ => true

def fitsSemicolon : Pattern → Bool
  | .kind k => k == .symbol || k == .general
  | .exact t => t.agrees (Token.symbol ";")

theorem not_agrees_semicolon {p : Pattern} (hp : fitsSemicolon p = false) (h : t.fits p = true) :
    t.agrees (Token.symbol ";") = false := by
  rw [← Bool.not_eq_true]
  intro ht
  cases p with
  | kind k =>
    cases k <;> simp_all [fitsSemicolon, Token.fits, Token.agrees, Token.symbol]
  | exact u =>
    rw [fitsSemicolon, ← Bool.not_eq_true] at hp
    apply hp
    have hkind : t.kind = .symbol := kind_eq_of_agrees ht
    simp_all [Token.fits, Token.agrees, Token.symbol]

def Item.opens : Item → Bool
  | .word ws => ws.all fun w => !fitsSemicolon w.pattern
  | .leaf ps _ => ps.all fun p => !fitsSemicolon p
  | .part s _ => s.opens
  | _ => false

section Opening

variable {toks : Array Token}

theorem Opens.mono {s : String} (h : Opens toks i k s) (hkj : k ≤ j) : Opens toks i j s := by
  obtain ⟨ps, t, m, htakes, hm, ht⟩ := h
  exact ⟨ps, t, m, htakes, by omega, ht⟩

theorem Opens.of_takes (h : Takes toks ps i t m) (hm : m < j)
    (hps : ps.all (fun p => !fitsSemicolon p) = true) : Opens toks i j := by
  obtain ⟨p, hp, hfits⟩ := h.fits
  have hnot := all_eq_true.mp hps p hp
  exact ⟨ps, t, m, h, hm, not_agrees_semicolon (by simpa using hnot) hfits⟩

theorem Spans.opens {ok : Category → Tree → Nat → Nat → Prop} {items : List Item}
    (h : Spans toks ok (item :: items) i j) (hitem : item.opens = true)
    (hle : ∀ {s t i j}, ok s t i j → i ≤ j) (hok : ∀ {s t i j}, ok s t i j → s.opens = true → Opens toks i j) :
    Opens toks i j := by
  cases h with
  | word htakes rest =>
    have := rest.le hle
    refine .of_takes htakes (by omega) ?_
    rw [all_map]
    exact hitem
  | leaf htakes rest =>
    have := rest.le hle
    exact .of_takes htakes (by omega) hitem
  | part hpart rest => exact (hok hpart hitem).mono (rest.le hle)
  | place => cases hitem
  | semicolons => cases hitem
  | clear => cases hitem

theorem Derived.opens {t : Tree} (h : Derived toks s t i j) (hs : s.opens = true) : Opens toks i j := by
  refine (Derived.induct (P := fun s _ i j => (s.opens = true → Opens toks i j) ∧
    (s = .nothing → i = j ∨ Opens toks i j)) ?_ h).1 hs
  intro s t i j items rule row
  have hrow : ∀ {item items'}, items = item :: items' → item.opens = true → Opens toks i j := by
    rintro item items' rfl hitem
    exact row.opens hitem (fun h => h.1.le) (fun h => h.2.1)
  cases rule with
  | block => simp [Category.opens]
  | given => simp [Category.opens]
  | missing => simp [Category.opens]
  | empty =>
    cases row
    simp [Category.opens]
  | emptyBrackets => exact ⟨fun _ => hrow rfl rfl, fun _ => .inr (hrow rfl rfl)⟩
  | tableValue | unary =>
    obtain ⟨_, hnothing, rest⟩ := row.of_part
    refine ⟨fun _ => ?_, by simp⟩
    have hle := rest.le fun h => h.1.le
    rcases hnothing.2.2 rfl with rfl | hopens
    · exact rest.opens rfl (fun h => h.1.le) (fun h => h.2.1)
    · exact hopens.mono hle
  | literal _ _ hk =>
    obtain rfl | rfl := hk
    · exact ⟨fun _ => hrow rfl rfl, by simp⟩
    · exact ⟨fun _ => hrow rfl rfl, by simp⟩
  | _ => exact ⟨fun _ => hrow rfl rfl, by simp⟩

end Opening

/-! ### Rows and scripts -/

/-- The tokens are written as the grammar has them: reserved words in small letters, labels between
colons. -/
structure Regular (toks : Array Token) : Prop where
  keyword : ∀ {i : Nat} {t : Token}, toks[i]? = some t → t.kind = .keyword → Bytes.lower t.data = t.data
  label : ∀ {i : Nat} {t : Token}, toks[i]? = some t → t.kind = .label →
    t.data = Bytes.ofText "::" ++ t.labelName ++ Bytes.ofText "::"

def Word.isLower (w : Word) : Bool := Bytes.lower w.token.data == w.token.data

theorem isWord_of_takes (hreg : Regular toks) (hw : w.isLower = true)
    (h : Takes toks ([w].map Word.pattern) i t m) : IsWord t w.token.data := by
  have hagrees : t.agrees w.token = true := by simpa [Word.pattern, Token.fits] using h.fits
  rw [Word.isLower, beq_iff_eq] at hw
  cases w with
  | sign s => exact isWord_of_agrees_symbol hagrees
  | reserved w =>
    have hkind : t.kind = .keyword := kind_eq_of_agrees hagrees
    have hdata : Bytes.lower t.data = Bytes.lower (Word.reserved w).token.data := by
      simpa [Token.agrees, hkind, Word.token, Token.keyword] using hagrees
    refine ⟨?_, ?_⟩
    · rw [Token.code_of_ne_string (by rw [hkind]; decide), ← hreg.keyword h.get hkind, hdata, hw]
    · rw [Bool.or_eq_true]
      exact .inl hagrees

theorem isWord_of_exact (hu : u.kind = .symbol ∨ u.kind = .keyword) (h : t.agrees u = true) :
    IsWord t t.code := by
  have hkind := kind_eq_of_agrees h
  rw [← hkind] at hu
  refine ⟨rfl, ?_⟩
  rw [Token.code_of_ne_string (by rcases hu with hu | hu <;> rw [hu] <;> decide), Bool.or_eq_true]
  rcases hu with hu | hu
  · exact .inr (by simp [Token.agrees, hu])
  · exact .inl (by simp [Token.agrees, hu])

def areOperators (ps : List Pattern) : Bool :=
  ps.all fun
    | .exact u => u.kind == .symbol || u.kind == .keyword
    | .kind _ => false

theorem isWord_of_operator (hps : areOperators ps = true) (h : Takes toks ps i t m) : IsWord t t.code := by
  obtain ⟨p, hp, hfits⟩ := h.fits
  have hkind := all_eq_true.mp hps p hp
  cases p with
  | kind k => cases hkind
  | exact u =>
    simp only [Bool.or_eq_true, beq_iff_eq] at hkind
    exact isWord_of_exact hkind hfits

/-- The steps write the items of a row one after the other, for a node that ends at `stop`. -/
inductive Scripted (stop : Nat) : List Item → List Step → Prop
  | nil : Scripted stop [] []
  | word {w items steps} (h : Scripted stop items steps) (hw : w.isLower = true := by rfl) :
      Scripted stop (.word [w] :: items) (.text (.upTo stop) w.token.data :: steps)
  | operator {ps t items steps} (h : Scripted stop items steps) (hps : areOperators ps = true := by rfl) :
      Scripted stop (.leaf ps t :: items) (.text (.upTo stop) t.code :: steps)
  | name {t items steps} (h : Scripted stop items steps) :
      Scripted stop (.name t :: items) (.name (.upTo stop) (.token t) :: steps)
  | target {t items steps} (h : Scripted stop items steps) :
      Scripted stop (.name t :: items) (.name (.upTo stop) (.label t.data) :: steps)
  | literal {ps t items steps} (h : Scripted stop items steps) :
      Scripted stop (.leaf ps t :: items) (.gap (.upTo stop) :: .take t.code :: steps)
  | checked {ps t items steps} (h : Scripted stop items steps) :
      Scripted stop (.leaf ps t :: items) (.gap (.upTo stop) :: .check t :: .take t.code :: steps)
  | part {s t items steps} (h : Scripted stop items steps) :
      Scripted stop (.part s t :: items) (t.script false ++ steps)
  | place {m items steps} (h : Scripted stop items steps) : Scripted stop (.place m :: items) steps
  | indent {items steps} (h : Scripted stop items steps) : Scripted stop items (.indent :: steps)
  | dedent {items steps} (h : Scripted stop items steps) : Scripted stop items (.dedent :: steps)

theorem Scripted.last {stop : Nat} {s : Category} {t : Tree} : Scripted stop [.part s t] (t.script false) := by
  simpa using Scripted.part (s := s) (t := t) .nil

structure Followed (toks : Array Token) (s : Category) (t : Tree) (i j : Nat) : Prop where
  le : i ≤ j
  opens : s.opens = true → Opens toks i j
  follows : Follows toks (t.script false) i j

theorem Opens.moved (h : Opens toks i j) (hp : Blank toks i p) : p ≤ j ∧ Opens toks p j := by
  obtain ⟨ps, t, m, htakes, hm, ht⟩ := h
  have hpm := htakes.le_of_blank hp
  exact ⟨by omega, ps, t, m, htakes.moved hp, hm, ht⟩

section Scripts

variable {toks : Array Token} {items : List Item} {steps : List Step} {stop i j : Nat}

theorem Scripted.traces (hreg : Regular toks) (h : Scripted stop items steps)
    (row : Spans toks (Followed toks) items i j) (hj : j ≤ stop) : Traces toks steps i j := by
  induction h generalizing i with
  | nil =>
    cases row
    exact .nil toks _
  | word h hw ih =>
    obtain ⟨_, _, htakes, rest⟩ := row.of_word
    have hle := rest.le Followed.le
    have hword := isWord_of_takes hreg hw htakes
    exact (traces_text htakes (by omega) hword).append (ih rest)
  | operator h hps ih =>
    obtain ⟨_, htakes, rest⟩ := row.of_leaf
    have hle := rest.le Followed.le
    have hword := isWord_of_operator hps htakes
    exact (traces_text htakes (by omega) hword).append (ih rest)
  | @name t _ _ h ih =>
    obtain ⟨_, htakes, rest⟩ := row.of_leaf
    have hle := rest.le Followed.le
    have hkind : t.kind = .name := by simpa [Token.fits] using htakes.fits
    have hspells : Spells (.token t) t.code := ⟨hkind, rfl⟩
    exact (traces_name htakes (by omega) hspells).append (ih rest)
  | @target t _ _ h ih =>
    obtain ⟨_, htakes, rest⟩ := row.of_leaf
    have hle := rest.le Followed.le
    have hkind : t.kind = .name := by simpa [Token.fits] using htakes.fits
    have hspells : Spells (.label t.data) t.code :=
      (Token.code_of_ne_string (by rw [hkind]; decide)).symm
    exact (traces_name htakes (by omega) hspells).append (ih rest)
  | literal h ih =>
    obtain ⟨_, htakes, rest⟩ := row.of_leaf
    have hle := rest.le Followed.le
    exact (htakes.gap (by omega)).append ((traces_take htakes.get).append (ih rest))
  | checked h ih =>
    obtain ⟨_, htakes, rest⟩ := row.of_leaf
    have hle := rest.le Followed.le
    exact (htakes.gap (by omega)).append ((traces_check htakes.get).append ((traces_take htakes.get).append (ih rest)))
  | part h ih =>
    obtain ⟨_, hpart, rest⟩ := row.of_part
    exact (hpart.follows.traces hpart.le).append (ih rest)
  | place h ih =>
    cases row with
    | place rest => exact ih rest
  | indent h ih => exact (traces_indent toks i).append (ih row)
  | dedent h ih => exact (traces_dedent toks i).append (ih row)

theorem Spans.moved (row : Spans toks (Followed toks) (item :: items) i j) (hitem : item.opens = true)
    (hp : Blank toks i p) : Spans toks (Followed toks) (item :: items) p j := by
  cases row with
  | word htakes rest => exact .word (htakes.moved hp) rest
  | leaf htakes rest => exact .leaf (htakes.moved hp) rest
  | part hpart rest =>
    obtain ⟨hle, hopens⟩ := (hpart.opens hitem).moved hp
    exact .part ⟨hle, fun _ => hopens, hpart.follows.moved hp⟩ rest
  | place => cases hitem
  | semicolons => cases hitem
  | clear => cases hitem

theorem Scripted.follows (hreg : Regular toks) (h : Scripted j (item :: items) steps)
    (row : Spans toks (Followed toks) (item :: items) i j) (hitem : item.opens = true) (hsize : j ≤ toks.size) :
    Follows toks (.gap (.upTo j) :: steps) i j := by
  refine Follows.gap ?_ hsize
  intro p hp hle
  exact h.traces hreg (row.moved hitem hp) (Nat.le_refl j)

end Scripts

/-! ### Values -/

def valueSteps (w : Owner) : Tree → List Step
  | .absent => [.text w (Tree.word "nil")]
  | .truth false => [.text w (Tree.word "false")]
  | .truth true => [.text w (Tree.word "true")]
  | .token t =>
      if t.kind == .name then [.name w (.token t)]
      else if t.kind == .number || t.kind == .string then [.gap w, .take t.code]
      else [.gap .foreign]
  | v => v.script false

theorem script_value (v : Tree) (i j : Nat) :
    (Tree.made .expValue [v] i j).script false =
      .gap (.upTo j) :: .gap (.upTo j) ::
        .openIf :: (valueSteps (.upTo j) v ++ [.closeIf (.upTo j)]) := by
  cases v with
  | truth b => cases b <;> rfl
  | _ => rfl

def Encloses (toks : Array Token) (steps : List Step) (i j : Nat) : Prop :=
  ∀ {p m : Nat} {t : Token}, Takes toks ([Word.sign "("].map Word.pattern) p t m → i = m + 1 →
    Traces toks steps p (j + 1)

section Values

variable {toks : Array Token} {v : Tree} {i j : Nat}

theorem agrees_of_takes_sign {s : String} (h : Takes toks ([Word.sign s].map Word.pattern) i t m) :
    t.agrees (Token.symbol s) = true := by
  simpa [Word.pattern, Word.token, Token.fits] using h.fits

theorem follows_value (hfirst : Takes toks ps i t m) (hm : m < j)
    (hopen : t.agrees (Token.symbol "(") = false) (h : Follows toks (valueSteps (.upTo j) v) i j) :
    Follows toks ((Tree.made .expValue [v] i j).script false) i j := by
  intro p hp hle
  rw [script_value]
  have hvalue := h m hfirst.blank (Nat.le_of_lt hm)
  exact ((hfirst.moved hp).gaps hm).append (hvalue.unbracketed hfirst.get hopen)

theorem follows_bracketed (row : Spans toks (Followed toks)
      [.sign "(", .part .expression v, .sign ")"] i j) (hv : isExpression v = true) :
    Follows toks ((Tree.made .expValue [v] i j).script false) i j := by
  intro p hp hle
  rw [script_value]
  obtain ⟨t, m, hopen, row⟩ := row.of_word
  obtain ⟨k, hpart, row⟩ := row.of_part
  obtain ⟨u, n, hclose, row⟩ := row.of_word
  cases row
  have hkn := hclose.blank.le
  have hmk := hpart.le
  have hvalue : Traces toks (valueSteps (.upTo (n + 1)) v) (m + 1) k := by
    have hscript : valueSteps (.upTo (n + 1)) v = v.script false := by
      cases v with
      | node => rfl
      | _ => cases hv
    rw [hscript]
    exact hpart.follows.traces hmk
  exact ((hopen.moved hp).gaps (by omega)).append (hvalue.bracketed hopen.get (agrees_of_takes_sign hopen)
    hclose (gapEnds_of_takes hclose (by omega)) (agrees_of_takes_sign hclose))

theorem isGap_of_agrees_symbol {s : String} (h : t.agrees (Token.symbol s) = true) : t.isGap = false := by
  rw [Token.isGap, kind_eq_of_agrees h]
  rfl

theorem encloses_value (hclose : toks[j]? = some u) (hu : u.agrees (Token.symbol ")") = true)
    (h : Traces toks (valueSteps (.upTo j) v) i j) :
    Encloses toks ((Tree.made .expValue [v] i j).script false) i j := by
  rintro p m t hopen rfl
  rw [script_value]
  have hle := h.le
  have htakes : Takes toks [.exact (Token.symbol ")")] j u j :=
    ⟨.refl toks j, hclose, isGap_of_agrees_symbol hu, _, List.mem_singleton_self _, hu⟩
  exact (hopen.gaps (by omega)).append (h.bracketed hopen.get (agrees_of_takes_sign hopen) htakes (.inl rfl) hu)

end Values

/-! ### Legible phrases -/

def branchSteps (stop : Nat) (condition block : Tree) : List Step :=
  .text (.upTo stop) (Tree.word "elseif") :: (condition.script false ++
    (.text (.upTo stop) (Tree.word "then") :: .indent :: (block.script false ++ [.dedent])))

def Good (toks : Array Token) : Category → Tree → Prop
  | .branch, _ => False
  | .nothing, _ => False
  | .arguments, t => t.isNode = true ∧ t.legible toks = true
  | .perhaps, t => t ≠ .absent ∧ t.legible toks = true
  | .base, t => t.legibleBase toks = true
  | _, t => t.legible toks = true

def AllGood (toks : Array Token) : List Item → Prop
  | [] => True
  | .part s t :: items => Good toks s t ∧ AllGood toks items
  | _ :: items => AllGood toks items

structure Nested (toks : Array Token) (t : Tree) (i j : Nat) : Prop where
  encloses : t.enclosed toks = true → Encloses toks (t.script false) i j
  bare : ∀ v o, t = .node .expValue [v] o → isExpression v = true →
    Spans toks (fun s t i j => t.legible toks = true → Followed toks s t i j)
      [.sign "(", .part .expression v, .sign ")"] i j

/-- The phrase is written by the script of its tree, if the tree is legible. -/
structure InStep (toks : Array Token) (s : Category) (t : Tree) (i j : Nat) : Prop where
  follows : Good toks s t → Follows toks (t.script false) i j
  nested : s = .expression ∨ s = .term ∨ s = .perhaps → Nested toks t i j
  branches : s = .branch → ∀ condition block, t = Grammar.branch condition block →
    condition ≠ .absent → condition.legible toks = true → block.legible toks = true →
    ∀ stop, j ≤ stop → Traces toks (branchSteps stop condition block) i j

abbrev Reached (toks : Array Token) (s : Category) (t : Tree) (i j : Nat) : Prop :=
  Derived toks s t i j ∧ (j < toks.size → InStep toks s t i j)

def Category.isPlain : Category → Bool
  | .branch | .expression | .term | .perhaps => false
  | _ => true

section Legible

variable {toks : Array Token} {items : List Item} {i j : Nat}

theorem InStep.of_follows {t : Tree} (hs : s.isPlain = true)
    (h : Good toks s t → Follows toks (t.script false) i j) : InStep toks s t i j := by
  refine ⟨h, ?_, ?_⟩
  · rintro (rfl | rfl | rfl) <;> cases hs
  · rintro rfl
    cases hs

theorem Spans.followed (row : Spans toks (Reached toks) items i j) (hsize : j < toks.size)
    (hgood : AllGood toks items) : Spans toks (Followed toks) items i j := by
  induction row with
  | nil i => exact .nil i
  | word h rest ih => exact .word h (ih hsize hgood)
  | leaf h rest ih => exact .leaf h (ih hsize hgood)
  | part h rest ih =>
    have hle := rest.le fun h => h.1.le
    have hfollows := (h.2 (by omega)).follows hgood.1
    exact .part ⟨h.1.le, h.1.opens, hfollows⟩ (ih hsize hgood.2)
  | place rest ih => exact .place (ih hsize hgood)
  | semicolons h rest ih => exact .semicolons h (ih hsize hgood)
  | clear h rest ih => exact .clear h (ih hsize hgood)

theorem InStep.of_scripted (hreg : Regular toks) {t : Tree} {steps : List Step}
    (row : Spans toks (Reached toks) (item :: items) i j) (hsize : j < toks.size)
    (hsteps : Scripted j (item :: items) steps)
    (hgood : Good toks s t → AllGood toks (item :: items) := by
      simp +contextual [AllGood, Good, Tree.made, Tree.legible, legibleAll, legibleBase, ofToken?, ofOption])
    (hscript : t.script false = .gap (.upTo j) :: steps := by
      simp only [Tree.made, Tree.script, ofOption, isAbsent, Bool.false_eq_true, reduceIte, append_assoc,
        cons_append, nil_append] <;> rfl)
    (hs : s.isPlain = true := by rfl) (hitem : item.opens = true := by rfl) : InStep toks s t i j := by
  refine .of_follows hs fun ht => ?_
  rw [hscript]
  exact hsteps.follows hreg (row.followed hsize (hgood ht)) hitem (Nat.le_of_lt hsize)

/-! ### Statements and lists -/

theorem AllGood.append {more : List Item} (h : AllGood toks items) (h' : AllGood toks more) :
    AllGood toks (items ++ more) := by
  induction items with
  | nil => exact h'
  | cons item items ih =>
    cases item with
    | part s t => exact ⟨h.1, ih h.2⟩
    | _ => exact ih h

theorem AllGood.flatMap {α : Type} {xs : List α} {f : α → List Item}
    (h : ∀ x ∈ xs, AllGood toks (f x)) : AllGood toks (xs.flatMap f) := by
  induction xs with
  | nil => trivial
  | cons x xs ih => exact (h x (.head _)).append (ih fun y hy => h y (.tail _ hy))

theorem legibleAll_iff {ts : List Tree} :
    Tree.legibleAll toks ts = true ↔ ∀ t ∈ ts, t.legible toks = true := by
  induction ts with
  | nil => simp [Tree.legibleAll]
  | cons t ts ih => simp [Tree.legibleAll, ih]

theorem AllGood.series {rest : List Tree} (hs : ∀ t, t.legible toks = true → Good toks s t)
    (h : Tree.legibleAll toks (first :: rest) = true) :
    AllGood toks (.part s first :: rest.flatMap fun t => [.sign ",", .part s t]) := by
  rw [legibleAll_iff] at h
  exact ⟨hs _ (h first (.head _)), .flatMap fun t ht => ⟨hs _ (h t (.tail _ ht)), trivial⟩⟩

theorem Scripted.names {stop : Nat} {sign : String} {ts : List Token} {items : List Item} {steps : List Step}
    (h : Scripted stop items steps) (hsign : (Word.sign sign).isLower = true := by rfl) :
    Scripted stop ((ts.flatMap fun t => [.sign sign, .name t]) ++ items)
      (((ts.map Tree.token).flatMap fun t => [.text (.upTo stop) (Tree.word sign),
        .name (.upTo stop) t.spelling]) ++ steps) := by
  induction ts with
  | nil => exact h
  | cons t ts ih => exact .word (.name ih) hsign

theorem Scripted.more {stop : Nat} {ts : List Tree} :
    Scripted stop (ts.flatMap fun t => [.sign ",", .part s t]) (moreScript false (.upTo stop) ts) := by
  induction ts with
  | nil => exact .nil
  | cons t ts ih =>
    rw [moreScript]
    exact .word (.part ih)

theorem names_inStep (hreg : Regular toks) {first : Token}
    (row : Spans toks (Reached toks) (.name first :: rest.flatMap fun t => [.sign ",", .name t]) i j)
    (hsize : j < toks.size) :
    InStep toks .names (.made .nameList [.list ((first :: rest).map .token)] i j) i j := by
  have hrest : Scripted j ((rest.flatMap fun t => [.sign ",", .name t]) ++ []) _ := .names .nil
  rw [append_nil, append_nil] at hrest
  exact .of_scripted hreg row hsize (.name hrest) (fun _ => AllGood.flatMap fun _ _ => trivial) rfl

theorem path_inStep (hreg : Regular toks) {first : Token} {method : Option Token}
    (row : Spans toks (Reached toks) (.name first :: (rest.flatMap (fun t => [Item.sign ".", .name t]) ++
      method.toList.flatMap fun t => [Item.sign ":", .name t])) i j) (hsize : j < toks.size) :
    InStep toks .path (.made .functionName [.list ((first :: rest).map .token), .ofToken? method] i j)
      i j := by
  have hgood : AllGood toks (.name first :: (rest.flatMap (fun t => [Item.sign ".", .name t]) ++
      method.toList.flatMap fun t => [Item.sign ":", .name t])) :=
    AllGood.append (.flatMap fun _ _ => trivial) (.flatMap fun _ _ => trivial)
  cases method with
  | none => exact .of_scripted hreg row hsize (.name (.names .nil)) (fun _ => hgood) rfl
  | some t => exact .of_scripted hreg row hsize (.name (.names (.word (.name .nil)))) (fun _ => hgood) rfl

theorem Spans.exists_of_mem (row : Spans toks (Reached toks) items i j) {t : Tree} (h : .part s t ∈ items) :
    ∃ i' j', Derived toks s t i' j' := by
  induction row with
  | nil i => cases h
  | part hpart rest ih =>
    rcases mem_cons.mp h with heq | h
    · cases heq
      exact ⟨_, _, hpart.1⟩
    · exact ih h
  | word _ rest ih | leaf _ rest ih | semicolons _ rest ih | clear _ rest ih =>
    exact ih (by simpa using h)
  | place rest ih => exact ih (by simpa using h)

theorem Spans.eq_node (row : Spans toks (Reached toks) items i j) {t : Tree} (h : .part s t ∈ items)
    (hs : s.isNode = true) : ∃ k fs o, t = .node k fs o := by
  obtain ⟨i', j', hderived⟩ := row.exists_of_mem h
  have hstop := hderived.stop?_eq hs
  cases t with
  | node k fs o => exact ⟨k, fs, o, rfl⟩
  | _ => cases hstop

theorem forStep_inStep (hreg : Regular toks) {counter : Option Token} {last : Tree} {step : Option Tree}
    (row : Spans toks (Reached toks) (.reserved "for" :: (counter.toList.map Item.name ++
      ([Item.sign "=", .part .expression first, .sign ",", .part .expression last] ++
        (step.toList.flatMap (fun t => [Item.sign ",", .part .expression t]) ++
          [Item.reserved "do", .part .block block, .reserved "end"])))) i j) (hsize : j < toks.size) :
    InStep toks .statement
      (.made .statForStep [.ofToken? counter, first, last, .ofOption step, block] i j) i j := by
  cases counter with
  | none =>
    refine .of_follows rfl fun hgood => ?_
    simp [Good, Tree.made, ofToken?, Tree.legible] at hgood
  | some t =>
    have hloop : Scripted j [.reserved "do", .part .block block, .reserved "end"] _ :=
      .word (.indent (.part (.dedent (.word .nil))))
    cases step with
    | none => exact .of_scripted hreg row hsize (.word (.name (.word (.part (.word (.part hloop))))))
    | some e =>
      obtain ⟨k, fs, o, rfl⟩ := row.eq_node (s := .expression) (t := e) (by simp) rfl
      exact .of_scripted hreg row hsize
        (.word (.name (.word (.part (.word (.part (.word (.part hloop))))))))

theorem body_inStep (hreg : Regular toks) {names dots : Option Tree}
    (row : Spans toks (Reached toks) (.sign "(" :: (names.toList.map (Item.part .names) ++
      (dots.toList.flatMap (fun t => (if names.isSome then [Item.sign ","] else []) ++ [Item.part .dots t]) ++
        [Item.sign ")", .part .block block, .reserved "end"]))) i j) (hsize : j < toks.size) :
    InStep toks .body (.made .functionBody [.ofOption names, .ofOption dots, block] i j) i j := by
  have hbody : Scripted j [.sign ")", .part .block block, .reserved "end"] _ :=
    .dedent (.word (.indent (.part (.dedent (.word .nil)))))
  cases names with
  | none =>
    cases dots with
    | none => exact .of_scripted hreg row hsize (.word (.indent hbody))
    | some d =>
      obtain ⟨k, fs, o, rfl⟩ := row.eq_node (s := .dots) (t := d) (by simp) rfl
      exact .of_scripted hreg row hsize (.word (.indent (.part hbody)))
  | some ns =>
    obtain ⟨k, fs, o, rfl⟩ := row.eq_node (s := .names) (t := ns) (by simp) rfl
    cases dots with
    | none => exact .of_scripted hreg row hsize (.word (.indent (.part hbody)))
    | some d =>
      obtain ⟨k', fs', o', rfl⟩ := row.eq_node (s := .dots) (t := d) (by simp) rfl
      exact .of_scripted hreg row hsize (.word (.indent (.part (.word (.part hbody)))))

/-! ### Blocks -/

def statementItems (ts : List (Category × Tree)) : List Item :=
  ts.flatMap (fun p => [.semicolons, .part p.1 p.2]) ++ [.semicolons, .clear]

theorem le_of_semicolons (h : Semicolons toks i k) (hword : Takes toks ps k t m) (hp : Blank toks i p) :
    p ≤ m := by
  cases h with
  | nil => exact hword.le_of_blank hp
  | cons h rest =>
    have hpm := h.le_of_blank hp
    have hle := rest.le
    have := hword.blank.le
    omega

theorem follows_statements_before (hts : ∀ p ∈ ts, p.1.opens = true)
    {e stop : Nat} (row : Spans toks (Followed toks) (ts.flatMap fun p => [.semicolons, .part p.1 p.2]) i e)
    (hsemi : Semicolons toks e k) (hblank : Blank toks k m) (hend : GapEnds toks stop m)
    (ht : toks[m]? = some t) (hother : t.agrees (Token.symbol ";") = false) :
    Follows toks (Tree.statsScript false (.upTo stop) (ts.map Prod.snd) ++ [.semicolons (.upTo stop)])
      i m := by
  have hstop : m ≤ stop := by
    rcases hend with rfl | ⟨hlt, -⟩ <;> omega
  have hek := hsemi.le
  have hkm := hblank.le
  induction ts generalizing i with
  | nil =>
    intro p hp hle
    cases row
    exact traces_semicolons hsemi hblank hend ht hother hp hle
  | cons q ts ih =>
    intro p hp hle
    cases row with
    | @semicolons _ _ k' _ hsemi' row =>
      obtain ⟨n, hpart, row⟩ := row.of_part
      obtain ⟨ps, u, m', htakes, hm', hother'⟩ := hpart.opens (hts q (.head _))
      have hne := row.le Followed.le
      have hfirst := traces_semicolons hsemi' htakes.blank
        (gapEnds_of_takes htakes (by omega : m' < stop)) htakes.get hother' hp
        (le_of_semicolons hsemi' htakes hp)
      have hscript := hpart.follows m' htakes.blank (Nat.le_of_lt hm')
      have hrest := (ih (fun r hr => hts r (.tail _ hr)) row).traces (by omega)
      rw [map_cons, Tree.statsScript, List.cons_append, List.append_assoc]
      exact hfirst.append (hscript.append hrest)

theorem follows_statements (hts : ∀ p ∈ ts, p.1.opens = true)
    (row : Spans toks (Followed toks) (statementItems ts) i j) (hsize : j < toks.size) :
    Follows toks (Tree.statsScript false (.upTo j) (ts.map Prod.snd) ++ [.semicolons (.upTo j)]) i j := by
  obtain ⟨e, row, hlast⟩ := Spans.append_iff.mp row
  cases hlast with
  | semicolons hsemi hlast =>
    cases hlast with
    | clear hclear hlast =>
      cases hlast
      obtain ⟨t, ht⟩ : ∃ t, toks[j]? = some t := ⟨_, Array.getElem?_eq_getElem hsize⟩
      exact follows_statements_before hts row hsemi (.refl toks j) (.inl rfl) ht (hclear t ht)

theorem block_inStep {stats : List Tree} {last : Option Tree}
    (row : Spans toks (Reached toks) (stats.flatMap (fun t => [Item.semicolons, .part .statement t]) ++
      (last.toList.flatMap (fun t => [Item.semicolons, .part .lastStatement t]) ++
        [Item.semicolons, .clear])) i j) (hsize : j < toks.size) :
    InStep toks .block (.made .chunk [.list (stats ++ last.toList)] i j) i j := by
  refine .of_follows rfl fun hgood => ?_
  let ts : List (Category × Tree) :=
    stats.map (fun t => (.statement, t)) ++ last.toList.map (fun t => (.lastStatement, t))
  have hitems : statementItems ts = stats.flatMap (fun t => [Item.semicolons, .part .statement t]) ++
      (last.toList.flatMap (fun t => [Item.semicolons, .part .lastStatement t]) ++
        [Item.semicolons, .clear]) := by
    simp [ts, statementItems, flatMap_map]
  have htrees : ts.map Prod.snd = stats ++ last.toList := by
    simp [ts, Function.comp_def]
  have hall : ∀ t ∈ stats ++ last.toList, t.legible toks = true := by
    rw [← legibleAll_iff]
    simpa [Good, Tree.made, Tree.legible, Tree.legibleAll] using hgood
  have hrow : Spans toks (Followed toks) (statementItems ts) i j := by
    rw [hitems]
    refine row.followed hsize (.append (.flatMap fun t ht => ?_) (.append (.flatMap fun t ht => ?_) trivial))
    · exact ⟨hall t (mem_append_left _ ht), trivial⟩
    · exact ⟨hall t (mem_append_right _ ht), trivial⟩
  have hopens : ∀ p ∈ ts, p.1.opens = true := by
    intro p hp
    simp only [ts, mem_append, mem_map] at hp
    obtain ⟨t, -, rfl⟩ | ⟨t, -, rfl⟩ := hp <;> rfl
  have hfollows := follows_statements hopens hrow hsize
  rw [htrees] at hfollows
  exact hfollows.gap (Nat.le_of_lt hsize)

theorem label_inStep (hreg : Regular toks) (row : Spans toks (Reached toks) [.leaf [.kind .label] t] i j) :
    InStep toks .statement (.made .statLabel [.label t.labelName] i j) i j := by
  refine .of_follows rfl fun _ => ?_
  intro p hp hle
  obtain ⟨m, htakes, row⟩ := row.of_leaf
  cases row
  have hkind : t.kind = .label := by simpa [Token.fits] using htakes.fits
  have hcode : t.code = Bytes.ofText "::" ++ t.labelName ++ Bytes.ofText "::" := by
    rw [Token.code_of_ne_string (by rw [hkind]; decide)]
    exact hreg.label htakes.get hkind
  exact ((htakes.moved hp).gaps (Nat.lt_succ_self m)).append (traces_label htakes.self (Nat.lt_succ_self m) hcode)

/-! ### Expressions -/

theorem isAt_iff : u.isAt toks (some j) = true ↔ ∃ t, toks[j]? = some t ∧ t.agrees u = true := by
  cases h : toks[j]? <;> simp [Token.isAt, h]

theorem wordFrom_of_takes (h : Takes toks ps i t m) : wordFrom toks i = some t := by
  have hall : between toks i toks.size = toks.toList.drop i := by
    rw [between, take_of_length_le (by simp)]
  have hgap : (between toks i m).find? (fun t => !t.isGap) = none := by
    rw [find?_eq_none]
    intro u hu
    simp [h.blank.isGap u hu]
  rw [wordFrom, ← hall, ← between_append h.blank.le (Nat.le_of_lt h.lt_size),
    between_cons h.get h.lt_size, find?_append, hgap]
  simp [h.solid]

theorem isFrom_of_takes (h : Takes toks ps i t m) (u : Token) : u.isFrom toks (some i) = t.agrees u := by
  simp [Token.isFrom, wordFrom_of_takes h]

theorem Derived.eq_or_takes {t : Tree} (h : Derived toks .nothing t i j) :
    i = j ∨ ∃ u m, Takes toks ([Word.sign "("].map Word.pattern) i u m ∧ m < j := by
  obtain ⟨rule, row⟩ := h
  cases rule with
  | empty =>
    cases row
    exact .inl rfl
  | emptyBrackets =>
    obtain ⟨u, m, hopen, row⟩ := row.of_word
    have hle := row.le Derived.le
    exact .inr ⟨u, m, hopen, by omega⟩

theorem Nested.of_ne {k : NodeKind} (hk : k ≠ .expValue) (fs : List Tree) (o : Origin) :
    Nested toks (.node k fs o) i j := by
  refine ⟨fun henclosed => ?_, fun v o' heq _ => ?_⟩
  · cases k with
    | expValue => exact absurd rfl hk
    | _ => cases henclosed
  · cases heq
    exact absurd rfl hk

theorem value_inStep (hv : isExpression v = false)
    (hfollows : (v.isA .tableConstructor = true → v.standsFree { span := some ⟨i, j⟩ } = true) →
      v.legible toks = true → Follows toks (valueSteps (.upTo j) v) i j) (hij : i ≤ j)
    (hfirst : v.standsFree { span := some ⟨i, j⟩ } = true → Opens toks i j "(") :
    InStep toks .term (.made .expValue [v] i j) i j := by
  refine ⟨fun hgood => ?_, fun _ => ⟨fun henclosed => ?_, fun v' o heq hv' => ?_⟩, by simp⟩
  · simp only [Good, Tree.made, Tree.legible, Bool.and_eq_true] at hgood
    obtain ⟨ps, t, m, htakes, hm, hopen⟩ := hfirst hgood.1
    exact follows_value htakes hm hopen (hfollows (fun _ => hgood.1) hgood.2)
  · simp only [Tree.made, Tree.enclosed, hv, Bool.and_eq_true, Bool.or_eq_true,
      Bool.not_eq_true', Bool.false_eq_true, reduceIte, Option.map_some, isAt_iff] at henclosed
    obtain ⟨⟨u, hclose, hu⟩, hfree, hlegible⟩ := henclosed
    refine encloses_value hclose hu ((hfollows ?_ hlegible).traces hij)
    intro htable
    rcases hfree with hfree | hfree
    · rw [htable] at hfree
      cases hfree
    · exact hfree
  · cases heq
    rw [hv] at hv'
    cases hv'

theorem not_agrees_of_kind (h : t.kind ≠ u.kind) : t.agrees u = false := by
  rw [Token.agrees, beq_eq_false_iff_ne.mpr h, Bool.false_and]

theorem kind_of_takes {k : TokenKind} (hk : k ≠ .general) (h : Takes toks [.kind k] i t m) : t.kind = k := by
  obtain ⟨p, hp, hfits⟩ := h.fits
  cases mem_singleton.mp hp
  cases k <;> simp_all [Token.fits]

theorem kind_of_takes_word (h : Takes toks ([w].map Word.pattern) i t m) : t.kind = w.token.kind := by
  have hagrees : t.agrees w.token = true := by simpa [Word.pattern, Token.fits] using h.fits
  exact kind_eq_of_agrees hagrees

theorem constant_inStep (hreg : Regular toks) {word : String} {value : Tree}
    (h : (word, value) ∈ constants) (row : Spans toks (Reached toks) [.reserved word] i j)
    (hsize : j < toks.size) : InStep toks .term (.made .expValue [value] i j) i j := by
  have hscripted : isExpression value = false ∧ (Word.reserved word).isLower = true ∧
      valueSteps (.upTo j) value = [.text (.upTo j) (Word.reserved word).token.data] := by
    simp only [constants, mem_cons, Prod.mk.injEq, not_mem_nil, or_false] at h
    obtain ⟨rfl, rfl⟩ | ⟨rfl, rfl⟩ | ⟨rfl, rfl⟩ := h <;> exact ⟨rfl, rfl, rfl⟩
  obtain ⟨hvalue, hlower, hsteps⟩ := hscripted
  refine value_inStep hvalue (fun _ _ => ?_) (row.le fun h => h.1.le) (fun _ => ?_)
  · rw [hsteps]
    intro p hp hle
    exact Scripted.traces hreg (.word .nil hlower)
      ((row.followed hsize trivial).moved rfl hp) (Nat.le_refl j)
  · obtain ⟨_, _, htakes, row⟩ := row.of_word
    cases row
    refine ⟨_, _, _, htakes, Nat.lt_succ_self _, not_agrees_of_kind ?_⟩
    rw [kind_of_takes_word htakes]
    exact fun h => by cases h

theorem literal_inStep (hreg : Regular toks) {k : TokenKind} (hk : k = .number ∨ k = .string)
    (row : Spans toks (Reached toks) [.leaf [.kind k] t] i j) (hsize : j < toks.size) :
    InStep toks .term (.made .expValue [.token t] i j) i j := by
  have hkind : t.kind = k := by
    obtain ⟨_, htakes, row⟩ := row.of_leaf
    exact kind_of_takes (by rcases hk with rfl | rfl <;> decide) htakes
  have hsteps : valueSteps (.upTo j) (.token t) = [.gap (.upTo j), .take t.code] := by
    rw [valueSteps, hkind]
    rcases hk with rfl | rfl <;> rfl
  have hopens : (Item.leaf [.kind k] t).opens = true := by
    rcases hk with rfl | rfl <;> rfl
  refine value_inStep rfl (fun _ _ => ?_) (row.le fun h => h.1.le) (fun _ => ?_)
  · rw [hsteps]
    intro p hp hle
    exact Scripted.traces hreg (.literal .nil)
      ((row.followed hsize trivial).moved hopens hp) (Nat.le_refl j)
  · obtain ⟨_, htakes, row⟩ := row.of_leaf
    cases row
    refine ⟨_, _, _, htakes, Nat.lt_succ_self _, not_agrees_of_kind ?_⟩
    rw [hkind]
    rcases hk with rfl | rfl <;> decide

theorem valueSteps_node (hv : v.isNode = true) (w : Owner) : valueSteps w v = v.script false := by
  cases v with
  | node => rfl
  | _ => cases hv

theorem Derived.first_of_function {t : Tree} (h : Derived toks .function t i j) : Opens toks i j "(" := by
  obtain ⟨rule, row⟩ := h
  cases rule with
  | function =>
    obtain ⟨_, _, htakes, row⟩ := row.of_word
    have hle := row.le Derived.le
    refine ⟨_, _, _, htakes, by omega, not_agrees_of_kind ?_⟩
    rw [kind_of_takes_word htakes]
    decide

theorem functionValue_inStep {t : Tree} (row : Spans toks (Reached toks) [.part .function t] i j)
    (hsize : j < toks.size) : InStep toks .term (.made .expValue [t] i j) i j := by
  obtain ⟨k, fs, o, rfl⟩ := row.eq_node (.head _) rfl
  obtain ⟨_, hpart, row⟩ := row.of_part
  cases row
  have hvalue : isExpression (.node k fs o) = false := by
    obtain ⟨rule, -⟩ := hpart.1
    cases rule
    rfl
  refine value_inStep hvalue (fun _ hlegible => ?_) hpart.1.le (fun _ => hpart.1.first_of_function)
  exact (hpart.2 hsize).follows hlegible

theorem startsWithName_of_isExpression {t : Tree} (h : isExpression t = true) :
    t.startsWithName = false := by
  cases t with
  | node k fs o => cases k <;> simp_all [isExpression, Tree.startsWithName]
  | _ => rfl

theorem Derived.of_perhaps {t : Tree} (h : Derived toks .perhaps t i j) (ht : t ≠ .absent) :
    Derived toks .expression t i j := by
  obtain ⟨rule, row⟩ := h
  cases rule with
  | given =>
    obtain ⟨_, hexp, row⟩ := row.of_part
    cases row
    exact hexp
  | missing => exact absurd rfl ht

theorem Derived.first_of_chain {t : Tree} (h : Derived toks .chain t i j)
    (ht : t.startsWithName = true) : Opens toks i j "(" := by
  refine Derived.induct (P := fun s t i j => s = .chain ∨ s = .base → t.startsWithName = true →
    Opens toks i j "(") ?_ h (.inl rfl) ht
  intro s t i j items rule row hs ht
  cases rule with
  | «variable» =>
    obtain ⟨_, htakes, row⟩ := row.of_leaf
    cases row
    refine ⟨_, _, _, htakes, Nat.lt_succ_self _, not_agrees_of_kind ?_⟩
    rw [kind_of_takes (by decide) htakes]
    decide
  | index | «attribute» | callOf | methodOf =>
    obtain ⟨_, hpart, row⟩ := row.of_part
    have hle := row.le fun h => h.1.le
    exact (hpart.2 (.inr rfl) ht).mono hle
  | chainBase =>
    obtain ⟨_, hpart, row⟩ := row.of_part
    cases row
    exact hpart.2 (.inl rfl) ht
  | bracketedBase =>
    -- what stands in parentheses is an expression, if anything
    obtain ⟨_, _, _, row⟩ := row.of_word
    obtain ⟨_, hpart, row⟩ := row.of_part
    have hne : t ≠ .absent := by
      rintro rfl
      cases ht
    have hexpression := (hpart.1.of_perhaps hne).isExpression_eq (.inl rfl)
    rw [startsWithName_of_isExpression hexpression] at ht
    cases ht
  | _ => simp at hs

theorem Derived.eq_chain {t : Tree} (h : Derived toks .chain t i j) :
    ∃ k fs o, t = .node k fs o ∧
      k ∈ [NodeKind.varName, .varIndex, .varAttribute, .functionCall, .functionCallMethod] := by
  obtain ⟨rule, row⟩ := h
  cases rule <;> exact ⟨_, _, _, rfl, by decide⟩

theorem chainValue_inStep {t : Tree} (row : Spans toks (Reached toks) [.part .chain t] i j)
    (hsize : j < toks.size) : InStep toks .term (.made .expValue [t] i j) i j := by
  obtain ⟨_, hpart, row⟩ := row.of_part
  cases row
  obtain ⟨k, fs, o, rfl, hk⟩ := hpart.1.eq_chain
  simp only [mem_cons, not_mem_nil, or_false] at hk
  refine value_inStep ?_ (fun _ hlegible => ?_) hpart.1.le (fun hfree => ?_)
  · obtain rfl | rfl | rfl | rfl | rfl := hk <;> rfl
  · exact (hpart.2 hsize).follows hlegible
  · refine hpart.1.first_of_chain ?_
    obtain rfl | rfl | rfl | rfl | rfl := hk
    · rfl
    all_goals exact hfree

theorem Derived.eq_table {t : Tree} (h : Derived toks .table t i j) :
    (∃ fs, t = .made .tableConstructor fs i j) ∧ Opens toks i j "(" := by
  obtain ⟨rule, row⟩ := h
  cases rule with
  | table =>
    refine ⟨⟨_, rfl⟩, ?_⟩
    obtain ⟨u, m, htakes, row⟩ := row.of_word
    have hle := row.le Derived.le
    exact ⟨_, u, m, htakes, by omega, not_agrees_of_symbol (agrees_of_takes_sign htakes) (by decide)⟩

theorem tableValue_inStep {t : Tree}
    (row : Spans toks (Reached toks) [.part .nothing .absent, .part .table t] i j)
    (hsize : j < toks.size) : InStep toks .term (.made .expValue [t] i j) i j := by
  obtain ⟨n, hnothing, row⟩ := row.of_part
  obtain ⟨_, hpart, row⟩ := row.of_part
  cases row
  obtain ⟨⟨fs, rfl⟩, hfirst⟩ := hpart.1.eq_table
  -- a table that stands free has no parentheses before it
  have heq : (Tree.made .tableConstructor fs n j).standsFree { span := some ⟨i, j⟩ } = true →
      n = i := by
    intro hfree
    simpa [Tree.made, standsFree] using hfree
  have hle := hnothing.1.le
  refine value_inStep rfl (fun hfree hlegible => ?_) (Nat.le_trans hle hpart.1.le) (fun hfree => ?_)
  · cases heq (hfree rfl)
    exact (hpart.2 hsize).follows hlegible
  · cases heq hfree
    exact hfirst

theorem Derived.closes_of_enclosed {t : Tree} (h : Derived toks .expression t i j)
    (ht : t.enclosed toks = true) : ∃ u, toks[j]? = some u ∧ u.agrees (Token.symbol ")") = true := by
  have hstop := h.stop?_eq rfl
  unfold Tree.enclosed at ht
  split at ht
  · next v o =>
    rw [Bool.and_eq_true, show o.span.map Span.stop = some j from hstop, isAt_iff] at ht
    exact ht.1
  · cases ht

theorem bracketed_inStep {t : Tree}
    (row : Spans toks (Reached toks) [.sign "(", .part .expression t, .sign ")"] i j)
    (hsize : j < toks.size) : InStep toks .term (.made .expValue [t] i j) i j := by
  have hexpression := isExpression_of_row (row.mono And.left)
  refine ⟨fun hgood => ?_, fun _ => ?_, by simp⟩
  · have hlegible : t.legible toks = true := by
      simp only [Good, Tree.made, Tree.legible, Bool.and_eq_true] at hgood
      exact hgood.2
    exact follows_bracketed (row.followed hsize ⟨hlegible, trivial⟩) hexpression
  obtain ⟨_, m, hopen, row⟩ := row.of_word
  obtain ⟨k, hpart, row⟩ := row.of_part
  obtain ⟨_, n, hlast, row⟩ := row.of_word
  cases row
  have hkn := hlast.blank.le
  have hinner := hpart.2 (by omega)
  refine ⟨fun henclosed => ?_, fun v o heq _ => ?_⟩
  · simp only [Tree.made, Tree.enclosed, hexpression, Bool.and_eq_true, reduceIte,
      Option.map_some, isAt_iff] at henclosed
    obtain ⟨⟨u, hclose, hu⟩, ht⟩ := henclosed
    refine encloses_value hclose hu ?_
    -- both parentheses around the inner value are written with it
    obtain ⟨u', hu', hagrees⟩ := hpart.1.closes_of_enclosed ht
    cases eq_of_solid hlast hu' (isGap_of_agrees_symbol hagrees)
    have hnode : t.isNode = true := by
      cases t with
      | node => rfl
      | _ => cases hexpression
    rw [valueSteps_node hnode]
    exact (hinner.nested (.inl rfl)).encloses ht hopen rfl
  · cases heq
    refine .word hopen (.part (fun ht => ?_) (.word hlast (.nil _)))
    exact ⟨hpart.1.le, hpart.1.opens, hinner.follows ht⟩

theorem operation_inStep (hreg : Regular toks) {second : Tree}
    (row : Spans toks (Reached toks) [.part .expression first, .place m, .leaf binaryOperators op,
      .part .term second] i j) (hsize : j < toks.size) :
    InStep toks .expression (.made .expBinOp [first, .token op, second] m j) i j := by
  refine ⟨fun hgood => ?_, fun _ => .of_ne (by decide) _ _, by simp⟩
  have hall : first.legible toks = true ∧ second.legible toks = true := by
    simpa [Good, Tree.made, Tree.legible, Tree.legibleAll] using hgood
  exact Scripted.follows hreg (.part (.place (.operator .last)))
    (row.followed hsize ⟨hall.1, hall.2, trivial⟩) rfl (Nat.le_of_lt hsize)

theorem unary_inStep (hreg : Regular toks) {exp : Tree}
    (row : Spans toks (Reached toks) [.part .nothing .absent, .leaf unaryOperators op,
      .part .expression exp] i j) (hsize : j < toks.size) :
    InStep toks .term (.made .expUnOp [.token op, exp] i j) i j := by
  refine ⟨fun hgood => ?_, fun _ => .of_ne (by decide) _ _, by simp⟩
  have hall : (Token.symbol "(").isFrom toks (some i) = false ∧ exp.legible toks = true := by
    simpa [Good, Tree.made, Tree.legible, Tree.legibleAll] using hgood
  obtain ⟨_, hnothing, row⟩ := row.of_part
  rcases hnothing.1.eq_or_takes with rfl | ⟨u, m, htakes, -⟩
  · exact Scripted.follows hreg (.operator .last)
      (row.followed hsize ⟨hall.2, trivial⟩) rfl (Nat.le_of_lt hsize)
  · rw [isFrom_of_takes htakes, agrees_of_takes_sign htakes] at hall
    cases hall.1

/-! ### Variables and calls -/

theorem Spans.arguments (row : Spans toks (Reached toks) (items ++ [Item.part .arguments args]) i j)
    (hsize : j < toks.size) (hgood : AllGood toks items) (hargs : args.legible toks = true) :
    (∃ k fs o, args = .node k fs o ∧
      Spans toks (Followed toks) (items ++ [Item.part .arguments args]) i j) ∨
    ∃ u, args = .token u ∧ u.kind = .string ∧
      Spans toks (Followed toks) (items ++ [Item.leaf [.kind .string] u]) i j := by
  have hnode : args.isNode = true → ∃ k fs o, args = .node k fs o ∧
      Spans toks (Followed toks) (items ++ [Item.part .arguments args]) i j := by
    intro hnode
    cases args with
    | node k fs o => exact ⟨k, fs, o, rfl, row.followed hsize (hgood.append ⟨⟨rfl, hargs⟩, trivial⟩)⟩
    | _ => cases hnode
  obtain ⟨n, hitems, hlast⟩ := Spans.append_iff.mp row
  have hle := hlast.le fun h => h.1.le
  obtain ⟨_, hpart, hlast⟩ := hlast.of_part
  cases hlast
  obtain ⟨rule, hrow⟩ := hpart.1
  cases rule with
  | givenArguments => exact .inl (hnode rfl)
  | tableArgument =>
    obtain ⟨_, htable, hrow⟩ := hrow.of_part
    obtain ⟨⟨fs, rfl⟩, -⟩ := htable.eq_table
    exact .inl (hnode rfl)
  | stringArgument =>
    obtain ⟨_, htakes, hrow⟩ := hrow.of_leaf
    cases hrow
    refine .inr ⟨_, rfl, kind_of_takes (by decide) htakes, ?_⟩
    exact (hitems.followed (by omega) hgood).append (.leaf htakes (.nil _))

theorem callOf_inStep (hreg : Regular toks)
    (row : Spans toks (Reached toks) [.part .base first, .place m, .part .arguments args] i j)
    (hsize : j < toks.size) : InStep toks .chain (.made .functionCall [first, args] m j) i j := by
  refine .of_follows rfl fun hgood => ?_
  have hall : first.legibleBase toks = true ∧ args.legible toks = true := by
    simpa [Good, Tree.made, Tree.legible, Tree.legibleAll, Tree.legibleBase] using hgood
  have hcut : Spans toks (Reached toks) ([.part .base first, .place m] ++ [.part .arguments args]) i j :=
    row
  have hrow := hcut.arguments hsize ⟨hall.1, trivial⟩ hall.2
  obtain ⟨k, fs, o, rfl, hrow⟩ | ⟨u, rfl, hkind, hrow⟩ := hrow
  · exact Scripted.follows hreg (.part (.place .last)) hrow rfl (Nat.le_of_lt hsize)
  · have hscript : (Tree.made .functionCall [first, .token u] m j).script false =
        .gap (.upTo j) :: (first.script false ++ [.gap (.upTo j), .take u.code]) := by
      simp only [Tree.made, Tree.script, hkind, beq_self_eq_true, reduceIte]
      rfl
    rw [hscript]
    exact Scripted.follows hreg (.part (.place (.literal .nil))) hrow rfl
      (Nat.le_of_lt hsize)

theorem methodOf_inStep (hreg : Regular toks)
    (row : Spans toks (Reached toks) [.part .base first, .place m, .sign ":", .name t,
      .part .arguments args] i j) (hsize : j < toks.size) :
    InStep toks .chain (.made .functionCallMethod [first, .token t, args] m j) i j := by
  refine .of_follows rfl fun hgood => ?_
  have hall : first.legibleBase toks = true ∧ args.legible toks = true := by
    simpa [Good, Tree.made, Tree.legible, Tree.legibleAll, Tree.legibleBase] using hgood
  have hcut : Spans toks (Reached toks) ([Item.part .base first, .place m, .sign ":", .name t] ++
      [Item.part .arguments args]) i j := row
  have hrow := hcut.arguments hsize ⟨hall.1, trivial⟩ hall.2
  obtain ⟨k, fs, o, rfl, hrow⟩ | ⟨u, rfl, hkind, hrow⟩ := hrow
  · have hscript : (Tree.made .functionCallMethod [first, .token t, .node k fs o] m j).script false =
        .gap (.upTo j) :: (first.script false ++ (.text (.upTo j) (Tree.word ":") ::
          .name (.upTo j) (.token t) :: (node k fs o).script false)) := by
      simp only [Tree.made, Tree.script, List.append_assoc]
      rfl
    rw [hscript]
    exact Scripted.follows hreg (.part (.place (.word (.name .last))))
      hrow rfl (Nat.le_of_lt hsize)
  · have hscript : (Tree.made .functionCallMethod [first, .token t, .token u] m j).script false =
        .gap (.upTo j) :: (first.script false ++ (.text (.upTo j) (Tree.word ":") ::
          .name (.upTo j) (.token t) :: [.gap (.upTo j), .check u, .take u.code])) := by
      simp only [Tree.made, Tree.script, hkind, beq_self_eq_true, reduceIte, List.append_assoc]
      rfl
    rw [hscript]
    exact Scripted.follows hreg
      (.part (.place (.word (.name (.checked .nil))))) hrow rfl
      (Nat.le_of_lt hsize)

theorem bracketedBase_inStep {t : Tree}
    (row : Spans toks (Reached toks) [.sign "(", .part .perhaps t, .sign ")"] i j)
    (hsize : j < toks.size) : InStep toks .base t i j := by
  refine .of_follows rfl fun hgood => ?_
  intro p hp hle
  obtain ⟨_, m, hopen, row⟩ := row.of_word
  obtain ⟨k, hpart, row⟩ := row.of_part
  obtain ⟨_, n, hlast, row⟩ := row.of_word
  cases row
  have hkn := hlast.blank.le
  have hne : t ≠ .absent := by
    rintro rfl
    cases hgood
  have hexp := hpart.1.of_perhaps hne
  have ht : t.enclosed toks = true := by
    simpa [Good, Tree.legibleBase, hexp.isExpression_eq (.inl rfl)] using hgood
  obtain ⟨u, hu, hagrees⟩ := hexp.closes_of_enclosed ht
  cases eq_of_solid hlast hu (isGap_of_agrees_symbol hagrees)
  exact ((hpart.2 (by omega)).nested (.inr (.inr rfl))).encloses ht (hopen.moved hp) rfl

end Legible

end Grammar
end Cartridge.Lua
