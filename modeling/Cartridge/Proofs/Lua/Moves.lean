import Cartridge.Proofs.Lua.Content
import Cartridge.Proofs.Lua.Retracing

/-!
# What a pen does, whatever its style

Where a pen goes depends on the tokens only.  A pen that writes gaps as in the source and one that lays
them out pass the same tokens, and write the same words; the texts of the gaps are all that differs.  So
what a pen does is a list of acts, and a style gives each gap among them a text.
-/

namespace Cartridge.Lua

open List
namespace Pen

open Grammar

variable {acts : List Act} {s : Spelling} {st : Stand} {steps : List Step}

variable {count i j m : Nat} {p q : Pen} {ts : List Token} {w : Bytes}

inductive Act where
  | gap (start stop depth : Nat)
  | sign (pos : Nat) (text : Bytes)
  | word (pos : Nat) (text : Bytes)
  | extra (text : Bytes)
  deriving DecidableEq, Repr

def Act.text (lay : Nat → Nat → Nat → Bytes) : Act → Bytes
  | gap i j depth => lay i j depth
  | sign _ text | word _ text | extra text => text

def texts (lay : Nat → Nat → Nat → Bytes) (acts : List Act) : Bytes := acts.flatMap (Act.text lay)

@[simp] theorem texts_nil (lay : Nat → Nat → Nat → Bytes) : texts lay [] = [] := rfl

@[simp] theorem texts_cons (lay : Nat → Nat → Nat → Bytes) (a : Act) (acts : List Act) :
    texts lay (a :: acts) = a.text lay ++ texts lay acts := rfl

theorem texts_append (lay : Nat → Nat → Nat → Bytes) (acts more : List Act) :
    texts lay (acts ++ more) = texts lay acts ++ texts lay more :=
  flatMap_append

def asSource (toks : Array Token) (i j _depth : Nat) : Bytes := sourceText (between toks i j)

def laidOut (width : Int) (toks : Array Token) (i j depth : Nat) : Bytes :=
  Gap.formatted (indentation width depth) (i = 0) (j = toks.size) (sourceText (between toks i j))

def formatting (width : Int) : Manner := { style := .format (some width) }

structure Stand where
  pos : Nat
  depth : Nat
  parens : List Bool
  deriving DecidableEq, Repr

def stand (p : Pen) : Stand := ⟨p.pos, p.depth, p.parens⟩

/-! ### Gaps -/

section Gaps

variable {α β : Type} {toks : Array Token} {owner : Owner}

theorem bind_ok {x : Write α} {f : α → Write β} {r : Pen} {b : β} (h : (x >>= f) p = .ok b r) :
    ∃ a q, x p = .ok a q ∧ f a q = .ok b r := by
  change EStateM.bind x f p = .ok b r at h
  unfold EStateM.bind at h
  split at h
  · next a q hx => exact ⟨a, q, hx, h⟩
  · cases h

theorem pure_ok {a b : α} (h : (pure a : Write α) p = .ok b q) : a = b ∧ p = q := by
  cases h
  exact ⟨rfl, rfl⟩

theorem next_ok {t : Token} (h : next toks p = .ok t q) : q = p ∧ toks[p.pos]? = some t := by
  obtain ⟨p', q', hget, h⟩ := bind_ok h
  cases hget
  cases ht : toks[p.pos]? with
  | none =>
    rw [ht] at h
    cases h
  | some u =>
    rw [ht] at h
    obtain ⟨rfl, rfl⟩ := pure_ok h
    exact ⟨rfl, rfl⟩

theorem within_ok {b : Bool} (h : within toks owner p = .ok b q) :
    q = p ∧ ∀ p' : Pen, p'.pos = p.pos → within toks owner p' = .ok b p' := by
  cases owner with
  | program =>
    cases h
    refine ⟨rfl, fun p' hp' => ?_⟩
    rw [← hp']
    rfl
  | upTo stop =>
    cases h
    refine ⟨rfl, fun p' hp' => ?_⟩
    rw [← hp']
    rfl
  | unplaced => cases h
  | foreign => cases h

structure Skips (toks : Array Token) (owner : Owner) (i j : Nat) : Prop where
  blank : Blank toks i j
  run : ∀ p : Pen, p.pos = i →
    takeGap toks owner (toks.size + 1) p = .ok (between toks i j) { p with pos := j }
  ends : ∀ p : Pen, p.pos = j → takeGap toks owner (toks.size + 1) p = .ok [] p

theorem takeGap_cases (h : takeGap toks owner (count + 1) p = .ok ts q) :
    (ts = [] ∧ q = p ∧
        ∀ (p' : Pen) (n : Nat), p'.pos = p.pos → takeGap toks owner (n + 1) p' = .ok [] p') ∨
      ∃ t rest, toks[p.pos]? = some t ∧ t.isGap = true ∧ ts = t :: rest ∧
        takeGap toks owner count { p with pos := p.pos + 1 } = .ok rest q ∧
        ∀ p' : Pen, p'.pos = p.pos → within toks owner p' = .ok true p' := by
  obtain ⟨b, p₁, hwithin, hbranch⟩ := bind_ok h
  obtain ⟨rfl, hall⟩ := within_ok hwithin
  cases b with
  | false =>
    obtain ⟨rfl, rfl⟩ := pure_ok hbranch
    exact .inl ⟨rfl, rfl, fun p' n hp' => bind_eq_ok (hall p' hp') rfl⟩
  | true =>
    obtain ⟨t, p₂, hnext, htoken⟩ := bind_ok hbranch
    obtain ⟨rfl, ht⟩ := next_ok hnext
    cases hgap : t.isGap with
    | false =>
      rw [hgap] at htoken
      obtain ⟨rfl, rfl⟩ := pure_ok htoken
      refine .inl ⟨rfl, rfl, fun p' n hp' => bind_eq_ok (hall p' hp') ?_⟩
      refine bind_eq_ok (next_eq (hp' ▸ ht)) ?_
      rw [hgap]
      rfl
    | true =>
      rw [hgap] at htoken
      obtain ⟨_, p₃, hadvance, hlater⟩ := bind_ok htoken
      cases hadvance
      obtain ⟨rest, p₄, hrest, hlast⟩ := bind_ok hlater
      obtain ⟨rfl, rfl⟩ := pure_ok hlast
      exact .inr ⟨t, rest, ht, hgap, rfl, hrest, hall⟩

theorem takeGap_ok (h : takeGap toks owner (count + 1) p = .ok ts q) (hcount : toks.size ≤ p.pos + count) :
    q = { p with pos := q.pos } ∧ Blank toks p.pos q.pos ∧ ts = between toks p.pos q.pos ∧
      (∀ p' : Pen, p'.pos = p.pos →
        takeGap toks owner (count + 1) p' = .ok ts { p' with pos := q.pos }) ∧
      ∀ (p' : Pen) (n : Nat), p'.pos = q.pos → takeGap toks owner (n + 1) p' = .ok [] p' := by
  induction count generalizing p q ts with
  | zero =>
    rcases takeGap_cases h with ⟨rfl, rfl, hall⟩ | ⟨t, rest, ht, -⟩
    · refine ⟨rfl, .refl toks _, (between_self toks _).symm, fun p' hp' => ?_, hall⟩
      rw [hall p' 0 hp', ← hp']
    · -- there is no token behind the last one
      have hlt := (Array.getElem?_eq_some_iff.mp ht).1
      omega
  | succ count ih =>
    rcases takeGap_cases h with ⟨rfl, rfl, hall⟩ | ⟨t, rest, ht, hgap, rfl, hrest, hall⟩
    · refine ⟨rfl, .refl toks _, (between_self toks _).symm, fun p' hp' => ?_, hall⟩
      rw [hall p' (count + 1) hp', ← hp']
    · obtain ⟨heq, hblank, hts, hrun, hends⟩ := ih hrest (by show _ ≤ p.pos + 1 + count; omega)
      have hlt : p.pos < q.pos := hblank.le
      refine ⟨by rw [heq], ⟨Nat.le_of_lt hlt, fun n hn hnq => ?_⟩, ?_, fun p' hp' => ?_, hends⟩
      · rcases Nat.eq_or_lt_of_le hn with rfl | hn
        · exact ⟨t, ht, hgap⟩
        · exact hblank.gap n hn hnq
      · rw [hts, between_cons ht hlt]
      · refine bind_eq_ok (hall p' hp') (bind_eq_ok (next_eq (hp' ▸ ht)) ?_)
        rw [hgap]
        refine bind_eq_ok rfl (bind_eq_ok (hrun { p' with pos := p'.pos + 1 } ?_) rfl)
        rw [hp']

theorem skips_of_takeGap (h : takeGap toks owner (toks.size + 1) p = .ok ts q) :
    ∃ j, Skips toks owner p.pos j ∧ q = { p with pos := j } ∧ ts = between toks p.pos j := by
  obtain ⟨heq, hblank, hts, hrun, hends⟩ := takeGap_ok h (Nat.le_add_left _ _)
  rw [hts] at hrun
  exact ⟨q.pos, ⟨hblank, hrun, fun p' hp' => hends p' _ hp'⟩, heq, hts⟩

theorem gap_ok (h : gap {} toks owner p = .ok w q) :
    ∃ j, Skips toks owner p.pos j ∧ q = { p with pos := j } ∧ w = asSource toks p.pos j p.depth := by
  obtain ⟨ts, p₁, hts, h⟩ := bind_ok h
  obtain ⟨rfl, rfl⟩ := pure_ok h
  obtain ⟨j, hskips, heq, rfl⟩ := skips_of_takeGap hts
  exact ⟨j, hskips, heq, rfl⟩

theorem Skips.gap (h : Skips toks owner i j) (width : Int) (hp : p.pos = i) :
    Pen.gap (formatting width) toks owner p =
      .ok (laidOut width toks i j p.depth) { p with pos := j } := by
  subst hp
  exact bind_eq_ok rfl (bind_eq_ok (h.run p rfl) (bind_eq_ok rfl rfl))

end Gaps

/-! ### Words -/

def isWordOf (word : Bytes) (t : Token) : Bool :=
  t.agrees { kind := .keyword, data := word } || t.agrees { kind := .symbol, data := word }

structure Finds (toks : Array Token) (owner : Owner) (word : Bytes) (i m : Nat) : Prop where
  skips : Skips toks owner i m
  found : ∃ t, toks[m]? = some t ∧ isWordOf word t = true

/-- The acts for semicolons and the gaps around them, of at most `count` semicolons. -/
inductive Loosens (toks : Array Token) (owner : Owner) (depth : Nat) :
    Nat → Nat → List Act → Nat → Prop
  | done (i : Nat) : Loosens toks owner depth 0 i [] i
  | stop {count i m : Nat} {t : Token} (hskips : Skips toks owner i m) (ht : toks[m]? = some t)
      (hother : t.agrees (Token.symbol ";") = false) :
      Loosens toks owner depth (count + 1) i [.gap i m depth] m
  | more {count i m j : Nat} {t : Token} {acts : List Act} (hskips : Skips toks owner i m)
      (ht : toks[m]? = some t) (hsemi : t.agrees (Token.symbol ";") = true)
      (hrest : Loosens toks owner depth count (m + 1) acts j) :
      Loosens toks owner depth (count + 1) i (.gap i m depth :: .sign m (Bytes.ofText ";") :: acts) j

section Words

variable {toks : Array Token} {owner : Owner} {word : Bytes}

theorem textFor_ok (h : textFor {} toks owner word p = .ok w q) :
    ∃ m, Finds toks owner word p.pos m ∧ q = { p with pos := m + 1 } ∧
      w = texts (asSource toks) [.gap p.pos m p.depth, .sign m word] := by
  obtain ⟨spaces, p₁, hgap, h⟩ := bind_ok h
  obtain ⟨m, hskips, rfl, rfl⟩ := gap_ok hgap
  obtain ⟨t, p₂, hnext, h⟩ := bind_ok h
  obtain ⟨rfl, ht⟩ := next_ok hnext
  cases hword : isWordOf word t with
  | false =>
    rw [isWordOf] at hword
    rw [hword] at h
    cases h
  | true =>
    refine ⟨m, ⟨hskips, t, ht, hword⟩, ?_⟩
    rw [isWordOf] at hword
    rw [hword] at h
    obtain ⟨_, p₃, hadvance, h⟩ := bind_ok h
    cases hadvance
    obtain ⟨rfl, rfl⟩ := pure_ok h
    exact ⟨rfl, by simp [Act.text]⟩

theorem Finds.textFor (h : Finds toks owner word p.pos m) (width : Int) :
    Pen.textFor (formatting width) toks owner word p =
      .ok (texts (laidOut width toks) [.gap p.pos m p.depth, .sign m word]) { p with pos := m + 1 } := by
  obtain ⟨t, ht, hword⟩ := h.found
  refine bind_eq_ok (h.skips.gap width rfl) (bind_eq_ok (next_eq ht) ?_)
  rw [isWordOf] at hword
  rw [hword]
  refine bind_eq_ok rfl ?_
  simp [Act.text]
  rfl

theorem nameFor_ok (h : nameFor {} toks owner s p = .ok w q) :
    ∃ m text, Skips toks owner p.pos m ∧ Spells s text ∧ q = { p with pos := m + 1 } ∧
      w = texts (asSource toks) [.gap p.pos m p.depth, .word m text] := by
  obtain ⟨spaces, p₁, hgap, h⟩ := bind_ok h
  obtain ⟨m, hskips, rfl, rfl⟩ := gap_ok hgap
  obtain ⟨_, p₂, hcheck, h⟩ := bind_ok h
  obtain ⟨_, p₃, hadvance, h⟩ := bind_ok h
  cases hadvance
  obtain ⟨text, p₄, hspelled, h⟩ := bind_ok h
  obtain ⟨rfl, rfl⟩ := pure_ok h
  cases s with
  | token t =>
    rw [checkName] at hcheck
    cases hkind : t.kind == .name with
    | false =>
      rw [hkind] at hcheck
      cases hcheck
    | true =>
      rw [hkind] at hcheck
      cases hcheck
      cases hspelled
      exact ⟨m, t.code, hskips, ⟨beq_iff_eq.mp hkind, rfl⟩, rfl, by simp [Act.text]⟩
  | label b =>
    cases hcheck
    cases hspelled
    exact ⟨m, _, hskips, rfl, rfl, by simp [Act.text]⟩
  | noToken => cases hcheck
  | noName => cases hspelled

theorem Skips.nameFor {text : Bytes} (h : Skips toks owner p.pos m) (hs : Spells s text) (width : Int) :
    Pen.nameFor (formatting width) toks owner s p =
      .ok (texts (laidOut width toks) [.gap p.pos m p.depth, .word m text]) { p with pos := m + 1 } := by
  have htexts : texts (laidOut width toks) [.gap p.pos m p.depth, .word m text] =
      laidOut width toks p.pos m p.depth ++ text := by
    simp [Act.text]
  rw [htexts]
  refine bind_eq_ok (h.gap width rfl) ?_
  cases s with
  | token u =>
    have hcheck : ∀ q : Pen, checkName (.token u) q = .ok () q := by
      intro q
      rw [checkName, hs.1]
      rfl
    rw [← hs.2]
    exact bind_eq_ok (hcheck _) (bind_eq_ok rfl (bind_eq_ok rfl rfl))
  | label name =>
    rw [← (show name = text from hs)]
    exact bind_eq_ok rfl (bind_eq_ok rfl (bind_eq_ok rfl rfl))
  | noToken => cases hs
  | noName => cases hs

theorem semicolonsFor_ok (h : semicolonsFor {} toks owner (Bytes.ofText ";") count p = .ok w q) :
    ∃ acts j, Loosens toks owner p.depth count p.pos acts j ∧ q = { p with pos := j } ∧
      w = texts (asSource toks) acts := by
  induction count generalizing p w with
  | zero =>
    obtain ⟨rfl, rfl⟩ := pure_ok h
    exact ⟨[], _, .done _, rfl, rfl⟩
  | succ count ih =>
    obtain ⟨spaces, p₁, hgap, hbranch⟩ := bind_ok h
    obtain ⟨m, hskips, rfl, rfl⟩ := gap_ok hgap
    obtain ⟨t, p₂, hnext, htoken⟩ := bind_ok hbranch
    obtain ⟨rfl, ht⟩ := next_ok hnext
    cases hsemi : t.agrees (Token.symbol ";") with
    | false =>
      rw [hsemi] at htoken
      obtain ⟨rfl, rfl⟩ := pure_ok htoken
      exact ⟨_, m, .stop hskips ht hsemi, rfl, by simp [Act.text]⟩
    | true =>
      rw [hsemi] at htoken
      obtain ⟨_, p₃, hadvance, hlater⟩ := bind_ok htoken
      cases hadvance
      obtain ⟨rest, p₄, hrest, hlast⟩ := bind_ok hlater
      obtain ⟨rfl, rfl⟩ := pure_ok hlast
      obtain ⟨acts, j, hacts, rfl, rfl⟩ := ih hrest
      exact ⟨_, j, .more hskips ht hsemi hacts, rfl, by simp [Act.text]⟩

theorem Loosens.semicolonsFor {depth : Nat} (h : Loosens toks owner depth count i acts j)
    (width : Int) (hi : p.pos = i) (hd : p.depth = depth) :
    Pen.semicolonsFor (formatting width) toks owner (Bytes.ofText ";") count p =
      .ok (texts (laidOut width toks) acts) { p with pos := j } := by
  induction h generalizing p with
  | done i =>
    rw [← hi]
    rfl
  | stop hskips ht hother =>
    refine bind_eq_ok (hskips.gap width hi) (bind_eq_ok (next_eq ht) ?_)
    rw [hother, ← hd]
    simp [Act.text]
    rfl
  | @more count i m j t acts hskips ht hsemi hrest ih =>
    refine bind_eq_ok (hskips.gap width hi) (bind_eq_ok (next_eq ht) ?_)
    rw [hsemi]
    refine bind_eq_ok rfl (bind_eq_ok (ih (p := { p with pos := m + 1 }) rfl hd) ?_)
    rw [← hd]
    simp [Act.text]
    rfl

end Words

/-! ### Steps -/

inductive Moves (toks : Array Token) : Step → Stand → List Act → Stand → Prop
  | gap {owner : Owner} {i j d : Nat} {ps : List Bool} (h : Skips toks owner i j) :
      Moves toks (.gap owner) ⟨i, d, ps⟩ [.gap i j d] ⟨j, d, ps⟩
  | text {owner : Owner} {word : Bytes} {i m d : Nat} {ps : List Bool}
      (h : Finds toks owner word i m) :
      Moves toks (.text owner word) ⟨i, d, ps⟩ [.gap i m d, .sign m word] ⟨m + 1, d, ps⟩
  | name {owner : Owner} {s : Spelling} {text : Bytes} {i m d : Nat} {ps : List Bool}
      (h : Skips toks owner i m) (hs : Spells s text) :
      Moves toks (.name owner s) ⟨i, d, ps⟩ [.gap i m d, .word m text] ⟨m + 1, d, ps⟩
  | semicolons {owner : Owner} {i j d : Nat} {ps : List Bool} {acts : List Act}
      (h : Loosens toks owner d (toks.size + 1) i acts j) :
      Moves toks (.semicolons owner) ⟨i, d, ps⟩ acts ⟨j, d, ps⟩
  | put (text : Bytes) (st : Stand) : Moves toks (.put text) st [.extra text] st
  | take (text : Bytes) (i d : Nat) (ps : List Bool) :
      Moves toks (.take text) ⟨i, d, ps⟩ [.word i text] ⟨i + 1, d, ps⟩
  | check {t u : Token} {st : Stand} (hu : toks[st.pos]? = some u) (h : t.agrees u = true) :
      Moves toks (.check t) st [] st
  | opens {t : Token} {i d : Nat} {ps : List Bool} (ht : toks[i]? = some t)
      (h : t.agrees (Token.symbol "(") = true) :
      Moves toks .openIf ⟨i, d, ps⟩ [.sign i (Bytes.ofText "(")] ⟨i + 1, d + 1, true :: ps⟩
  | opensNot {t : Token} {i d : Nat} {ps : List Bool} (ht : toks[i]? = some t)
      (h : t.agrees (Token.symbol "(") = false) :
      Moves toks .openIf ⟨i, d, ps⟩ [] ⟨i, d, false :: ps⟩
  | closes {owner : Owner} {i m d : Nat} {ps : List Bool}
      (h : Finds toks owner (Bytes.ofText ")") i m) :
      Moves toks (.closeIf owner) ⟨i, d, true :: ps⟩ [.gap i m (d - 1), .sign m (Bytes.ofText ")")]
        ⟨m + 1, d - 1, ps⟩
  | closesNot {owner : Owner} {i d : Nat} {ps : List Bool} (h : ∀ rest, ps ≠ true :: rest) :
      Moves toks (.closeIf owner) ⟨i, d, ps⟩ [] ⟨i, d, ps.tail⟩
  | separator {owner : Owner} {t : Token} {i m d : Nat} {ps : List Bool} (ht : toks[i]? = some t)
      (h : Finds toks owner t.code i m) :
      Moves toks (.separator owner) ⟨i, d, ps⟩ [.gap i m d, .sign m t.code] ⟨m + 1, d, ps⟩
  | lastSeparator {owner : Owner} {t : Token} {i m d : Nat} {ps : List Bool} (ht : toks[i]? = some t)
      (hsign : (t.agrees (Token.symbol ",") || t.agrees (Token.symbol ";")) = true)
      (h : Finds toks owner t.code i m) :
      Moves toks (.lastSeparator owner) ⟨i, d, ps⟩ [.gap i m d, .sign m t.code] ⟨m + 1, d, ps⟩
  | noSeparator {owner : Owner} {t : Token} {st : Stand} (ht : toks[st.pos]? = some t)
      (hsign : (t.agrees (Token.symbol ",") || t.agrees (Token.symbol ";")) = false) :
      Moves toks (.lastSeparator owner) st [] st
  | indent (i d : Nat) (ps : List Bool) : Moves toks .indent ⟨i, d, ps⟩ [] ⟨i, d + 1, ps⟩
  | dedent (i d : Nat) (ps : List Bool) : Moves toks .dedent ⟨i, d, ps⟩ [] ⟨i, d - 1, ps⟩

inductive Runs (toks : Array Token) : List Step → Stand → List Act → Stand → Prop
  | nil (st : Stand) : Runs toks [] st [] st
  | cons {s : Step} {steps : List Step} {st st₁ st₂ : Stand} {acts more : List Act}
      (h : Moves toks s st acts st₁) (hrest : Runs toks steps st₁ more st₂) :
      Runs toks (s :: steps) st (acts ++ more) st₂

section Steps

variable {toks : Array Token}

theorem put_ok {act : Write Bytes} (h : (do put (← act)) p = .ok () q) :
    ∃ w p₁, act p = .ok w p₁ ∧ q = { p₁ with pieces := p₁.pieces.push w } := by
  obtain ⟨w, p₁, hact, hput⟩ := bind_ok h
  cases hput
  exact ⟨w, p₁, hact, rfl⟩

theorem put_textFor_ok (h : (do put (← textFor {} toks owner word)) p = .ok () q) :
    ∃ m, Finds toks owner word p.pos m ∧ q.stand = ⟨m + 1, p.depth, p.parens⟩ ∧
      q.text = p.text ++ texts (asSource toks) [.gap p.pos m p.depth, .sign m word] := by
  obtain ⟨w, p₁, hact, rfl⟩ := put_ok h
  obtain ⟨m, hfinds, rfl, rfl⟩ := textFor_ok hact
  exact ⟨m, hfinds, rfl, text_push _ _⟩

theorem moves_of_carryOut {s : Step} (h : carryOut {} toks s p = .ok () q) :
    ∃ acts, Moves toks s p.stand acts q.stand ∧ q.text = p.text ++ texts (asSource toks) acts := by
  cases s with
  | gap owner =>
    obtain ⟨w, p₁, hact, rfl⟩ := put_ok h
    obtain ⟨j, hskips, rfl, rfl⟩ := gap_ok hact
    exact ⟨_, .gap hskips, by simp [Act.text, text]⟩
  | text owner word =>
    obtain ⟨m, hfinds, hstand, htext⟩ := put_textFor_ok h
    exact ⟨_, hstand ▸ .text hfinds, htext⟩
  | name owner s =>
    obtain ⟨w, p₁, hact, rfl⟩ := put_ok h
    obtain ⟨m, text, hskips, hs, rfl, rfl⟩ := nameFor_ok hact
    exact ⟨_, .name hskips hs, text_push _ _⟩
  | semicolons owner =>
    obtain ⟨w, p₁, hact, rfl⟩ := put_ok h
    obtain ⟨acts, j, hloosens, rfl, rfl⟩ := semicolonsFor_ok hact
    exact ⟨_, .semicolons hloosens, text_push _ _⟩
  | put text =>
    cases h
    exact ⟨_, .put text _, by simp [Act.text]⟩
  | take text =>
    cases h
    refine ⟨_, .take text _ _ _, ?_⟩
    rw [texts_cons, texts_nil, append_nil]
    exact text_push p text
  | check t =>
    obtain ⟨u, p₁, hnext, hagrees⟩ := bind_ok h
    obtain ⟨rfl, hu⟩ := next_ok hnext
    split at hagrees
    · next hagree =>
      cases hagrees
      exact ⟨[], .check hu hagree, by simp⟩
    · cases hagrees
  | openIf =>
    obtain ⟨t, p₁, hnext, hbranch⟩ := bind_ok h
    obtain ⟨rfl, ht⟩ := next_ok hnext
    cases hopen : t.agrees (Token.symbol "(") with
    | true =>
      rw [hopen] at hbranch
      cases hbranch
      refine ⟨_, .opens ht hopen, ?_⟩
      rw [texts_cons, texts_nil, append_nil]
      exact text_push _ _
    | false =>
      rw [hopen] at hbranch
      cases hbranch
      exact ⟨_, .opensNot ht hopen, (append_nil _).symm⟩
  | closeIf owner =>
    obtain ⟨p₁, p₂, hget, hbranch⟩ := bind_ok h
    cases hget
    have hstand : p.stand = ⟨p.pos, p.depth, p.parens⟩ := rfl
    rw [hstand]
    cases hparens : p.parens with
    | nil =>
      rw [hparens] at hbranch
      cases hbranch
      refine ⟨[], ?_, (append_nil _).symm⟩
      rw [hstand, hparens]
      exact .closesNot (by rintro _ ⟨⟩)
    | cons b rest =>
      rw [hparens] at hbranch
      cases b with
      | false =>
        cases hbranch
        exact ⟨_, .closesNot (by rintro _ ⟨⟩), (append_nil _).symm⟩
      | true =>
        obtain ⟨_, p₁, hset, hlater⟩ := bind_ok hbranch
        cases hset
        obtain ⟨_, p₂, hdedent, hput⟩ := bind_ok hlater
        cases hdedent
        obtain ⟨m, hfinds, hq, htext⟩ := put_textFor_ok hput
        rw [hq]
        exact ⟨_, .closes hfinds, htext⟩
  | separator owner =>
    obtain ⟨t, p₁, hnext, hput⟩ := bind_ok h
    obtain ⟨rfl, ht⟩ := next_ok hnext
    obtain ⟨m, hfinds, hq, htext⟩ := put_textFor_ok hput
    rw [hq]
    exact ⟨_, .separator ht hfinds, htext⟩
  | lastSeparator owner =>
    obtain ⟨t, p₁, hnext, hbranch⟩ := bind_ok h
    obtain ⟨rfl, ht⟩ := next_ok hnext
    split at hbranch
    · next hsign =>
      obtain ⟨m, hfinds, hq, htext⟩ := put_textFor_ok hbranch
      rw [hq]
      exact ⟨_, .lastSeparator ht hsign hfinds, htext⟩
    · next hsign =>
      cases hbranch
      exact ⟨[], .noSeparator ht (Bool.not_eq_true _ ▸ hsign), (append_nil _).symm⟩
  | indent =>
    cases h
    exact ⟨[], .indent _ _ _, (append_nil _).symm⟩
  | dedent =>
    cases h
    exact ⟨[], .dedent _ _ _, (append_nil _).symm⟩
  | stop e => cases h

theorem runs_of_carryOutAll (h : carryOutAll {} toks steps p = .ok () q) :
    ∃ acts, Runs toks steps p.stand acts q.stand ∧ q.text = p.text ++ texts (asSource toks) acts := by
  induction steps generalizing p with
  | nil =>
    cases h
    exact ⟨[], .nil _, (append_nil _).symm⟩
  | cons s steps ih =>
    obtain ⟨_, p₁, hstep, hrest⟩ := bind_ok h
    obtain ⟨acts, hmoves, htext⟩ := moves_of_carryOut hstep
    obtain ⟨more, hruns, htext'⟩ := ih hrest
    exact ⟨_, .cons hmoves hruns, by rw [htext', htext, texts_append, append_assoc]⟩

/-! ### The same steps with gaps laid out -/

/-- A pen that lays gaps out has gone where `st` says, and has written the texts of the acts. -/
structure Done (width : Int) (toks : Array Token) (p : Pen) (acts : List Act) (st : Stand) (q : Pen) :
    Prop where
  stand_eq : q.stand = st
  text_eq : q.text = p.text ++ texts (laidOut width toks) acts

theorem put_textFor_eq (h : Finds toks owner word p.pos m) (width : Int) :
    ∃ q, (do put (← textFor (formatting width) toks owner word)) p = .ok () q ∧
      Done width toks p [.gap p.pos m p.depth, .sign m word] ⟨m + 1, p.depth, p.parens⟩ q :=
  ⟨_, bind_eq_ok (h.textFor width) rfl, rfl, text_push _ _⟩

theorem Moves.carryOut {s : Step} (h : Moves toks s p.stand acts st) (width : Int) :
    ∃ q, Pen.carryOut (formatting width) toks s p = .ok () q ∧ Done width toks p acts st q := by
  generalize hst : p.stand = st₀ at h
  cases h with
  | gap h =>
    cases hst
    refine ⟨_, bind_eq_ok (h.gap width rfl) rfl, rfl, ?_⟩
    rw [texts_cons, texts_nil, append_nil]
    exact text_push _ _
  | text h =>
    cases hst
    exact put_textFor_eq h width
  | name h hs =>
    cases hst
    exact ⟨_, bind_eq_ok (h.nameFor hs width) rfl, rfl, text_push _ _⟩
  | semicolons h =>
    cases hst
    exact ⟨_, bind_eq_ok (h.semicolonsFor width rfl rfl) rfl, rfl, text_push _ _⟩
  | put text =>
    subst hst
    refine ⟨_, rfl, rfl, ?_⟩
    rw [texts_cons, texts_nil, append_nil]
    exact text_push _ _
  | take text i d ps =>
    cases hst
    refine ⟨_, bind_eq_ok rfl rfl, rfl, ?_⟩
    rw [texts_cons, texts_nil, append_nil]
    exact text_push p text
  | check hu hagree =>
    subst hst
    refine ⟨p, bind_eq_ok (next_eq hu) ?_, rfl, (append_nil _).symm⟩
    rw [if_pos hagree]
    rfl
  | opens ht hopen =>
    cases hst
    refine ⟨{ p with
        pos := p.pos + 1
        depth := p.depth + 1
        parens := true :: p.parens
        pieces := p.pieces.push (Bytes.ofText "(") },
      bind_eq_ok (next_eq ht) ?_, rfl, ?_⟩
    · rw [if_pos hopen]
      rfl
    · rw [texts_cons, texts_nil, append_nil]
      exact text_push p _
  | opensNot ht hopen =>
    cases hst
    refine ⟨{ p with parens := false :: p.parens }, bind_eq_ok (next_eq ht) ?_, rfl,
      (append_nil _).symm⟩
    rw [hopen]
    rfl
  | @closes owner i m d ps h =>
    obtain ⟨hpos, hdepth, hparens⟩ : p.pos = i ∧ p.depth = d ∧ p.parens = true :: ps := by
      simpa [stand] using hst
    subst hpos hdepth
    obtain ⟨q, hq, hdone⟩ := put_textFor_eq (p := { p with depth := p.depth - 1, parens := ps }) h width
    refine ⟨q, bind_eq_ok rfl ?_, hdone.stand_eq, hdone.text_eq⟩
    rw [hparens]
    exact bind_eq_ok rfl (bind_eq_ok rfl hq)
  | @closesNot owner i d ps h =>
    obtain ⟨hpos, hdepth, hparens⟩ : p.pos = i ∧ p.depth = d ∧ p.parens = ps := by
      simpa [stand] using hst
    subst hpos hdepth
    refine ⟨{ p with parens := ps.tail }, bind_eq_ok rfl ?_, rfl, (append_nil _).symm⟩
    rw [hparens]
    cases ps with
    | nil =>
      show EStateM.Result.ok () p = _
      rw [tail_nil, ← hparens]
    | cons b rest =>
      cases b with
      | false => rfl
      | true => exact absurd rfl (h rest)
  | separator ht h =>
    cases hst
    obtain ⟨q, hq, hdone⟩ := put_textFor_eq h width
    exact ⟨q, bind_eq_ok (next_eq ht) hq, hdone⟩
  | lastSeparator ht hsign h =>
    cases hst
    obtain ⟨q, hq, hdone⟩ := put_textFor_eq h width
    refine ⟨q, bind_eq_ok (next_eq ht) ?_, hdone⟩
    rw [hsign]
    exact hq
  | noSeparator ht hsign =>
    subst hst
    refine ⟨p, bind_eq_ok (next_eq ht) ?_, rfl, (append_nil _).symm⟩
    rw [hsign]
    rfl
  | indent i d ps =>
    cases hst
    exact ⟨_, rfl, rfl, (append_nil _).symm⟩
  | dedent i d ps =>
    cases hst
    exact ⟨_, rfl, rfl, (append_nil _).symm⟩

theorem Runs.carryOutAll {st' : Stand} (h : Runs toks steps st acts st') (width : Int) (hp : p.stand = st) :
    ∃ q, Pen.carryOutAll (formatting width) toks steps p = .ok () q ∧ Done width toks p acts st' q := by
  induction h generalizing p with
  | nil st => exact ⟨p, rfl, hp, (append_nil _).symm⟩
  | cons hmoves hrest ih =>
    subst hp
    obtain ⟨q, hq, hdone⟩ := hmoves.carryOut width
    obtain ⟨r, hr, hdone'⟩ := ih hdone.stand_eq
    refine ⟨r, bind_eq_ok hq hr, hdone'.stand_eq, ?_⟩
    rw [hdone'.text_eq, hdone.text_eq, texts_append, append_assoc]

end Steps

end Pen
end Cartridge.Lua
