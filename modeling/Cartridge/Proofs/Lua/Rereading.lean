import Cartridge.Proofs.Lua.Phrases
import Cartridge.Proofs.Lua.PlainText
import Cartridge.Proofs.Lua.Restorable
import Mathlib.Tactic.Choose

/-!
# Scripts and parsers side by side

A script is gone through together with the parser that reads what it writes: each of its words is the one
that the parser asks for next, and each part of it is read by the parser of that part.  What the parser
has found so far has no influence on the words, since a script does not write different ones.
-/

namespace Cartridge.Lua

open Lua.Tree

variable {steps steps' : List Step} {us ws : List Token}

theorem Says.eq (h : Says steps ws) (h' : Says steps us) : us = ws := by
  have hword : ∀ {w : Bytes} {t u : Token}, Lexeme w t → Lexeme w u → u = t := by
    intro w t u ht hu
    have heq := (lexeme?_eq_length_iff.mpr hu).symm.trans (lexeme?_eq_length_iff.mpr ht)
    exact (Prod.mk.inj (Option.some.inj heq)).1
  have hcomma : ∀ t, ¬Lexeme (Tree.word ", ") t := by
    intro t ht
    have hone : (lexeme? (Tree.word ", ")).map Prod.snd = some 1 := by decide +kernel
    rw [lexeme?_eq_length_iff.mpr ht] at hone
    cases hone
  induction h generalizing us with
  | nil =>
    cases h'
    rfl
  | gap o h ih =>
    cases h' with
    | gap _ h' => exact ih h'
    | put | take | comma => cases h
  | semicolons o _ ih | indent _ ih | dedent _ ih =>
    cases h'
    exact ih ‹_›
  | text o hw _ _ ih | name o hw _ _ ih | label o hw _ _ ih =>
    cases h'
    exact congrArg₂ List.cons (hword hw ‹_›) (ih ‹_›)
  | put o hw _ _ ih =>
    cases h' with
    | gap _ h' => cases h'
    | put _ hw' _ h' => rw [hword hw hw', ih h']
    | comma => exact absurd hw (hcomma _)
  | take o hw _ _ ih =>
    cases h' with
    | gap _ h' => cases h'
    | take _ hw' _ h' => rw [hword hw hw', ih h']
  | comma o _ ih =>
    cases h' with
    | gap _ h' => cases h'
    | put _ hw' _ h' => exact absurd hw' (hcomma _)
    | comma _ h' => rw [ih h']

theorem Says.flatMap {α : Type} {as : List α} {g : α → List Step} {v : α → List Token}
    (h : ∀ a ∈ as, Says (g a) (v a)) : Says (as.flatMap g) (as.flatMap v) := by
  induction as with
  | nil => exact .nil
  | cons a as ih =>
    exact .append (h a List.mem_cons_self) (ih fun b hb => h b (List.mem_cons_of_mem a hb))

namespace Grammar

variable {α β γ : Type} {toks : Array Token} {i j l m n : Nat} {w : Token}

/-! ### Rows of words -/

theorem Row.takes (h : Row toks i (w :: ws) j) (ps : List Pattern) (hfits : ∃ p ∈ ps, w.fits p = true) :
    ∃ t x, i ≤ x ∧ x < toks.size ∧ Takes toks ps i t x ∧ t.unplaced = w ∧ Row toks (x + 1) ws j := by
  obtain ⟨k, hw, hrest⟩ := Chained.cons_iff.mp h
  obtain ⟨t, x, ht, htw, rfl⟩ := hw.takes ps hfits
  exact ⟨t, x, ht.blank.le, ht.lt_size, ht, htw, hrest⟩

theorem Row.exact (h : Row toks i (w :: ws) j) :
    ∃ t x, i ≤ x ∧ x < toks.size ∧ Takes toks [.exact w] i t x ∧ Row toks (x + 1) ws j := by
  have hself : w.agrees w = true := by simp [Token.agrees]
  obtain ⟨t, x, hle, hlt, ht, -, hrest⟩ := h.takes [.exact w] ⟨_, List.mem_singleton_self _, hself⟩
  exact ⟨t, x, hle, hlt, ht, hrest⟩

theorem Row.split (h : Row toks i (ws ++ us) j) :
    ∃ k, i ≤ k ∧ Row toks i ws k ∧ Row toks k us j := by
  obtain ⟨k, hws, hus⟩ := Chained.append_iff.mp h
  exact ⟨k, hws.le fun hw => hw.lt.1, hws, hus⟩

theorem Row.end_le (h : Row toks i ws j) (hi : i ≤ toks.size) : j ≤ toks.size := by
  cases ws with
  | nil =>
    cases h
    exact hi
  | cons w ws => exact h.le_size

/-! ### Words and what follows them -/

def Fixed (s : String) (w : Token) : Prop :=
  w = Token.keyword s ∧ Bytes.ofText s ∈ keywords ∨ w = Token.symbol s ∧ Bytes.ofText s ∈ symbols

instance (s : String) (w : Token) : Decidable (Fixed s w) := inferInstanceAs (Decidable (_ ∨ _))

/-- Wherever the words stand and `rest` holds behind them, they start with something that has the property,
or are none and `rest` has it. -/
def Before (toks : Array Token) (steps : List Step) (rest F : Nat → Prop) : Prop :=
  ∀ ws i j, Says steps ws → Row toks i ws j → rest j → F i

/-- The steps write words.  From wherever these stand behind `m`, with `rest` behind them, something with
the property is found up to their end. -/
def Rereads (toks : Array Token) (m : Nat) (steps : List Step) (rest : Nat → Prop)
    (found : Nat → α → Nat → Prop) (R : α → Prop) : Prop :=
  ∃ ws, Says steps ws ∧ ∀ {i j}, Row toks i ws j → m ≤ i → i ≤ toks.size → rest j →
    ∃ a, R a ∧ found i a j

def Like (t : Tree) (r : Option Tree) : Prop := ∃ e, r = some e ∧ e.essence = t.essence

variable {rest F : Nat → Prop} {found : Nat → α → Nat → Prop} {P : α → Prop} {R : β → Prop} {p : Parse α}
  {q : Parse β} {ps : List Pattern} {o : Owner} {s : String} {a : Token} {t : Tree} {d : String}

theorem Fixed.says_word (h : Fixed s w) (o : Owner) (hsay : Says steps ws) :
    Says (.text o (word s) :: steps) (w :: ws) := by
  obtain ⟨rfl, hs⟩ | ⟨rfl, hs⟩ := h
  · exact .reserved o hs hsay
  · exact .sign o hs hsay

theorem Fixed.plain (h : Fixed s w) : w.unplaced = w ∧ (Pattern.exact w).Solid := by
  obtain ⟨rfl, -⟩ | ⟨rfl, -⟩ := h <;> exact ⟨rfl, inferInstance⟩

namespace Before

theorem nil (h : ∀ j, rest j → F j) : Before toks [] rest F := by
  intro ws i j hsay hrow hj
  cases hsay
  cases hrow
  exact h _ hj

theorem imp {G : Nat → Prop} (h : Before toks steps rest F) (himp : ∀ {i}, F i → G i) : Before toks steps rest G :=
  fun ws i j hsay hrow hj => himp (h ws i j hsay hrow hj)

theorem dedent (h : Before toks steps rest F) : Before toks (.dedent :: steps) rest F := by
  intro ws i j hsay
  cases hsay with
  | dedent hsay => exact h ws i j hsay

theorem gap {o' : Owner} {b : Bytes} (h : Before toks (.text o' b :: steps) rest F) :
    Before toks (.gap o :: .text o' b :: steps) rest F := by
  intro ws i j hsay
  cases hsay with
  | gap _ hsay => exact h ws i j hsay

theorem append (h : Before toks steps (fun _ => True) F) (hws : Says steps ws) (hus : Says steps' us) :
    Before toks (steps ++ steps') rest F := by
  intro vs i j hsay hrow _
  obtain rfl := (hws.append hus).eq hsay
  obtain ⟨k, -, hrow, -⟩ := hrow.split
  exact h _ _ _ hws hrow trivial

theorem semicolons (h : Before toks steps rest F) : Before toks (.semicolons o :: steps) rest F := by
  intro ws i j hsay
  cases hsay with
  | semicolons _ hsay => exact h ws i j hsay

theorem any : Before toks steps rest fun _ => True := fun _ _ _ _ _ _ => trivial

theorem next (hw : Fixed s w) (h : Before toks steps rest F) :
    Before toks (.text o (Tree.word s) :: steps) rest fun i => ∃ t x, Takes toks [.exact w] i t x ∧ F (x + 1) := by
  intro ws i j hsay hrow hj
  cases hsay with
  | text _ hlexeme hsolid hsay =>
    obtain rfl := (List.cons.inj ((hw.says_word o hsay).eq (.text o hlexeme hsolid hsay))).1
    obtain ⟨t, x, -, -, ht, hrow⟩ := hrow.exact
    exact ⟨t, x, ht, h _ _ _ hsay hrow hj⟩

theorem word (h : ∃ w ∈ [Token.keyword s, Token.symbol s], Fixed s w ∧
      ∀ p ∈ ps, (Pattern.exact w).meets p = false) :
    Before toks (.text o (Tree.word s) :: steps) rest (Stops toks ps) := by
  obtain ⟨w, -, hw, hps⟩ := h
  exact (next hw .any).imp fun ⟨t, x, ht, _⟩ => ht.stops (by simpa using hps)

end Before

namespace Rereads

theorem read (h : Rereads toks m steps rest found P) (hsay : Says steps ws) (hrow : Row toks i ws j)
    (hm : m ≤ i) (hi : i ≤ toks.size) (hj : rest j) : ∃ a, P a ∧ found i a j := by
  obtain ⟨us, hus, hread⟩ := h
  obtain rfl := hsay.eq hus
  exact hread hrow hm hi hj

theorem gap (h : Rereads toks m steps rest found P) : Rereads toks m (.gap o :: steps) rest found P := by
  obtain ⟨ws, hsay, hread⟩ := h
  exact ⟨ws, .gap o hsay, hread⟩

theorem semicolons (h : Rereads toks m steps rest found P) :
    Rereads toks m (.semicolons o :: steps) rest found P := by
  obtain ⟨ws, hsay, hread⟩ := h
  exact ⟨ws, .semicolons o hsay, hread⟩

theorem indent (h : Rereads toks m steps rest found P) :
    Rereads toks m (.indent :: steps) rest found P := by
  obtain ⟨ws, hsay, hread⟩ := h
  exact ⟨ws, .indent hsay, hread⟩

theorem dedent (h : Rereads toks m steps rest found P) :
    Rereads toks m (.dedent :: steps) rest found P := by
  obtain ⟨ws, hsay, hread⟩ := h
  exact ⟨ws, .dedent hsay, hread⟩

theorem imp {found' : Nat → β → Nat → Prop} (h : Rereads toks m steps rest found P)
    (himp : ∀ {ws i j a}, Says steps ws → Row toks i ws j → m ≤ i → i ≤ toks.size → rest j → P a → found i a j →
      ∃ b, R b ∧ found' i b j) : Rereads toks m steps rest found' R := by
  obtain ⟨ws, hsay, hread⟩ := h
  refine ⟨ws, hsay, fun hrow hm hi hj => ?_⟩
  obtain ⟨a, ha, hfound⟩ := hread hrow hm hi hj
  exact himp hsay hrow hm hi hj ha hfound

theorem weaken {G : Nat → Prop} (h : Rereads toks m steps F found P) (hG : ∀ {j}, G j → F j) :
    Rereads toks m steps G found P := by
  obtain ⟨ws, hsay, hread⟩ := h
  exact ⟨ws, hsay, fun hrow hm hi hj => hread hrow hm hi (hG hj)⟩

theorem fromHere {f : Nat → Parse β} (h : ∀ i, Rereads toks m steps rest (Gives (f i)) R) :
    Rereads toks m steps rest (Gives (here >>= f)) R := by
  obtain ⟨ws, hsay, -⟩ := h 0
  exact ⟨ws, hsay, fun {i _} hrow hm hi hj => (h i).read hsay hrow hm hi hj⟩

/-! ### Words -/

theorem leaf {f : Token → Parse β} (hsay : ∀ {ws}, Says steps ws → Says steps' (a.unplaced :: ws))
    (hfits : ∃ p ∈ ps, a.unplaced.fits p = true)
    (hq : ∀ {i t x b j}, Takes toks ps i t x → Gives (f t) (x + 1) b j → Gives q i b j) (hl : l ≤ m + 1)
    (h : ∀ t, t.unplaced = a.unplaced → Rereads toks l steps rest (Gives (f t)) R) :
    Rereads toks m steps' rest (Gives q) R := by
  obtain ⟨ws, hws, -⟩ := h a rfl
  refine ⟨_, hsay hws, fun {i j} hrow hm hi hj => ?_⟩
  obtain ⟨t, x, hix, hx, ht, hta, hrow⟩ := hrow.takes ps hfits
  obtain ⟨b, hb, hf⟩ := (h t hta).read hws hrow (by omega) hx hj
  exact ⟨b, hb, hq ht hf⟩

theorem fixed {f : Token → Parse β} (hs : Fixed s w)
    (hq : ∀ {i t x b j}, Takes toks [.exact w] i t x → Gives (f t) (x + 1) b j → Gives q i b j)
    (hl : l ≤ m + 1) (h : ∀ t, Rereads toks l steps rest (Gives (f t)) R) :
    Rereads toks m (.text o (word s) :: steps) rest (Gives q) R := by
  refine leaf (a := w) (fun hsay => ?_) ⟨_, List.mem_singleton_self _, ?_⟩ hq hl fun t _ => h t
  · rw [hs.plain.1]
    exact hs.says_word o hsay
  · simp [hs.plain.1, Token.fits, Token.agrees]

theorem lead {f : Option Token → Parse β} (hs : Fixed s w)
    (h : ∀ t, Rereads toks (m + 1) steps rest (Gives (f (some t))) R) :
    Rereads toks m (.text o (word s) :: steps) rest (Gives (accept toks (.exact w) >>= f)) R :=
  fixed hs (fun ht hf => have := hs.plain.2; .take ht hf) (Nat.le_refl _) h

theorem take {f : Option Token → Parse β} (hs : Fixed s w)
    (h : ∀ t, Rereads toks m steps rest (Gives (f (some t))) R) :
    Rereads toks m (.text o (word s) :: steps) rest (Gives (accept toks (.exact w) >>= f)) R :=
  fixed hs (fun ht hf => have := hs.plain.2; .take ht hf) (Nat.le_succ _) h

theorem skip {f : Unit → Parse β} (hs : Fixed s w) (h : Rereads toks m steps rest (Gives (f ())) R) :
    Rereads toks m (.text o (word s) :: steps) rest
      (Gives (Functor.discard (expect toks (.exact w)) >>= f)) R :=
  fixed hs (fun ht hf => have := hs.plain.2; .skip ht hf) (Nat.le_succ _) fun _ => h

theorem ahead {q' : Parse β} (hend : Before toks steps rest F)
    (hq : ∀ {i b j}, m ≤ i → i ≤ toks.size → F i → Gives q' i b j → Gives q i b j) (h : Rereads toks m steps rest (Gives q') R) :
    Rereads toks m steps rest (Gives q) R :=
  h.imp fun hsay hrow hm hi hj hb hf => ⟨_, hb, hq hm hi (hend _ _ _ hsay hrow hj) hf⟩

theorem miss {p : Parse (Option α)} {f : Option α → Parse β} (hend : Before toks steps rest F)
    (hp : ∀ {i}, m ≤ i → i ≤ toks.size → F i → Gives p i none i) (h : Rereads toks m steps rest (Gives (f none)) R) :
    Rereads toks m steps rest (Gives (p >>= f)) R :=
  h.ahead hend fun hm hi hF hf => .bind (hp hm hi hF) hf

theorem pass {x : Pattern} {f : Option Token → Parse β} (hend : Before toks steps rest (Stops toks [x]))
    (h : Rereads toks m steps rest (Gives (f none)) R) [x.Solid] :
    Rereads toks m steps rest (Gives (accept toks x >>= f)) R :=
  miss hend (fun _ _ h => .accept_none h) h

/-! ### Parts -/

theorem bind {found' : α → Nat → β → Nat → Prop} {found'' : Nat → γ → Nat → Prop} {S : α → β → Prop} {T : γ → Prop}
    (h : Rereads toks m steps F found P) (hP : ∃ a, P a) (hend : Before toks steps' rest F)
    (hq : ∀ {i a k b j}, F k → P a → found i a k → S a b → found' a k b j → k ≤ toks.size →
      ∃ c, T c ∧ found'' i c j)
    (hf : ∀ a, P a → Rereads toks m steps' rest (found' a) (S a)) :
    Rereads toks m (steps ++ steps') rest found'' T := by
  obtain ⟨a₀, ha₀⟩ := hP
  obtain ⟨ws, hsay, hread⟩ := h
  obtain ⟨us, hsay', -⟩ := hf a₀ ha₀
  refine ⟨_, hsay.append hsay', fun {i j} hrow hm hi hj => ?_⟩
  obtain ⟨k, hik, hws, hrow⟩ := hrow.split
  have hk := hend _ _ _ hsay' hrow hj
  obtain ⟨a, ha, hfound⟩ := hread hws hm hi hk
  obtain ⟨b, hb, hrest⟩ := (hf a ha).read hsay' hrow (by omega) (hws.end_le hi) hj
  exact hq hk ha hfound hb hrest (hws.end_le hi)

theorem via {p : Parse (Option Tree)} {f : Tree → Parse β}
    (h : Rereads toks m steps F (Gives p) (Like t)) (hend : Before toks steps' rest F)
    (hq : ∀ {i e k b j}, F k → Gives p i (some e) k → Gives (f e) k b j → Gives q i b j)
    (hf : ∀ e, e.essence = t.essence → Rereads toks m steps' rest (Gives (f e)) R) :
    Rereads toks m (steps ++ steps') rest (Gives q) R := by
  have hfound : Rereads toks m steps F (fun i e k => Gives p i (some e) k) (·.essence = t.essence) := by
    refine h.imp ?_
    rintro ws i j _ - - - - - ⟨e, rfl, he⟩ hp
    exact ⟨e, he, hp⟩
  exact bind hfound ⟨t, rfl⟩ hend (fun hk _ hp hb hf _ => ⟨_, hb, hq hk hp hf⟩) hf

theorem option {p : Parse (Option Tree)} {f : Option Tree → Parse β}
    (h : Rereads toks m steps F (Gives p) (Like t)) (hend : Before toks steps' rest F)
    (hf : ∀ e, e.essence = t.essence → Rereads toks m steps' rest (Gives (f (some e))) R) :
    Rereads toks m (steps ++ steps') rest (Gives (p >>= f)) R :=
  via h hend (fun _ hp hq => .bind hp hq) hf

theorem part {p : Parse (Option Tree)} {f : Tree → Parse β}
    (h : Rereads toks m steps F (Gives p) (Like t)) (hend : Before toks steps' rest F)
    (hf : ∀ e, e.essence = t.essence → Rereads toks m steps' rest (Gives (f e)) R) :
    Rereads toks m (steps ++ steps') rest (Gives (need toks p d >>= f)) R :=
  via h hend (fun _ hp hq => .need hp hq) hf

theorem last {p : Parse (Option Tree)} {f : Tree → Parse β}
    (h : Rereads toks m steps F (Gives p) (Like t)) (hend : ∀ j, rest j → F j)
    (hf : ∀ e, e.essence = t.essence → Rereads toks m [] rest (Gives (f e)) R) :
    Rereads toks m steps rest (Gives (need toks p d >>= f)) R :=
  List.append_nil steps ▸ part h (.nil hend) hf

section Series

variable {p : Parse (Option α)} {e : α → β} {g : α → List Step} {F : α → Nat → Prop} {as : List α}
  (hread : ∀ a ∈ as, Rereads toks m (g a) (F a) (Gives p) fun r => ∃ b, r = some b ∧ e b = e a)
  (hword : ∀ a ∈ as, ¬Says (g a) []) (hnext : as.IsChain fun a b => Before toks (g b) (fun _ => True) (F a))
include hread hword hnext

theorem series (hlast : ∀ a ∈ as.getLast?, ∀ j, rest j → F a j) :
    Rereads toks m (as.flatMap g) rest (Chained fun i b k => i < k ∧ Gives p i (some b) k)
      (·.map e = as.map e) := by
  have hwords : ∀ a ∈ as, ∃ ws, Says (g a) ws := fun a ha => ⟨_, (hread a ha).choose_spec.1⟩
  choose! v hv using hwords
  refine ⟨_, .flatMap hv, fun {i j} hrow hm hi hj => ?_⟩
  induction as generalizing i with
  | nil =>
    cases hrow
    exact ⟨[], rfl, .nil _⟩
  | cons a as ih =>
    obtain ⟨k, hik, hws, hrow⟩ := Row.split hrow
    have hk : as.IsChain (fun a b => Before toks (g b) (fun _ => True) (F a)) ∧ F a k := by
      cases hnext with
      | singleton =>
        cases hrow
        exact ⟨.nil, hlast a rfl j hj⟩
      | cons_cons hab hnext =>
        obtain ⟨_, -, hb, -⟩ := Row.split hrow
        exact ⟨hnext, hab _ _ _ (hv _ (by simp)) hb trivial⟩
    have hmem : ∀ {b}, b ∈ as → b ∈ a :: as := List.mem_cons_of_mem a
    have hsay := hv a List.mem_cons_self
    obtain ⟨_, ⟨b, rfl, hb⟩, hgives⟩ := (hread a List.mem_cons_self).read hsay hws hm hi hk.2
    obtain ⟨bs, hbs, hchain⟩ := ih (fun b hb => hread b (hmem hb)) (fun b hb => hword b (hmem hb)) hk.1
      (fun b hb => hlast b (by simp_all [List.getLast?_cons])) (fun b hb => hv b (hmem hb)) hrow (by omega) (hws.end_le hi)
    have hlt : i < k := by
      have hle := hws.length_le
      cases hva : v a with
      | nil => exact absurd (hva ▸ hsay) (hword a List.mem_cons_self)
      | cons =>
        rw [hva, List.length_cons] at hle
        omega
    exact ⟨b :: bs, congrArg₂ List.cons hb hbs, .cons ⟨hlt, hgives⟩ hchain⟩

theorem repeated {G : Nat → Prop} {f : List α → Parse γ} {S : γ → Prop}
    (hlast : ∀ a ∈ as.getLast?, ∀ j, G j → F a j) (hstop : ∀ {j}, G j → Gives p j none j)
    (hend : Before toks steps rest G)
    (hf : ∀ bs, bs.map e = as.map e → Rereads toks m steps rest (Gives (f bs)) S) :
    Rereads toks m (as.flatMap g ++ steps) rest (Gives (Grammar.repeated p (rounds toks) >>= f)) S := by
  refine bind (series hread hword hnext hlast) ⟨as, rfl⟩ hend (fun hk _ hchain hb hf hsize => ⟨_, hb, ?_⟩) hf
  exact .bind (.repeated hchain (hstop hk) hsize (by rw [rounds]; omega)) hf

end Series

theorem given {a : α} {f : α → Parse β} (h : Rereads toks m steps rest (Gives (f a)) R) :
    Rereads toks m steps rest (Gives (pure a >>= f)) R := h

theorem done {b : β} (h : R b) : Rereads toks m [] rest (Gives (pure b)) R := by
  refine ⟨[], .nil, fun hrow _ _ _ => ?_⟩
  cases hrow
  exact ⟨b, h, .pure _ _⟩

theorem made {k : NodeKind} {ts : List Tree} {start : Nat} {R : Option Tree → Prop}
    (h : ∀ stop, R (some (.made k ts start stop))) :
    Rereads toks m [] rest (Gives do return some (Tree.made k ts start (← here))) R := by
  refine ⟨[], .nil, fun hrow _ _ _ => ?_⟩
  cases hrow
  exact ⟨_, h _, .made _ _ _ _⟩

end Rereads
end Grammar
end Cartridge.Lua
