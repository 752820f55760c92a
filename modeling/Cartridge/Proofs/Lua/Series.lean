import Cartridge.Proofs.Lua.Phrases
import Cartridge.Proofs.Lua.Windowed

/-!
# Statements in a row

The statements of a block are found one after the other, so a block can be cut between two of them: the
first ones may be found in one text, and the others in another.  A block is a series of statements and
what ends it, and both are found again wherever their tokens are.
-/

namespace Cartridge.Lua
namespace Grammar

/-! ### Results and ends of parsers -/

/-- From wherever a parser starts without a limit it moves on, and it has taken a token if `S` holds of
what it gives. -/
def Advances {α : Type} (toks : Array Token) (S : α → Prop) (p : Parse α) : Prop :=
  ∀ i, i ≤ toks.size → Ensures (.free toks) p ⟨i, none⟩ fun a c =>
    Onward (.free toks) ⟨i, none⟩ i c ∧ (S a → i < c.pos)

section Ending

variable {α : Type} {toks : Array Token} {i j : Nat} {S : α → Prop} {p : Parse α} {a : α}

theorem Advances.gives (h : Advances toks S p) (hi : i ≤ toks.size) {c : Cursor}
    (hrun : p.run ⟨i, none⟩ = .ok (a, c)) :
    ∃ j, c = ⟨j, none⟩ ∧ Gives p i a j ∧ i ≤ j ∧ j ≤ toks.size ∧ (S a → i < j) := by
  obtain ⟨honward, htaken⟩ := (h i hi).left hrun
  have hlimit : c.limit = none := honward.limit.elim And.left And.left
  have hc : c = ⟨c.pos, none⟩ := by rw [← hlimit]
  exact ⟨c.pos, hc, by rw [Gives, hrun, ← hc], honward.le, honward.size, htaken⟩

theorem Advances.le (h : Advances toks S p) (hi : i ≤ toks.size) (hp : Gives p i a j) :
    i ≤ j ∧ j ≤ toks.size ∧ (S a → i < j) := by
  obtain ⟨k, hk, -, hle⟩ := h.gives hi hp
  cases hk
  exact hle

theorem advances_semicolons (toks : Array Token) : Advances toks Loose (semicolons toks) :=
  fun _ hi => (Ensures.semicolons (.unlimited (Nat.le_refl _) hi)).mono fun _ _ h => ⟨h.1, False.elim⟩

theorem advances_phrase (toks : Array Token) (n : Nat) : Advances toks Loose (phrase toks n .block) := by
  refine fun i hi => ((inner_free toks n i).block (.unlimited (Nat.le_refl _) hi)).mono fun _ _ h => ?_
  exact ⟨h.2.onward (Nat.le_refl _), False.elim⟩

theorem Gives.shadowed {toks' : Array Token} {d : Shift} {m : Nat} {R : α → α → Prop} {T U : α → Prop} {q : Parse α}
    (h : Shadows toks d m 0 T R p q) (hq : Advances toks' U q) (hi : d.place i ≤ toks'.size)
    (hp : Gives p i a j) (hj : j ≤ m) :
    ∃ a', R a a' ∧ Gives q (d.place i) a' (d.place j) := by
  have hle : i ≤ j := (h.advances hp).1
  have habreast : Abreast toks d m ⟨i, none⟩ ⟨d.place i, none⟩ :=
    ⟨rfl, Nat.le_trans hle hj, ⟨nofun⟩, fun _ _ => rfl⟩
  obtain ⟨a', c', hrun, ha, habreast'⟩ := h.shadowed habreast (Nat.zero_le i) hp hj
  obtain ⟨j', rfl, hgives, -⟩ := hq.gives hi hrun
  rw [show j' = d.place j from habreast'.pos] at hgives
  exact ⟨a', ha, hgives⟩

theorem exists_of_repeated {p : Parse (Option α)} (h : Advances toks Found p) {as : List α}
    {b : Nat} {c : Cursor} (hi : i ≤ toks.size) (hrun : (repeated p b).run ⟨i, none⟩ = .ok (as, c)) :
    ∃ k j, c = ⟨j, none⟩ ∧ Chained (fun i a k => i < k ∧ Gives p i (some a) k) i as k ∧
      k ≤ toks.size ∧ Gives p k none j ∧ j ≤ toks.size := by
  induction b generalizing i as with
  | zero => cases hrun
  | succ b ih =>
    obtain ⟨r, c₁, hp, hrest⟩ := exists_of_run_bind hrun
    obtain ⟨j, rfl, hgives, -, hj, htaken⟩ := h.gives hi hp
    cases r with
    | none =>
      cases hrest
      exact ⟨i, j, rfl, .nil i, hi, hgives, hj⟩
    | some a =>
      obtain ⟨as', c₂, has, hlast⟩ := exists_of_run_bind hrest
      cases hlast
      obtain ⟨k, l, hc, hchained, hk, hstop, hl⟩ := ih hj has
      exact ⟨k, l, hc, .cons ⟨htaken rfl, hgives⟩ hchained, hk, hstop, hl⟩

end Ending

/-! ### Blocks -/

section Blocks

variable (toks : Array Token) (inner : Phrase → Parse (Option Tree))

def nextStatement : Parse (Option Tree) := do
  semicolons toks
  statement toks inner

def ending : Parse (Option Tree) := do
  semicolons toks
  let last ← lastStatement toks inner
  semicolons toks
  return last

theorem block_eq : block toks inner = do
    let start ← here
    let stats ← repeated (nextStatement toks inner) (rounds toks)
    let last ← ending toks inner
    return some (.made .chunk [.list (stats ++ last.toList)] start (← here)) := by
  simp only [block, ending, nextStatement, bind_assoc, pure_bind]

abbrev Series (i : Nat) (stats : List Tree) (j : Nat) : Prop :=
  Chained (fun i s k => i < k ∧ Gives (nextStatement toks inner) i (some s) k) i stats j

def Ends (i : Nat) (last : Option Tree) (j : Nat) : Prop :=
  ∃ k, Gives (nextStatement toks inner) i none k ∧ Gives (ending toks inner) k last j

end Blocks

abbrev parts (toks : Array Token) : Phrase → Parse (Option Tree) := phrase toks toks.size

section Programs

variable {toks : Array Token} {i j k : Nat} {stats : List Tree} {last : Option Tree} {t : Tree}

theorem advances_nextStatement (toks : Array Token) :
    Advances toks Found (nextStatement toks (parts toks)) := by
  intro i hi
  refine .andThen (.semicolons (.unlimited (Nat.le_refl _) hi)) fun _ c₁ h₁ => ?_
  refine (statement_finds (inner_free toks toks.size (i + 1)) h₁.1).mono fun r c₂ h₂ => ?_
  cases r with
  | some t => exact ⟨h₂.1.less, fun _ => h₂.1.room⟩
  | none => exact ⟨h₂.1, nofun⟩

theorem advances_ending (toks : Array Token) : Advances toks Loose (ending toks (parts toks)) := by
  intro i hi
  refine .andThen (.semicolons (.unlimited (Nat.le_refl _) hi)) fun _ c₁ h₁ => ?_
  refine .andThen (lastStatement_finds (inner_free toks toks.size (i + 1)) h₁.1) fun last c₂ h₂ => ?_
  exact .andThen (.semicolons (h₂.onward (Nat.le_succ i))) fun _ c₃ h₃ => .pure ⟨h₃.1, False.elim⟩

theorem Ends.le (h : Ends toks (parts toks) i last j) (hi : i ≤ toks.size) : i ≤ j ∧ j ≤ toks.size := by
  obtain ⟨k, hnone, hlast⟩ := h
  obtain ⟨hik, hk, -⟩ := (advances_nextStatement toks).le hi hnone
  obtain ⟨hkj, hj, -⟩ := (advances_ending toks).le hk hlast
  exact ⟨Nat.le_trans hik hkj, hj⟩

theorem exists_of_nextStatement (hi : i ≤ toks.size)
    (h : Gives (nextStatement toks (parts toks)) i (some t) j) :
    ∃ k, Gives (semicolons toks) i () k ∧ Semicolons toks i k ∧ Derived toks .statement t k j := by
  obtain ⟨⟨⟩, c, hsemicolons, hrest⟩ := exists_of_run_bind h
  obtain ⟨k, rfl, hgives, -, hk, -⟩ := (advances_semicolons toks).gives hi hsemicolons
  have hpassed := (Ensures.semicolons (A := .free toks) (.unlimited (Nat.zero_le _) hi)).left hsemicolons
  have hfound := (statement_finds (inner_free toks toks.size 1) (.unlimited (Nat.zero_le _) hk)).left hrest
  exact ⟨k, hgives, hpassed.2.1, hfound.2.derived⟩

theorem Series.spans (hj : j ≤ toks.size) (h : Series toks (parts toks) i stats j) :
    Spans toks (Derived toks) (stats.flatMap fun t => [.semicolons, .part .statement t]) i j := by
  induction h with
  | nil i => exact .nil i
  | cons hstep hs ih =>
    have hle := hs.le And.left
    obtain ⟨k, -, hsemicolons, hstatement⟩ := exists_of_nextStatement (by omega) hstep.2
    exact .semicolons hsemicolons (.part hstatement (ih hj))

theorem Ends.derived (hi : i ≤ toks.size) (h : Ends toks (parts toks) i (some t) j) :
    ∃ k l, Derived toks .lastStatement t k l := by
  obtain ⟨k, hnone, h⟩ := h
  obtain ⟨-, hk, -⟩ := (advances_nextStatement toks).le hi hnone
  obtain ⟨⟨⟩, c, hsemicolons, h⟩ := exists_of_run_bind h
  have hpassed := (Ensures.semicolons (A := .free toks) (.unlimited (Nat.zero_le _) hk)).left hsemicolons
  obtain ⟨last, c', hlast, h⟩ := exists_of_run_bind h
  obtain ⟨⟨⟩, _, -, hrest⟩ := exists_of_run_bind h
  cases hrest
  exact ⟨_, _, ((lastStatement_finds (inner_free toks toks.size 1) hpassed.1).left hlast).2.derived⟩

theorem block_gives_iff (hi : i ≤ toks.size) : Gives (block toks (parts toks)) i (some t) j ↔
    ∃ stats last k, t = .made .chunk [.list (stats ++ last.toList)] i j ∧
      Series toks (parts toks) i stats k ∧ k ≤ toks.size ∧ Ends toks (parts toks) k last j := by
  rw [block_eq]
  constructor
  · intro h
    obtain ⟨start, c, hhere, h⟩ := exists_of_run_bind (show _ = _ from h)
    cases hhere
    obtain ⟨stats, c, hstats, hrest⟩ := exists_of_run_bind h
    obtain ⟨k, l, rfl, hseries, hk, hnone, hl⟩ :=
      exists_of_repeated (advances_nextStatement toks) hi hstats
    obtain ⟨last, c, hlast, hmade⟩ := exists_of_run_bind hrest
    cases hmade
    exact ⟨stats, last, k, rfl, hseries, hk, l, hnone, hlast⟩
  · rintro ⟨stats, last, k, rfl, hseries, hk, l, hnone, hlast⟩
    have hn : toks.size < rounds toks + i := by
      rw [rounds]
      omega
    exact .fromHere (.bind (.repeated hseries hnone hk hn) (.bind hlast (.made _ _ _ _)))

end Programs

/-! ### In other texts -/

section Windows

variable {toks toks' : Array Token} {d : Shift} {m i j : Nat} (w : Window toks toks' d m)
  (hd : m + d.offset ≤ toks'.size)
include w hd

theorem parts_shadows : InnerShadows toks d m (0 + 1) (parts toks) (parts toks') :=
  phrase_shadows w toks.size (by omega)

theorem nextStatement_shadows : ShadowsPhrase toks d m 0
    (nextStatement toks (parts toks)) (nextStatement toks' (parts toks')) :=
  .bind (semicolons_shadows w) fun _ =>
    statement_shadows w (inner_free toks toks.size) (parts_shadows w hd)

theorem ending_shadows : ShadowsRest toks d m 0 (ending toks (parts toks)) (ending toks' (parts toks')) := by
  refine .bind (semicolons_shadows w) fun _ => ?_
  refine .bind (lastStatement_shadows w (inner_free toks toks.size) (parts_shadows w hd)) fun h => ?_
  exact .bind (semicolons_shadows w) fun _ => .pure h id

theorem Series.shadowed {stats : List Tree} (h : Series toks (parts toks) i stats j) (hj : j ≤ m) :
    ∃ stats', List.Forall₂ (Tree.Moved d) stats stats' ∧
      Series toks' (parts toks') (d.place i) stats' (d.place j) := by
  induction h with
  | nil i => exact ⟨[], .nil, .nil _⟩
  | @cons i k j s stats hstep hs ih =>
    have hkj := hs.le And.left
    have hik := w.place_lt hstep.1
    have hplace := Shift.place_le w.lead.le i
    obtain ⟨stats', hstats, hseries⟩ := ih hj
    obtain ⟨r, hr, hnext⟩ := Gives.shadowed (nextStatement_shadows w hd) (advances_nextStatement toks')
      (by omega) hstep.2 (by omega)
    cases hr with
    | @some _ s' hs' =>
      exact ⟨s' :: stats', .cons hs' hstats, .cons ⟨hik, hnext⟩ hseries⟩

theorem Ends.shadowed {last : Option Tree} (hi : i ≤ toks.size) (h : Ends toks (parts toks) i last j)
    (hj : j ≤ m) : ∃ last', Option.Rel (Tree.Moved d) last last' ∧
      Ends toks' (parts toks') (d.place i) last' (d.place j) := by
  obtain ⟨k, hnone, hlast⟩ := h
  obtain ⟨hik, hk, -⟩ := (advances_nextStatement toks).le hi hnone
  obtain ⟨hkj, -⟩ := (advances_ending toks).le hk hlast
  have hplace := Shift.place_le w.lead.le
  have hi' := hplace i
  have hk' := hplace k
  obtain ⟨r, hr, hnone'⟩ := Gives.shadowed (nextStatement_shadows w hd) (advances_nextStatement toks')
    (by omega) hnone (by omega)
  cases hr
  obtain ⟨last', hrel, hlast'⟩ := Gives.shadowed (ending_shadows w hd) (advances_ending toks')
    (by omega) hlast hj
  exact ⟨last', hrel, d.place k, hnone', hlast'⟩

end Windows

end Grammar

open Grammar in
theorem Tree.ofTokens_eq_ok_iff {toks : Array Token} {t : Tree} :
    Tree.ofTokens toks = .ok t ↔ ∃ j, Gives (block toks (parts toks)) 0 (some t) j := by
  rw [Tree.ofTokens_eq_ok_iff_run]
  constructor
  · rintro ⟨c, hrun⟩
    obtain ⟨j, -, hgives, -⟩ := (advances_phrase toks (toks.size + 1)).gives (Nat.zero_le _) hrun
    exact ⟨j, hgives⟩
  · rintro ⟨j, h⟩
    exact ⟨_, h⟩

end Cartridge.Lua
