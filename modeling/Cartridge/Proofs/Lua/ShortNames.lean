import Cartridge.Lua.ShortName
import Cartridge.Proofs.Lua.Lexeme

/-!
# Short names are names

A short name is made of lower-case letters and is no reserved word, so it is read as a name wherever
it is written.  The only other text that a table can give is none at all: that of a number beyond the
range of doubles.
-/

namespace Cartridge.Lua.ShortName

open Recogniser

/-- A name of lower-case letters that is neither a reserved word nor a name of the console. -/
structure Fresh (b : Bytes) : Prop where
  ne_nil : b ≠ []
  letters : ∀ c ∈ b, 97 ≤ c ∧ c ≤ 122
  not_preserved : b ∉ preserved

theorem letter_bounds (d : Nat) : 97 ≤ letter d ∧ letter d ≤ 122 := by
  have hlt := Nat.mod_lt d (show 0 < 26 by decide)
  have htoNat : (letter d).toNat = 97 + d % 26 := by
    have hsmall : 97 + d % 26 < 256 := by omega
    rw [letter, UInt8.toNat_ofNat_of_lt' hsmall]
  rw [UInt8.le_iff_toNat_le, UInt8.le_iff_toNat_le, htoNat]
  have h97 : (97 : UInt8).toNat = 97 := rfl
  have h122 : (122 : UInt8).toNat = 122 := rfl
  omega

theorem spellWithin_letters {fuel n : Nat} {b : Bytes} (h : spellWithin fuel n = some b) :
    b ≠ [] ∧ ∀ c ∈ b, 97 ≤ c ∧ c ≤ 122 := by
  induction fuel generalizing n b with
  | zero => cases h
  | succ fuel ih =>
    rw [spellWithin] at h
    split at h
    · cases h
      refine ⟨List.cons_ne_nil _ _, fun c hc => ?_⟩
      rw [List.mem_singleton.mp hc]
      exact letter_bounds n
    · split at h
      · cases h
      · obtain ⟨front, hfront, rfl⟩ := Option.map_eq_some_iff.mp h
        refine ⟨by simp, fun c hc => ?_⟩
        rcases List.mem_append.mp hc with hc | hc
        · exact (ih hfront).2 c hc
        · rw [List.mem_singleton.mp hc]
          exact letter_bounds n

theorem draw_fresh (fuel n : Nat) : (draw fuel n).1 = [] ∨ Fresh (draw fuel n).1 := by
  induction fuel generalizing n with
  | zero => exact .inl rfl
  | succ fuel ih =>
    rw [draw]
    split
    · exact ih (n + 1)
    · next hnot =>
      rw [List.contains_iff_mem] at hnot
      cases hspell : spell n with
      | none => exact .inl rfl
      | some b =>
        rw [hspell] at hnot
        obtain ⟨hne, hletters⟩ := spellWithin_letters hspell
        exact .inr ⟨hne, hletters, hnot⟩

/-! ### Tables -/

def Table.Sound (t : Table) : Prop := ∀ p ∈ t.given, p.2 = [] ∨ Fresh p.2

theorem Table.sound_empty : Table.Sound {} := fun _ hp => absurd hp List.not_mem_nil

theorem Table.Sound.lookup {t : Table} (h : t.Sound) (name : Bytes) :
    (t.lookup name).2.Sound ∧
      ((t.lookup name).1 = name ∧ name ∈ preserved ∨ (t.lookup name).1 = [] ∨
        Fresh (t.lookup name).1) := by
  rw [Table.lookup]
  split
  · next hmem => exact ⟨h, .inl ⟨rfl, List.contains_iff_mem.mp hmem⟩⟩
  · split
    · next p hp => exact ⟨h, .inr (h p (List.mem_of_find?_eq_some hp))⟩
    · dsimp only
      have hdraw := draw_fresh (preserved.length + 1) t.next
      refine ⟨fun p hp => ?_, .inr hdraw⟩
      rcases List.mem_append.mp hp with hp | hp
      · exact h p hp
      · rw [List.mem_singleton.mp hp]
        exact hdraw

/-! ### Reading a short name -/

theorem Fresh.lexeme {b : Bytes} (h : Fresh b) : Lexeme b (plainToken .name b) := by
  have hstart : ∀ c : UInt8, 97 ≤ c ∧ c ≤ 122 → Bytes.isNameStart c = true := by
    intro c hc
    simp [Bytes.isNameStart, Bytes.isLetter, hc.1, hc.2]
  obtain ⟨c, v, rfl⟩ := List.exists_cons_of_ne_nil h.ne_nil
  have hc := h.letters c List.mem_cons_self
  have hne : ∀ d : UInt8, Bytes.isNameStart d = false → c ≠ d := by
    rintro d hd rfl
    rw [hstart c hc] at hd
    cases hd
  have hword : (c :: v).takeWhile Bytes.isWord = c :: v := by
    have hall : ∀ d ∈ c :: v, Bytes.isWord d = true := fun d hd =>
      isWord_of_isNameStart (hstart d (h.letters d hd))
    rw [← List.append_nil (c :: v), List.takeWhile_append_of_pos hall, List.takeWhile_nil]
  have hkind : wordKind (c :: v) = .name :=
    if_neg fun hmem => h.not_preserved (List.mem_append_left _ hmem)
  refine .plain ?_ ?_ ?_ ?_
  · rintro ⟨r, hr⟩
    exact hne 45 rfl (List.cons.inj hr).1.symm
  · cases hbracket : longBracket? (c :: v) with
    | none => rfl
    | some signs =>
      obtain ⟨-, r, hr⟩ := longBracket?_eq_some_iff.mp hbracket
      exact absurd (List.cons.inj hr).1.symm (hne 91 rfl)
  · rw [startsWith_cons, isQuote, beq_false_of_ne (hne 39 rfl), beq_false_of_ne (hne 34 rfl)]
    rfl
  · rw [firstMatch_word (hstart c hc), hword, hkind]

end Cartridge.Lua.ShortName
