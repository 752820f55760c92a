import Cartridge.Proofs.Lua.FirstMatch

/-!
# The order of the reserved words

The rules for reserved words are tried one after the other, in the order of a set that has none.  At
most one of them fits, as a word ends where no byte of a word follows it: `else` does not fit at `elseif`.
So no step of the scanner depends on the order.
-/

namespace Cartridge.Lua

open Recogniser List Bytes

variable {reserved reserved' : List Bytes} {rs rs' : List Rule}

theorem isWord_of_perm_keywords (h : reserved.Perm keywords) : ∀ u ∈ reserved, ∀ c ∈ u, isWord c = true :=
  fun u hu c hc => isWord_of_isNameStart ((isNameStart_of_mem_keywords u (h.mem_iff.mp hu)).2 c hc)

theorem keywordMatch_perm (h : reserved.Perm keywords) (h' : reserved'.Perm keywords) (s : Bytes) :
    keywordMatch reserved s = keywordMatch reserved' s := by
  have hmatch : ∀ u, u ∈ reserved ↔ u ∈ reserved' := fun u => h.mem_iff.trans h'.mem_iff.symm
  rw [keywordMatch_eq (isWord_of_perm_keywords h), keywordMatch_eq (isWord_of_perm_keywords h')]
  simp only [hmatch]

theorem firstMatch_perm (h : reserved.Perm keywords) (h' : reserved'.Perm keywords) (s : Bytes) :
    firstMatch (rules reserved) s = firstMatch (rules reserved') s := by
  rw [firstMatch_rules, firstMatch_rules, keywordMatch_perm h h']

/-- A step asks the rules for nothing but what the first fitting one finds. -/
theorem Scanner.act_congr (h : ∀ s, firstMatch rs s = firstMatch rs' s) (sc : Scanner) (s : Bytes) :
    sc.act rs s = sc.act rs' s := by
  unfold Scanner.act
  split
  · rfl
  · rfl
  · rfl
  · split
    · rfl
    · cases longBracket? s with
      | some signs => rfl
      | none =>
        cases s with
        | nil => rfl
        | cons c s => simp only [h]

/-- **The scanner does not depend on the order of the reserved words.**  Whatever two orders they are tried
in, a step takes as many bytes, finds the same token, ends in the same state and fails in the same way. -/
theorem Scanner.stepWith_perm (h : reserved.Perm keywords) (h' : reserved'.Perm keywords) (sc : Scanner)
    (s : Bytes) : sc.stepWith (rules reserved) s = sc.stepWith (rules reserved') s := by
  unfold Scanner.stepWith
  rw [Scanner.act_congr (firstMatch_perm h h')]

/-- A name that starts with two reserved words, tried forwards and backwards. -/
theorem Scanner.stepWith_perm_reverse :
    (keywords.reverse.Perm keywords ∧ keywords.reverse ≠ keywords) ∧
      Scanner.stepWith (rules keywords.reverse) {} (ofText "elseif_ =") =
        Scanner.stepWith (rules keywords) {} (ofText "elseif_ =") := by
  have hperm : keywords.reverse.Perm keywords := reverse_perm keywords
  exact ⟨⟨hperm, by decide⟩, Scanner.stepWith_perm hperm (.refl keywords) {} (ofText "elseif_ =")⟩

end Cartridge.Lua
