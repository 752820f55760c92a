import Cartridge.Proofs.Lua.Windowed

/-!
# What the grammar does not see

A program that has been parsed is parsed again, to the same tree, when its tokens have moved to other
places and when newlines have been added after the last of them: all its tokens are a window that stays
where it is.  Every token list is such a window of itself, and the levels that may be spent on it do not
matter as long as there are enough.
-/

namespace Cartridge.Lua
namespace Grammar

variable {toks toks' : Array Token}

theorem EndsInWord.le_size {i j : Nat} (h : EndsInWord toks i j) (hi : i ≤ toks.size) : j ≤ toks.size := by
  obtain rfl | ⟨k, t, rfl, ht, -⟩ := h
  · exact hi
  · exact (Array.getElem?_eq_some_iff.mp ht).1

theorem Tried.le_size {i j : Nat} (h : Tried toks i j) (hi : i ≤ toks.size) : j ≤ toks.size := by
  refine EndsInWord.le_size ?_ hi
  obtain ⟨t, h | h | h | h⟩ := h
  · exact h.endsInWord
  · exact h.endsInWord
  · exact h.endsInWord
  · exact h.endsInWord Derived.endsInWord

theorem window_still
    (hsame : ∀ {i : Nat} {t : Token}, toks[i]? = some t → ∃ t', toks'[i]? = some t' ∧ Token.Same t t')
    (hadded : ∀ {i : Nat} {t' : Token}, toks.size ≤ i → toks'[i]? = some t' → t'.isGap = true) :
    Window toks toks' .still toks.size where
  le := Nat.le_refl _
  same hi := by
    have ht := Array.getElem?_eq_getElem hi
    obtain ⟨t', ht', h⟩ := hsame ht
    exact ⟨_, t', ht, ht', h⟩
  lead := .refl _ _
  behind hblank ht' hsolid := by
    rw [hadded hblank.le ht'] at hsolid
    cases hsolid
  front hblank ht _ := absurd (Array.getElem?_eq_some_iff.mp ht).1 (Nat.not_lt_of_le hblank.le)
  cut h hi := h.le_size hi

theorem window_of_newlines {tail : List Token}
    (h : toks'.toList.map Token.unplaced = toks.toList.map Token.unplaced ++ tail)
    (htail : ∀ t ∈ tail, t.kind = .newline) : Window toks toks' .still toks.size := by
  refine window_still (fun {i t} ht => ?_) fun {i t'} hle ht' => ?_
  · have hget : (toks'.toList.map Token.unplaced)[i]? = some t.unplaced := by
      rw [h, List.getElem?_append_left (by simpa using (Array.getElem?_eq_some_iff.mp ht).1)]
      simp [ht]
    rw [List.getElem?_map, Option.map_eq_some_iff] at hget
    obtain ⟨t', ht', hsame⟩ := hget
    exact ⟨t', by rw [← Array.getElem?_toList]; exact ht', hsame⟩
  · have hget : (toks'.toList.map Token.unplaced)[i]? = some t'.unplaced := by
      rw [List.getElem?_map, Array.getElem?_toList, ht', Option.map_some]
    rw [h, List.getElem?_append_right (by simpa using hle)] at hget
    have hnewline := htail t'.unplaced (List.mem_of_getElem? hget)
    exact congrArg TokenKind.isGap hnewline

theorem expression_deepens {n : Nat} {c c₁ : Cursor} {r : Option Tree} (hc : c.Sound toks)
    (hpos : c.pos ≤ toks.size) (hrun : (phrase toks n .expression).run c = .ok (r, c₁)) :
    ∃ r' c₁', (phrase toks (toks.size + 1) .expression).run c = .ok (r', c₁') ∧
      Option.Rel (Tree.Moved .still) r r' ∧ Abreast toks .still toks.size c₁ c₁' := by
  have hwindow : Window toks toks .still toks.size :=
    window_still (fun ht => ⟨_, ht, rfl⟩) fun hle ht =>
      absurd (Array.getElem?_eq_some_iff.mp ht).1 (Nat.not_lt_of_le hle)
  have hfound := ((inner_free toks n 0).expression (hwindow.onward hc hpos)).left hrun
  exact (phrase_shadows hwindow n (Nat.lt_succ_self _)).expression.shadowed
    ⟨(Shift.place_still _).symm, hpos, hc, fun _ _ => rfl⟩ (Nat.zero_le _) hrun hfound.1.size

end Grammar

open Grammar

/-- **A program that has a tree has the same tree, up to places, when newlines are added after its
tokens.** -/
theorem Tree.ofTokens_of_newlines {toks toks' : Array Token} {tail : List Token}
    (h : toks'.toList.map Token.unplaced = toks.toList.map Token.unplaced ++ tail)
    (htail : ∀ t ∈ tail, t.kind = .newline) {t : Tree} (ht : Tree.ofTokens toks = .ok t) :
    ∃ t', Tree.ofTokens toks' = .ok t' ∧ Tree.Same t t' := by
  have hwindow : Window toks toks' .still toks.size := window_of_newlines h htail
  obtain ⟨c, hrun⟩ := Tree.ofTokens_eq_ok_iff_run.mp ht
  have hstart : Cursor.Sound toks {} := ⟨nofun⟩
  have hfound := ((inner_free toks _ 0).block (hwindow.onward hstart (Nat.zero_le _))).left hrun
  obtain ⟨_, c', hrun', hmoved, -⟩ := (phrase_shadows hwindow _ (k := 0) hwindow.lt_rounds).block.shadowed
    ⟨rfl, Nat.zero_le _, hstart, fun _ _ => rfl⟩ (Nat.le_refl _) hrun hfound.2.1.size
  cases hmoved with
  | @some _ t' hmoved =>
    rw [Tree.Moved, Tree.movedBy_still] at hmoved
    exact ⟨t', Tree.ofTokens_eq_ok_iff_run.mpr ⟨c', hrun'⟩, hmoved⟩

end Cartridge.Lua
