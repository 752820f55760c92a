import Cartridge.Proofs.Lua.Stepwise

/-!
# Rows of words

Where a list of tokens is known up to places, its words come one after the other, whatever gaps are
between them.  Phrases can be put together from them.
-/

namespace Cartridge.Lua

def solids (us : List Token) : List Token := us.filter fun u => !u.isGap

theorem Token.isGap_unplaced (t : Token) : t.unplaced.isGap = t.isGap := rfl

theorem Token.fits_unplaced (t : Token) (p : Pattern) : t.unplaced.fits p = t.fits p := by
  cases p with
  | kind k => cases k <;> rfl
  | exact u => rfl

namespace Grammar

def Holds (toks : Array Token) (i : Nat) (us : List Token) : Prop :=
  us <+: (toks.toList.drop i).map Token.unplaced

def NextWord (toks : Array Token) (i : Nat) (w : Token) (k : Nat) : Prop :=
  ∃ x t, Blank toks i x ∧ toks[x]? = some t ∧ t.isGap = false ∧ t.unplaced = w ∧ k = x + 1

abbrev Row (toks : Array Token) (i : Nat) (ws : List Token) (k : Nat) : Prop :=
  Chained (NextWord toks) i ws k

section Rows

variable {toks : Array Token} {i j k : Nat} {w : Token} {us vs ws : List Token}

theorem Holds.left (h : Holds toks i (us ++ vs)) : Holds toks i us :=
  (List.prefix_append us vs).trans h

theorem Holds.right (h : Holds toks i (us ++ vs)) : Holds toks (i + us.length) vs := by
  obtain ⟨rest, hrest⟩ := h
  refine ⟨rest, ?_⟩
  rw [← List.drop_drop, List.map_drop, ← hrest, List.append_assoc, List.drop_left]

theorem Holds.get {u : Token} (h : Holds toks i (u :: us)) : ∃ t, toks[i]? = some t ∧ t.unplaced = u := by
  obtain ⟨rest, hrest⟩ := h
  have hget := congrArg (·[0]?) hrest
  simp only [List.cons_append, List.getElem?_cons_zero, List.getElem?_map, List.getElem?_drop,
    Nat.add_zero, Array.getElem?_toList] at hget
  obtain ⟨t, ht, htu⟩ := Option.map_eq_some_iff.mp hget.symm
  exact ⟨t, ht, htu⟩

theorem Holds.getElem? (h : Holds toks i us) {n : Nat} {u : Token} (hn : us[n]? = some u) :
    ∃ t, toks[n + i]? = some t ∧ t.unplaced = u := by
  obtain ⟨hlt, rfl⟩ := List.getElem?_eq_some_iff.mp hn
  have hsplit : us = us.take n ++ us[n] :: us.drop (n + 1) := by
    rw [← List.drop_eq_getElem_cons, List.take_append_drop]
  rw [hsplit] at h
  have hright := h.right
  rw [List.length_take, Nat.min_eq_left (Nat.le_of_lt hlt), Nat.add_comm i n] at hright
  exact hright.get

theorem Holds.le_size (h : Holds toks i us) (hi : i ≤ toks.size) : i + us.length ≤ toks.size := by
  have hle : us.length ≤ toks.size - i := by simpa using h.length_le
  omega

theorem holds_of_eq (h : toks.toList.map Token.unplaced = us) : Holds toks 0 us := by
  exact ⟨[], by rw [List.append_nil, List.drop_zero, h]⟩

theorem Holds.stops {u : Token} (h : Holds toks i (u :: us)) (hsolid : u.isGap = false) {qs : List Pattern}
    (hqs : ∀ q ∈ qs, u.fits q = false) : Stops toks qs i := by
  obtain ⟨t, ht, rfl⟩ := h.get
  intro v x hv
  rw [Token.isGap_unplaced] at hsolid
  rw [hv.blank.eq_of_solid ht hsolid] at hv
  obtain ⟨q, hq, hfits⟩ := hv.fits
  have hget := hv.get
  rw [ht, Option.some.injEq] at hget
  have hnot := hqs q hq
  rw [Token.fits_unplaced, hget, hfits] at hnot
  cases hnot

theorem NextWord.of_blank (h : NextWord toks j w k) (hb : Blank toks i j) : NextWord toks i w k := by
  obtain ⟨x, t, hblank, ht, hsolid, hw, hk⟩ := h
  exact ⟨x, t, hb.trans hblank, ht, hsolid, hw, hk⟩

theorem NextWord.takes (h : NextWord toks i w k) (ps : List Pattern) (hfits : ∃ p ∈ ps, w.fits p = true) :
    ∃ t x, Takes toks ps i t x ∧ t.unplaced = w ∧ k = x + 1 := by
  obtain ⟨x, t, hblank, ht, hsolid, rfl, hk⟩ := h
  obtain ⟨p, hp, hfits⟩ := hfits
  rw [Token.fits_unplaced] at hfits
  exact ⟨t, x, ⟨hblank, ht, hsolid, p, hp, hfits⟩, rfl, hk⟩

theorem NextWord.lt (h : NextWord toks i w k) : i < k ∧ k ≤ toks.size := by
  obtain ⟨x, t, hblank, ht, -, -, rfl⟩ := h
  exact ⟨Nat.lt_succ_of_le hblank.le, (Array.getElem?_eq_some_iff.mp ht).1⟩

theorem Row.length_le (h : Row toks i ws k) : i + ws.length ≤ k := by
  induction h with
  | nil i => exact Nat.le_refl i
  | cons h _ ih =>
    have hlt := h.lt.1
    rw [List.length_cons]
    omega

theorem Row.le_size (h : Row toks i (w :: ws) k) : k ≤ toks.size := by
  induction ws generalizing i w with
  | nil =>
    obtain ⟨_, hw, rfl⟩ := (Chained.cons_iff.mp h).imp fun _ h => h.imp_right Chained.nil_iff.mp
    exact hw.lt.2
  | cons w' ws ih =>
    obtain ⟨_, -, hs⟩ := Chained.cons_iff.mp h
    exact ih hs

theorem Holds.row (h : Holds toks i us) :
    ∃ k, Row toks i (solids us) k ∧ Blank toks k (i + us.length) := by
  induction us generalizing i with
  | nil => exact ⟨i, .nil i, .refl toks i⟩
  | cons u us ih =>
    obtain ⟨t, ht, htu⟩ := h.get
    have hrest : Holds toks (i + 1) us := by
      rw [← List.singleton_append] at h
      exact h.right
    obtain ⟨k, hrow, hblank⟩ := ih hrest
    have hlength : i + (u :: us).length = i + 1 + us.length := by
      rw [List.length_cons]
      omega
    rw [hlength]
    cases hgap : u.isGap with
    | false =>
      have hsolids : solids (u :: us) = u :: solids us := List.filter_cons_of_pos (by rw [hgap]; rfl)
      have hsolid : t.isGap = false := by rw [← Token.isGap_unplaced, htu, hgap]
      rw [hsolids]
      exact ⟨k, .cons ⟨i, t, .refl toks i, ht, hsolid, htu, rfl⟩ hrow, hblank⟩
    | true =>
      have hsolids : solids (u :: us) = solids us :=
        List.filter_cons_of_neg (by rw [hgap]; exact Bool.noConfusion)
      have hone : Blank toks i (i + 1) := .single ht (by rw [← Token.isGap_unplaced, htu, hgap])
      rw [hsolids]
      -- a row without words ends where it starts
      generalize solids us = ws at hrow
      cases hrow with
      | nil => exact ⟨i, .nil i, hone.trans hblank⟩
      | cons hword hrow => exact ⟨k, .cons (hword.of_blank hone) hrow, hblank⟩

end Rows
end Grammar
end Cartridge.Lua
