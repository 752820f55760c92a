import Cartridge.Text.Bytes

/-!
# Cutting at a pattern

Cutting at a pattern splits a byte string at the first place where the pattern stands.
-/

namespace Cartridge.Bytes

open List

variable {b needle y : Bytes} {z : UInt8}

theorem cutFrom_eq (needle : Bytes) : ∀ (b before : Bytes),
    cutFrom needle before b = (cut needle b).map fun p => (before.reverse ++ p.1, p.2) := by
  intro b
  induction b with
  | nil =>
    intro before
    unfold cut cutFrom
    split <;> simp
  | cons c b ih =>
    intro before
    unfold cut
    rw [cutFrom, cutFrom]
    split
    · simp
    · rw [ih (c :: before), ih [c], Option.map_map]
      simp [Function.comp_def]

theorem cut_nil (needle : Bytes) :
    cut needle [] = if needle.isEmpty then some ([], []) else none := rfl

theorem cut_cons (needle : Bytes) (c : UInt8) (b : Bytes) :
    cut needle (c :: b) = if needle.isPrefixOf (c :: b) then some ([], (c :: b).drop needle.length)
      else (cut needle b).map fun p => (c :: p.1, p.2) := by
  rw [cut, cutFrom]
  split
  · rfl
  · rw [cutFrom_eq]
    rfl

theorem eq_of_cut {x : Bytes} :
    ∀ {b : Bytes}, cut needle b = some (x, y) →
    b = x ++ needle ++ y := by
  intro b
  induction b generalizing x with
  | nil =>
    intro h
    rw [cut_nil] at h
    split at h
    · next hempty =>
      rw [List.isEmpty_iff] at hempty
      cases h
      rw [hempty]
      rfl
    · cases h
  | cons c b ih =>
    intro h
    rw [cut_cons] at h
    split at h
    · next hpre =>
      obtain ⟨t, ht⟩ := isPrefixOf_iff_prefix.mp hpre
      cases h
      rw [← ht]
      simp
    · rw [Option.map_eq_some_iff] at h
      obtain ⟨⟨x', y'⟩, hcut, hp⟩ := h
      cases hp
      rw [ih hcut]
      rfl

theorem cut_eq_none_iff : cut needle b = none ↔ ¬needle <:+: b := by
  induction b with
  | nil =>
    rw [cut_nil, infix_nil]
    cases needle <;> simp
  | cons c b ih =>
    rw [cut_cons, infix_cons_iff]
    split
    · next hpre => simp [List.isPrefixOf_iff_prefix.mp hpre]
    · next hpre =>
      rw [List.isPrefixOf_iff_prefix] at hpre
      simp [ih, hpre]

/-! ### Byte strings that go on -/

theorem cut_append_of_some (hne : needle ≠ []) :
    ∀ {a x y : Bytes},
    cut needle a = some (x, y) → ∀ b, cut needle (a ++ b) = some (x, y ++ b) := by
  intro a
  induction a with
  | nil =>
    intro x y h
    simp [cut_nil, hne] at h
  | cons c a ih =>
    intro x y h b
    rw [cut_cons] at h
    rw [cons_append, cut_cons]
    split at h
    · next hpre =>
      have hpre' := isPrefixOf_iff_prefix.mp hpre
      cases h
      rw [if_pos, ← cons_append, drop_append_of_le_length hpre'.length_le]
      exact isPrefixOf_iff_prefix.mpr (hpre'.trans (prefix_append (c :: a) b))
    · next hpre =>
      rw [Option.map_eq_some_iff] at h
      obtain ⟨⟨x', y'⟩, hcut, hp⟩ := h
      cases hp
      rw [if_neg, ih hcut b]
      · rfl
      · -- a pattern that starts here would end in `a`, where it is found later
        intro hlong
        have hlen : needle.length ≤ (c :: a).length := by
          rw [eq_of_cut hcut]
          simp only [length_cons, length_append]
          omega
        exact hpre (List.isPrefixOf_iff_prefix.mpr (prefix_of_prefix_length_le
          (List.isPrefixOf_iff_prefix.mp hlong) (prefix_append (c :: a) b) hlen))

theorem prefix_of_prefix_append_cons {p r : Bytes} (hz : z ∉ needle) (h : needle <+: p ++ z :: r) :
    needle <+: p := by
  refine prefix_of_prefix_length_le h (prefix_append p (z :: r)) ?_
  refine Nat.le_of_not_lt fun hlt => hz ?_
  obtain ⟨t, ht⟩ := h
  have hget : needle[p.length]? = some z := by
    have := congrArg (fun l => l[p.length]?) ht
    simpa [getElem?_append_left hlt] using this
  exact mem_of_getElem? hget

theorem cut_append_cons (hne : needle ≠ []) (hz : z ∉ needle) (r : Bytes) :
    ∀ p : Bytes, cut needle (p ++ z :: r) =
      match cut needle p with
      | some (x, y) => some (x, y ++ z :: r)
      | none => (cut needle r).map fun q => (p ++ z :: q.1, q.2) := by
  intro p
  cases h : cut needle p with
  | some q =>
    obtain ⟨x, y⟩ := q
    exact cut_append_of_some hne h _
  | none =>
    simp only
    induction p with
    | nil =>
      rw [nil_append, cut_cons, if_neg]
      · rfl
      · intro hpre
        obtain ⟨t, ht⟩ := prefix_of_prefix_append_cons (p := []) hz (List.isPrefixOf_iff_prefix.mp hpre)
        exact hne (append_eq_nil_iff.mp ht).1
    | cons c p ih =>
      rw [cut_cons] at h
      split at h
      · cases h
      · next hpre =>
        rw [Option.map_eq_none_iff] at h
        rw [cons_append, cut_cons, if_neg, ih h, Option.map_map]
        · rfl
        · intro hlong
          rw [List.isPrefixOf_iff_prefix, ← cons_append] at hlong
          exact hpre (List.isPrefixOf_iff_prefix.mpr (prefix_of_prefix_append_cons hz hlong))

theorem cut_congr (hne : needle ≠ []) (y' : Bytes) :
    ∀ {x : Bytes},
    cut needle (x ++ needle ++ y) = some (x, y) →
      cut needle (x ++ needle ++ y') = some (x, y') := by
  have key : ∀ {x : Bytes}, cut needle (x ++ needle ++ y) = some (x, y) →
      cut needle (x ++ needle) = some (x, []) := by
    intro x
    induction x with
    | nil =>
      intro _
      cases needle with
      | nil => exact absurd rfl hne
      | cons d needle => simp [cut_cons]
    | cons c x ih =>
      intro h
      rw [cons_append, cons_append, cut_cons] at h
      split at h
      · cases h
      · next hpre =>
        rw [Option.map_eq_some_iff] at h
        obtain ⟨⟨x', y''⟩, hcut, hp⟩ := h
        cases hp
        rw [cons_append, cut_cons, if_neg, ih hcut]
        · rfl
        · intro hshort
          rw [List.isPrefixOf_iff_prefix] at hpre hshort
          exact hpre (hshort.trans (prefix_append _ _))
  intro x h
  have := cut_append_of_some hne (key h) y'
  simpa using this

theorem holds_iff : holds needle b = true ↔ needle <:+: b := by
  rw [holds, Option.isSome_iff_ne_none, ne_eq, cut_eq_none_iff,
    Decidable.not_not]

end Cartridge.Bytes
