import Cartridge.Proofs.Packed.Plan

/-!
# The search over the suffixes of a text

The search for blocks goes from place to place in a text and reads the bytes there.  It can as well
go from suffix to suffix and compare each with the one that is to be made: the first byte of a
suffix is at hand, so a plan found in this way is quickly worked out by evaluation.
-/

namespace Cartridge.Packed

def sharedLength : Nat → Bytes → Bytes → Nat
  | n + 1, a :: s, b :: t => if a = b then sharedLength n s t + 1 else 0
  | _, _, _ => 0

/-- The best block for the suffix `here` among the one found so far and those of the `n` suffixes
from a given one on.  A block has at most `room` bytes. -/
def searchSuffixes (here : Bytes) (room : Nat) : Nat → Bytes → Block → Block
  | n + 1, c :: rest, best =>
    let k := sharedLength (min room (n + 1)) (c :: rest) here
    searchSuffixes here room n rest (if best.length < k then ⟨k, (n + 1 : Nat)⟩ else best)
  | _, _, best => best

/-- The operations that make the suffix of a text at `pos`, at most as many as the first number
says. -/
def planSuffixes (text : Bytes) : Nat → Nat → Bytes → List Op
  | n + 1, pos, c :: here =>
    let reach := min maxOffset pos
    match searchSuffixes (c :: here) (min maxLength (here.length + 1)) reach
        (text.drop (pos - reach)) (noBlock pos) with
    | ⟨length, offset⟩ =>
      if 3 ≤ length then
        .copy offset.toNat length :: planSuffixes text n (pos + length) (here.drop (length - 1))
      else Op.ofByte c :: planSuffixes text n (pos + 1) here
  | _, _, _ => []

theorem runLength_eq_sharedLength {text : Bytes} {i j n : Nat} (hi : i + n ≤ text.length)
    (hj : j + n ≤ text.length) :
    runLength text.toArray i j n = sharedLength n (text.drop i) (text.drop j) := by
  induction n generalizing i j with
  | zero => simp [runLength, sharedLength]
  | succ n ih =>
    have hi' : i < text.length := by omega
    have hj' : j < text.length := by omega
    rw [List.drop_eq_getElem_cons hi', List.drop_eq_getElem_cons hj', runLength, sharedLength,
      ih (by omega) (by omega)]
    simp [Array.getD, hi', hj']

/-- **The two searches find the same block.**  A suffix is as far back as there are suffixes left to
look at. -/
theorem searchFrom_eq_searchSuffixes {text : Bytes} {pos : Nat} (hpos : pos ≤ text.length) :
    ∀ (n i : Nat) (best : Block), i + n = pos →
      searchFrom text.toArray pos n i best
        = searchSuffixes (text.drop pos) (min maxLength (text.length - pos)) n (text.drop i)
            best := by
  intro n
  induction n with
  | zero =>
    intro i best _
    rw [searchFrom, searchSuffixes]
    intro _ _ _ h
    omega
  | succ n ih =>
    intro i best hi
    have hback : pos - i = n + 1 := by omega
    have hroom : blockRoom text.toArray pos i
        = min (min maxLength (text.length - pos)) (n + 1) := by
      rw [blockRoom, hback, List.size_toArray]
    rw [searchFrom, ih (i + 1) _ (by omega), List.drop_eq_getElem_cons (i := i) (by omega),
      searchSuffixes, ← List.drop_eq_getElem_cons]
    unfold better
    rw [hroom, runLength_eq_sharedLength (by omega) (by omega), hback]

theorem longestBlock_eq_searchSuffixes {text : Bytes} {pos : Nat} (hpos : pos ≤ text.length) :
    longestBlock text.toArray pos
      = searchSuffixes (text.drop pos) (min maxLength (text.length - pos)) (min maxOffset pos)
          (text.drop (pos - min maxOffset pos)) (noBlock pos) := by
  unfold longestBlock
  exact searchFrom_eq_searchSuffixes hpos _ _ _ (by omega)

theorem planFrom_eq_planSuffixes (text : Bytes) :
    ∀ n pos, pos ≤ text.length →
      planFrom text.toArray n pos = planSuffixes text n pos (text.drop pos) := by
  intro n
  induction n with
  | zero =>
    intro pos _
    rw [planFrom, planSuffixes]
    intro _ _ _ h
    omega
  | succ n ih =>
    intro pos hpos
    by_cases hlt : pos < text.length
    · have hblock := longestBlock_eq_searchSuffixes hpos
      have hhere : (text.drop (pos + 1)).length + 1 = text.length - pos := by
        rw [List.length_drop]
        omega
      rw [List.drop_eq_getElem_cons hlt] at hblock ⊢
      rw [planFrom, dif_pos (by simpa using hlt), planSuffixes, hhere, ← hblock]
      simp only
      split
      · next hthree =>
        -- a block ends with the text, so the suffix behind it is one of the text
        have hcopies : (longestBlock text.toArray pos).Copies text.toArray pos :=
          longestBlock_copies (by simpa using hpos) (by omega)
        rw [ih _ (by simpa using hcopies.room), List.drop_drop]
        congr 3
        omega
      · rw [ih _ hlt]
        rfl
    · rw [planFrom, dif_neg (by simpa using hlt), List.drop_eq_nil_of_le (by omega), planSuffixes]
      intro _ _ _ _ h
      cases h

theorem plan_eq_planSuffixes (text : Bytes) :
    plan text = planSuffixes text text.length 0 text := by
  unfold plan
  exact planFrom_eq_planSuffixes text _ 0 (Nat.zero_le _)

end Cartridge.Packed
