import Cartridge.Packed.Block
import Mathlib.Data.Nat.Find

/-!
# What the search for blocks finds

The search keeps the best block of the starts it has passed.  So after the last start it has the
longest block that a copy can reach, and of the longest ones the first.  A block that it finds is really
there: its bytes stand in the text before the place they are copied to.
-/

namespace Cartridge.Packed

variable {i j k n pos : Nat} {text : Array UInt8}

/-! ### Runs of equal bytes -/

theorem runLength_succ (text : Array UInt8) (i j n : Nat) : runLength text i j (n + 1) =
    if text.getD i 0 == text.getD j 0 then runLength text (i + 1) (j + 1) n + 1 else 0 := rfl

theorem runLength_le (text : Array UInt8) (i j n : Nat) : runLength text i j n ≤ n := by
  induction n generalizing i j with
  | zero => exact Nat.le_refl 0
  | succ n ih =>
    rw [runLength_succ]
    split
    · exact Nat.succ_le_succ (ih (i + 1) (j + 1))
    · exact Nat.zero_le _

theorem getD_eq_of_lt_runLength {m : Nat} (hm : m < runLength text i j n) :
    text.getD (i + m) 0 = text.getD (j + m) 0 := by
  induction n generalizing i j m with
  | zero => exact absurd hm (Nat.not_lt_zero m)
  | succ n ih =>
    rw [runLength_succ] at hm
    split at hm
    · next heq =>
      cases m with
      | zero => simpa using heq
      | succ m =>
        have := ih (i := i + 1) (j := j + 1) (m := m) (by omega)
        rwa [Nat.add_assoc, Nat.add_comm 1 m, Nat.add_assoc, Nat.add_comm 1 m] at this
    · simp at hm

theorem le_runLength (hkn : k ≤ n) (hsame : ∀ m < k, text.getD (i + m) 0 = text.getD (j + m) 0) :
    k ≤ runLength text i j n := by
  induction n generalizing i j k with
  | zero => omega
  | succ n ih =>
    cases k with
    | zero => exact Nat.zero_le _
    | succ k =>
      have hfirst : text.getD i 0 = text.getD j 0 := hsame 0 (Nat.succ_pos k)
      have hrest : ∀ m < k, text.getD (i + 1 + m) 0 = text.getD (j + 1 + m) 0 := by
        intro m hm
        have hnext := hsame (m + 1) (Nat.succ_lt_succ hm)
        rwa [Nat.add_comm m 1, ← Nat.add_assoc, ← Nat.add_assoc] at hnext
      rw [runLength_succ, if_pos (beq_iff_eq.mpr hfirst)]
      exact Nat.succ_le_succ (ih (Nat.le_of_succ_le_succ hkn) hrest)

/-! ### The best block so far -/

def givenBy (text : Array UInt8) (pos i : Nat) : Nat := runLength text i pos (blockRoom text pos i)

/-- Of the starts from `low` up to `high`, the block is at the first of those that give most. -/
structure Leads (text : Array UInt8) (pos low high : Nat) (b : Block) : Prop where
  most : ∀ j, low ≤ j → j < high → givenBy text pos j ≤ b.length
  first : b = noBlock pos ∨ ∃ i, low ≤ i ∧ i < high ∧ b = ⟨givenBy text pos i, (pos - i : Nat)⟩ ∧
    0 < b.length ∧ ∀ j, low ≤ j → j < i → givenBy text pos j < b.length

theorem leads_better {low : Nat} {best : Block} (hlow : low ≤ i) (h : Leads text pos low i best) :
    Leads text pos low (i + 1) (better text pos i best) := by
  have hbetter : better text pos i best
      = if best.length < givenBy text pos i then ⟨givenBy text pos i, (pos - i : Nat)⟩ else best := rfl
  rw [hbetter]
  split
  · next hlonger =>
    refine ⟨fun j hj hji => ?_, .inr ⟨i, hlow, Nat.lt_succ_self i, rfl, ?_, fun j hj hji => ?_⟩⟩
    · by_cases hlast : j = i
      · rw [hlast]
      · exact Nat.le_trans (h.most j hj (by omega)) (Nat.le_of_lt hlonger)
    · exact Nat.lt_of_le_of_lt (Nat.zero_le _) hlonger
    · exact Nat.lt_of_le_of_lt (h.most j hj hji) hlonger
  · next hshorter =>
    refine ⟨fun j hj hji => ?_, h.first.imp id fun ⟨k, hk, hki, hrest⟩ => ⟨k, hk, by omega, hrest⟩⟩
    by_cases hlast : j = i
    · rw [hlast]
      exact Nat.le_of_not_lt hshorter
    · exact h.most j hj (by omega)

theorem leads_searchFrom {low : Nat} {best : Block} (hlow : low ≤ i) (h : Leads text pos low i best) :
    Leads text pos low (i + n) (searchFrom text pos n i best) := by
  induction n generalizing i best with
  | zero => exact h
  | succ n ih =>
    rw [searchFrom, Nat.add_comm n 1, ← Nat.add_assoc]
    exact ih (Nat.le_succ_of_le hlow) (leads_better hlow h)

theorem leads_longestBlock (text : Array UInt8) (pos : Nat) :
    Leads text pos (pos - maxOffset) pos (longestBlock text pos) := by
  have hstart : pos - min maxOffset pos = pos - maxOffset := by omega
  have hnone : Leads text pos (pos - maxOffset) (pos - maxOffset) (noBlock pos) :=
    ⟨fun j hj hji => by omega, .inl rfl⟩
  have h := leads_searchFrom (n := min maxOffset pos) (Nat.le_refl _) hnone
  rw [show pos - maxOffset + min maxOffset pos = pos by omega] at h
  rwa [longestBlock, hstart]

theorem runLength_le_longestBlock (hi : i < pos) (hreach : pos - i ≤ maxOffset) :
    runLength text i pos (blockRoom text pos i) ≤ (longestBlock text pos).length :=
  (leads_longestBlock text pos).most i (by omega) hi

structure Block.Copies (text : Array UInt8) (pos : Nat) (b : Block) : Prop where
  reach : b.offset ≤ (min maxOffset pos : Nat)
  before : (b.length : Int) ≤ b.offset
  short : b.length ≤ maxLength
  room : pos + b.length ≤ text.size
  same : ∀ m < b.length, text.getD (pos - b.offset.toNat + m) 0 = text.getD (pos + m) 0

theorem longestBlock_copies (hpos : pos ≤ text.size) (hlength : (longestBlock text pos).length ≠ 0) :
    (longestBlock text pos).Copies text pos := by
  rcases (leads_longestBlock text pos).first with hnone | ⟨i, hlow, hi, hb, -, -⟩
  · rw [hnone] at hlength
    exact absurd rfl hlength
  · have hle := runLength_le text i pos (blockRoom text pos i)
    have hroom : blockRoom text pos i ≤ maxLength ∧ blockRoom text pos i ≤ text.size - pos ∧
        blockRoom text pos i ≤ pos - i := by
      unfold blockRoom
      omega
    rw [hb]
    simp only [givenBy] at hle ⊢
    refine ⟨?_, ?_, ?_, ?_, fun m hm => ?_⟩
    · simp only
      omega
    · simp only
      omega
    · exact Nat.le_trans hle hroom.1
    · simp only
      omega
    · rw [Int.toNat_natCast, show pos - (pos - i) = i by omega]
      exact getD_eq_of_lt_runLength hm

/-! ### The longest match, as a text has it -/

def matchLength (text : Array UInt8) (pos i : Nat) : Nat :=
  Nat.findGreatest (fun k => text.extract i (i + k) = text.extract pos (pos + k))
    (min (min 17 (text.size - pos)) (pos - i))

theorem extract_eq_iff (hi : i + k ≤ text.size) (hpos : pos + k ≤ text.size) :
    text.extract i (i + k) = text.extract pos (pos + k) ↔
      ∀ m < k, text.getD (i + m) 0 = text.getD (pos + m) 0 := by
  constructor
  · intro h m hm
    have hbyte := congrArg (·[m]?) h
    simp only [Array.getElem?_extract] at hbyte
    rw [if_pos (by omega), if_pos (by omega)] at hbyte
    rw [Array.getD_eq_getD_getElem?, Array.getD_eq_getD_getElem?, hbyte]
  · intro h
    apply Array.ext_getElem?
    intro m
    simp only [Array.getElem?_extract]
    by_cases hm : m < k
    · have hbyte := h m hm
      rw [Array.getD_eq_getD_getElem?, Array.getD_eq_getD_getElem?] at hbyte
      rw [if_pos (by omega), if_pos (by omega), Array.getElem?_eq_getElem (by omega),
        Array.getElem?_eq_getElem (by omega)]
      rw [Array.getElem?_eq_getElem (by omega), Array.getElem?_eq_getElem (by omega)] at hbyte
      exact congrArg some hbyte
    · rw [if_neg (by omega), if_neg (by omega)]

theorem givenBy_eq_matchLength (hpos : pos ≤ text.size) (hi : i < pos) :
    givenBy text pos i = matchLength text pos i := by
  have hroom : blockRoom text pos i = min (min 17 (text.size - pos)) (pos - i) := rfl
  have hle := runLength_le text i pos (blockRoom text pos i)
  have hle' : matchLength text pos i ≤ blockRoom text pos i := Nat.findGreatest_le _
  apply Nat.le_antisymm
  · apply Nat.le_findGreatest hle
    rw [extract_eq_iff (by omega) (by omega)]
    exact fun m hm => getD_eq_of_lt_runLength hm
  · apply le_runLength hle'
    have hnone : text.extract i (i + 0) = text.extract pos (pos + 0) :=
      (extract_eq_iff (by omega) (by omega)).mpr fun m hm => absurd hm (Nat.not_lt_zero m)
    rw [← extract_eq_iff (by omega) (by omega)]
    exact Nat.findGreatest_spec (P := fun k => text.extract i (i + k) = text.extract pos (pos + k))
      (Nat.zero_le _) hnone

/-- **The search is exact.**  The length is the greatest match of all starts within reach, and the offset
leads to the first start with that match, or far before the text if there is none. -/
theorem blockAt_exact {text : Array UInt8} {pos : Nat} (hpos : pos ≤ text.size) :
    (∀ i, pos - 3120 ≤ i → i < pos → matchLength text pos i ≤ (blockAt text pos).length) ∧
      ((blockAt text pos).length = 0 → (blockAt text pos).offset = pos + 100000) ∧
      ((blockAt text pos).length ≠ 0 → ∃ i, pos - 3120 ≤ i ∧ i < pos ∧
        matchLength text pos i = (blockAt text pos).length ∧ (blockAt text pos).offset = pos - i ∧
        ∀ j, pos - 3120 ≤ j → j < i → matchLength text pos j < (blockAt text pos).length) := by
  have hblock : blockAt text pos = longestBlock text pos := by
    rw [blockAt, if_neg (by omega), Int.toNat_natCast]
  obtain ⟨hmost, hfirst⟩ := leads_longestBlock text pos
  rw [hblock]
  refine ⟨fun i hlow hi => ?_, fun hzero => ?_, fun hlength => ?_⟩
  · rw [← givenBy_eq_matchLength hpos hi]
    exact hmost i hlow hi
  · rcases hfirst with hnone | ⟨i, -, -, -, hsome, -⟩
    · rw [hnone]
      rfl
    · omega
  · rcases hfirst with hnone | ⟨i, hlow, hi, hb, -, hbefore⟩
    · rw [hnone] at hlength
      exact absurd rfl hlength
    · refine ⟨i, hlow, hi, ?_, ?_, fun j hj hji => ?_⟩
      · rw [← givenBy_eq_matchLength hpos hi, hb]
      · rw [hb]
        simp only
        omega
      · rw [← givenBy_eq_matchLength hpos (by omega)]
        exact hbefore j hj hji

theorem blockAt_exact_twice :
    6 ≤ (Bytes.ofText "abcabcabc").toArray.size ∧
      ∃ i, 6 - 3120 ≤ i ∧ i < 6 ∧ matchLength (Bytes.ofText "abcabcabc").toArray 6 i = 3 ∧
        (blockAt (Bytes.ofText "abcabcabc").toArray (6 : Nat)).offset = (6 : Nat) - i := by
  have hsize : 6 ≤ (Bytes.ofText "abcabcabc").toArray.size := by decide
  have hlength : (blockAt (Bytes.ofText "abcabcabc").toArray (6 : Nat)).length = 3 := by decide
  obtain ⟨i, hlow, hi, hmatch, hoffset, -⟩ := (blockAt_exact hsize).2.2 (by rw [hlength]; decide)
  exact ⟨hsize, i, hlow, hi, hmatch.trans hlength, hoffset⟩

end Cartridge.Packed
