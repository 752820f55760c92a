import Cartridge.Packed.Encode
import Cartridge.Proofs.Packed.Expansion
import Cartridge.Proofs.Packed.Search

/-!
# The operations that make a text

The plan for a text copies what the search for blocks finds and adds single bytes otherwise.  What it
does at one place says all about it: the operation fits in its bytes, and it makes the text up to the
next place.
-/

namespace Cartridge.Packed

variable {n pos : Nat} {text : Array UInt8}

/-! ### One operation -/

/-- What packing puts out at a place of a text: a character of the table or a byte that stands there, or a
copy that fits in two bytes. -/
def Op.Emitted (text : Bytes) (pos : Nat) : Op → Prop
  | .char c => 1 ≤ c.toNat ∧ c.toNat ≤ 59 ∧ text[pos]? = some (table.getD c.toNat 0)
  | .escaped b => text[pos]? = some b
  | .copy offset length =>
    3 ≤ length ∧ length ≤ 17 ∧ length ≤ offset ∧ offset ≤ min 3120 pos ∧
      ∃ c d : UInt8, (Op.copy offset length).encode = [c, d] ∧ 60 ≤ c.toNat ∧ 16 ≤ d.toNat ∧
        c.toNat = offset / 16 + 60 ∧ d.toNat = offset % 16 + (length - 2) * 16

theorem Op.Emitted.fits {bytes : Bytes} {op : Op} (h : op.Emitted bytes pos) : op.Fits pos := by
  cases op with
  | char c => exact ⟨h.1, h.2.1⟩
  | escaped b => trivial
  | copy offset length =>
    obtain ⟨hthree, hshort, hbefore, hreach, -⟩ := h
    exact ⟨by omega, hshort, hbefore, by omega, by omega⟩

theorem table_code {b : UInt8} (h : code b ≠ 0) :
    1 ≤ (code b).toNat ∧ (code b).toNat ≤ 59 ∧ table.getD (code b).toNat 0 = b := by
  unfold code at h ⊢
  cases hfind : (List.range' 1 59).find? fun i => table.getD i 0 == b with
  | none => rw [hfind] at h; simp at h
  | some i =>
    have hmem := List.mem_of_find?_eq_some hfind
    have htable := List.find?_some hfind
    rw [List.mem_range'_1] at hmem
    have hi : (i.toUInt8).toNat = i := by
      rw [Nat.toUInt8_eq, UInt8.toNat_ofNat']
      omega
    simp only [hi]
    exact ⟨by omega, by omega, by simpa using htable⟩

theorem emitted_ofByte {bytes : Bytes} {b : UInt8} (h : bytes[pos]? = some b) :
    (Op.ofByte b).Emitted bytes pos := by
  unfold Op.ofByte
  split
  · exact h
  · next hcode =>
    obtain ⟨hlow, hhigh, htable⟩ := table_code hcode
    exact ⟨hlow, hhigh, by rw [htable, h]⟩

theorem apply_ofByte (text : Bytes) (b : UInt8) : (Op.ofByte b).apply text = text ++ [b] := by
  unfold Op.ofByte
  split
  · rfl
  · next h => rw [Op.apply, (table_code h).2.2]

theorem length_encode_ofByte (b : UInt8) :
    (Op.ofByte b).encode.length = if code b = 0 then 2 else 1 := by
  unfold Op.ofByte
  split <;> rfl

theorem emitted_copy {b : Block} (h : b.Copies text pos) (hthree : 3 ≤ b.length) (bytes : Bytes) :
    (Op.copy b.offset.toNat b.length).Emitted bytes pos := by
  have hbefore := h.before
  have hreach := h.reach
  have hshort := h.short
  have hmax : maxOffset = 3120 ∧ maxLength = 17 := ⟨rfl, rfl⟩
  have hbyte : ∀ m ≤ 255, (Nat.toUInt8 m).toNat = m := by
    intro m hm
    rw [Nat.toUInt8_eq, UInt8.toNat_ofNat']
    omega
  have hfirst := hbyte (b.offset.toNat / 16 + 60) (by omega)
  have hsecond := hbyte (b.offset.toNat % 16 + (b.length - 2) * 16) (by omega)
  exact ⟨hthree, by omega, by omega, by omega, _, _, rfl, by omega, by omega, hfirst, hsecond⟩

theorem apply_copy_take {b : Block} (h : b.Copies text pos) :
    (Op.copy b.offset.toNat b.length).apply (text.toList.take pos)
      = text.toList.take (pos + b.length) := by
  obtain ⟨hreach, hbefore, -, hroom, hsame⟩ := h
  have hsize : text.toList.length = text.size := Array.length_toList
  have hlen : (text.toList.take pos).length = pos := by
    rw [List.length_take, hsize]
    omega
  rw [Op.apply, hlen, List.take_add]
  congr 1
  apply List.ext_getElem?
  intro m
  rw [List.getElem?_take, List.getElem?_take]
  split
  · next hm =>
    -- both bytes are inside the text, so reading them with a default reads them
    have hm' := hsame m hm
    rw [Array.getD_eq_getD_getElem?, Array.getD_eq_getD_getElem?,
      Array.getElem?_eq_getElem (by omega), Array.getElem?_eq_getElem (by omega)] at hm'
    rw [List.getElem?_drop, List.getElem?_drop, List.getElem?_take, if_pos (by omega),
      List.getElem?_eq_getElem (by omega), List.getElem?_eq_getElem (by omega)]
    simpa using hm'
  · rfl

/-! ### The plan -/

theorem planFrom_step (hpos : pos < text.size) (n : Nat) :
    ∃ op k, planFrom text (n + 1) pos = op :: planFrom text n (pos + k) ∧ 0 < k ∧ pos + k ≤ text.size ∧
      op.Emitted text.toList pos ∧ op.apply (text.toList.take pos) = text.toList.take (pos + k) ∧
      op.encode.length ≤ 2 * k := by
  rw [planFrom, dif_pos hpos]
  dsimp only
  split
  · next hthree =>
    have hcopy := longestBlock_copies (Nat.le_of_lt hpos) (by omega)
    refine ⟨_, _, rfl, by omega, hcopy.room, emitted_copy hcopy hthree _, apply_copy_take hcopy, ?_⟩
    show 2 ≤ _
    omega
  · have hbyte : text.toList[pos]? = some text[pos] := by
      rw [Array.getElem?_toList, Array.getElem?_eq_getElem hpos]
    refine ⟨_, 1, rfl, Nat.one_pos, hpos, emitted_ofByte hbyte, ?_, ?_⟩
    · rw [apply_ofByte, List.take_add_one, hbyte]
      rfl
    · rw [length_encode_ofByte]
      split <;> omega

theorem planFrom_end (h : text.size ≤ pos) (n : Nat) : planFrom text n pos = [] := by
  cases n with
  | zero => rfl
  | succ n => rw [planFrom, dif_neg (by omega)]

/-- The rest of a plan makes the rest of the text.  The induction is on the bound of the plan, which
is never used up: every operation passes a byte. -/
theorem planFrom_makes (text : Array UInt8) :
    ∀ n pos, pos ≤ text.size → text.size - pos ≤ n →
      AllFit (text.toList.take pos) (planFrom text n pos) ∧
        expand (text.toList.take pos) (planFrom text n pos) = text.toList := by
  intro n
  induction n with
  | zero =>
    intro pos hpos hn
    rw [planFrom, List.take_of_length_le (by simp; omega)]
    exact ⟨trivial, rfl⟩
  | succ n ih =>
    intro pos hpos hn
    by_cases hlt : pos < text.size
    · obtain ⟨op, k, hplan, hk, hroom, hemitted, happly, -⟩ := planFrom_step hlt n
      obtain ⟨hfit, hmake⟩ := ih (pos + k) hroom (by omega)
      have hlen : (text.toList.take pos).length = pos := by simp; omega
      rw [hplan, expand_cons, happly]
      refine ⟨⟨?_, ?_⟩, hmake⟩
      · rw [hlen]
        exact hemitted.fits
      · rwa [happly]
    · rw [planFrom_end (by omega), List.take_of_length_le (by simp; omega)]
      exact ⟨trivial, rfl⟩

theorem allFit_plan (text : Bytes) : AllFit [] (plan text) := by
  have h := planFrom_makes text.toArray text.toArray.size 0 (Nat.zero_le _) (Nat.le_refl _)
  exact h.1

theorem expand_plan (text : Bytes) : expand [] (plan text) = text := by
  have h := planFrom_makes text.toArray text.toArray.size 0 (Nat.zero_le _) (Nat.le_refl _)
  exact h.2

end Cartridge.Packed
