import Cartridge.Proofs.Packed.Plan

/-!
# How long packed text is

An operation takes one byte or two.  A character of the table takes one, so a text of such characters
never gets longer.  It gets shorter as soon as there is a place where the search finds a block: a copy
takes two bytes and makes three or more.  Up to the first such place packing gains nothing, since
every byte of the text takes a byte of its own.
-/

namespace Cartridge.Packed

variable {n pos : Nat}

def packedLength (ops : List Op) : Nat := (ops.flatMap Op.encode).length

theorem packedLength_cons (op : Op) (ops : List Op) :
    packedLength (op :: ops) = op.encode.length + packedLength ops := by
  rw [packedLength, List.flatMap_cons, List.length_append, packedLength]

theorem length_encode_pos (op : Op) : 0 < op.encode.length := by
  cases op <;> exact Nat.succ_pos _

section Plans

variable {text : Array UInt8}

theorem le_length_planFrom {stop : Nat} (hstop : stop ≤ text.size) (hn : text.size - pos ≤ n)
    (hnone : ∀ p, pos ≤ p → p < stop → (longestBlock text p).length < 3) :
    stop - pos ≤ packedLength (planFrom text n pos) := by
  induction n generalizing pos with
  | zero => omega
  | succ n ih =>
    by_cases hpos : pos < stop
    · have hblock := hnone pos (Nat.le_refl pos) hpos
      have hrest : stop - (pos + 1) ≤ packedLength (planFrom text n (pos + 1)) :=
        ih (by omega) fun p hp => hnone p (by omega)
      rw [planFrom, dif_pos (Nat.lt_of_lt_of_le hpos hstop)]
      dsimp only
      rw [if_neg (by omega), packedLength_cons]
      have hone := length_encode_pos (Op.ofByte text[pos])
      omega
    · omega

variable (hcode : ∀ b ∈ text, code b ≠ 0)
include hcode

theorem length_encode_getElem (hpos : pos < text.size) : (Op.ofByte text[pos]).encode.length = 1 := by
  rw [length_encode_ofByte, if_neg (hcode _ (Array.getElem_mem hpos))]

theorem length_planFrom_le (n pos : Nat) : packedLength (planFrom text n pos) ≤ text.size - pos := by
  induction n generalizing pos with
  | zero => exact Nat.zero_le _
  | succ n ih =>
    rw [planFrom]
    split
    · next hpos =>
      dsimp only
      split
      · next hthree =>
        have hroom := (longestBlock_copies (Nat.le_of_lt hpos) (by omega)).room
        have hrest := ih (pos + (longestBlock text pos).length)
        rw [packedLength_cons]
        show 2 + _ ≤ _
        omega
      · have hrest := ih (pos + 1)
        rw [packedLength_cons, length_encode_getElem hcode hpos]
        omega
    · exact Nat.zero_le _

/-- Where the search finds a block, a plan for characters of the table takes fewer bytes than it
makes: the block is copied, or one before it is that reaches over its start. -/
theorem length_planFrom_lt {q : Nat} (hn : text.size - pos ≤ n) (hq : pos ≤ q)
    (hsize : q < text.size) (hblock : 3 ≤ (longestBlock text q).length) :
    packedLength (planFrom text n pos) < text.size - pos := by
  induction n generalizing pos with
  | zero => omega
  | succ n ih =>
    have hpos : pos < text.size := Nat.lt_of_le_of_lt hq hsize
    rw [planFrom, dif_pos hpos]
    dsimp only
    split
    · next hthree =>
      have hroom := (longestBlock_copies (Nat.le_of_lt hpos) (by omega)).room
      have hrest := length_planFrom_le hcode n (pos + (longestBlock text pos).length)
      rw [packedLength_cons]
      show 2 + _ < _
      omega
    · next hthree =>
      -- a byte is taken here, so the block is further on
      have hne : pos ≠ q := by
        rintro rfl
        exact hthree hblock
      have hrest : packedLength (planFrom text n (pos + 1)) < text.size - (pos + 1) :=
        ih (by omega) (by omega)
      rw [packedLength_cons, length_encode_getElem hcode hpos]
      omega

end Plans

end Cartridge.Packed
