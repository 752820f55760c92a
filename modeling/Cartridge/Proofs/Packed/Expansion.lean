import Cartridge.Packed.Decode

/-!
# What packed operations make

An operation adds bytes to the end of a text, so a list of them makes a text out of nothing.  The
bytes of the operations say no more than that: which of the many lists with one expansion was
encoded does not matter to the one who reads it.
-/

namespace Cartridge.Packed

open List

variable {goal : Nat} {ops : List Op} {text : Bytes}

/-! ### Operations on texts -/

def Op.apply (text : Bytes) : Op → Bytes
  | .char c => text ++ [table.getD c.toNat 0]
  | .escaped b => text ++ [b]
  | .copy offset length => text ++ (text.drop (text.length - offset)).take length

def expand (text : Bytes) (ops : List Op) : Bytes := ops.foldl Op.apply text

/-- Whether an operation has a code, and can be carried out after `n` bytes: a copy ends before the
end of the text. -/
def Op.Fits (n : Nat) : Op → Prop
  | .char c => 1 ≤ c.toNat ∧ c.toNat ≤ 59
  | .escaped _ => True
  | .copy offset length =>
    2 ≤ length ∧ length ≤ 17 ∧ length ≤ offset ∧ offset ≤ n ∧ offset ≤ 3135

def AllFit : Bytes → List Op → Prop
  | _, [] => True
  | text, op :: ops => op.Fits text.length ∧ AllFit (op.apply text) ops

@[simp] theorem expand_nil (text : Bytes) : expand text [] = text := rfl

@[simp] theorem expand_cons (text : Bytes) (op : Op) (ops : List Op) :
    expand text (op :: ops) = expand (op.apply text) ops := rfl

theorem expand_append (text : Bytes) (ops ops' : List Op) :
    expand text (ops ++ ops') = expand (expand text ops) ops' := foldl_append

theorem length_le_length_apply (text : Bytes) (op : Op) :
    text.length ≤ (op.apply text).length := by
  cases op <;> simp [Op.apply]

theorem length_le_length_expand (text : Bytes) (ops : List Op) :
    text.length ≤ (expand text ops).length := by
  induction ops generalizing text with
  | nil => simp
  | cons op ops ih => exact Nat.le_trans (length_le_length_apply text op) (ih (op.apply text))

theorem length_lt_length_apply {op : Op} (hfit : op.Fits text.length) :
    text.length < (op.apply text).length := by
  cases op with
  | char c => simp [Op.apply]
  | escaped b => simp [Op.apply]
  | copy offset length =>
    obtain ⟨h2, h17, hlo, hon, ho⟩ := hfit
    simp only [Op.apply, length_append, length_take, length_drop]
    omega

/-! ### Operations up to a goal -/

def upTo (goal : Nat) : Bytes → List Op → List Op
  | _, [] => []
  | text, op :: ops => if goal ≤ text.length then [] else op :: upTo goal (op.apply text) ops

theorem upTo_of_le (h : goal ≤ text.length) (ops : List Op) : upTo goal text ops = [] := by
  cases ops with
  | nil => rfl
  | cons op ops => rw [upTo, if_pos h]

theorem upTo_of_lt (h : text.length < goal) (op : Op) (ops : List Op) :
    upTo goal text (op :: ops) = op :: upTo goal (op.apply text) ops := by
  rw [upTo, if_neg (by omega)]

theorem le_length_expand_upTo (h : goal ≤ (expand text ops).length) :
    goal ≤ (expand text (upTo goal text ops)).length := by
  induction ops generalizing text with
  | nil => exact h
  | cons op ops ih =>
    by_cases hle : goal ≤ text.length
    · rwa [upTo_of_le hle, expand_nil]
    · rw [upTo_of_lt (by omega), expand_cons]
      exact ih h

theorem upTo_append (hfit : AllFit text ops) (rest : List Op) :
    upTo (expand text ops).length text (ops ++ rest) = ops := by
  induction ops generalizing text with
  | nil => exact upTo_of_le (Nat.le_refl _) rest
  | cons op ops ih =>
    obtain ⟨hop, hops⟩ := hfit
    have hlt : text.length < (expand (op.apply text) ops).length :=
      Nat.lt_of_lt_of_le (length_lt_length_apply hop) (length_le_length_expand _ _)
    rw [cons_append, expand_cons, upTo_of_lt hlt, ih hops]

/-! ### The tape -/

def Tape.holding (text : Bytes) (goal : Nat) : Tape where
  done := text.toArray
  left := goal - text.length
  pos := text.length

@[simp] theorem Tape.pos_holding (text : Bytes) (goal : Nat) :
    (Tape.holding text goal).pos = text.length := rfl

theorem Tape.size_holding (h : text.length ≤ goal) : (Tape.holding text goal).size = goal := by
  simp only [Tape.size, Tape.holding, size_toArray]
  omega

theorem Tape.contents_holding (h : goal ≤ text.length) : (Tape.holding text goal).contents = text := by
  have hleft : goal - text.length = 0 := by omega
  simp [Tape.contents, Tape.holding, hleft]

theorem Tape.put_holding (b : UInt8) (h : text.length < goal) :
    (Tape.holding text goal).put b = .ok (Tape.holding (text ++ [b]) goal) := by
  obtain ⟨n, hn⟩ : ∃ n, goal - text.length = n + 1 := ⟨goal - text.length - 1, by omega⟩
  have hn' : goal - (text.length + 1) = n := by omega
  simp [Tape.put, Tape.holding, hn, hn']

theorem Tape.slice_holding {i j : Nat} (hij : i ≤ j) (hj : j ≤ text.length) (hgoal : text.length ≤ goal) :
    (Tape.holding text goal).slice i j = ((text.drop i).take (j - i)).toArray := by
  have hi : Slice.clip goal i = i := by
    simp only [Slice.clip, Int.natCast_nonneg, if_true, Int.toNat_natCast]
    omega
  have hj' : Slice.clip goal j = j := by
    simp only [Slice.clip, Int.natCast_nonneg, if_true, Int.toNat_natCast]
    omega
  have hzeros : j - max i text.length = 0 := by omega
  simp only [Tape.slice, Tape.size_holding hgoal, hi, hj']
  simp only [Tape.holding, size_toArray, hzeros, Array.replicate_zero, Array.append_empty,
    extract_toArray, extract_eq_take_drop]

theorem Tape.copy_holding {offset length : Nat} (hlength : length ≤ offset) (hoffset : offset ≤ text.length)
    (hgoal : text.length ≤ goal) :
    (Tape.holding text goal).copy offset length
      = Tape.holding ((Op.copy offset length).apply text) goal := by
  have hstart : ((Tape.holding text goal).pos : Int) - offset = (text.length - offset : Nat) := by
    rw [Tape.pos_holding]; omega
  have hstop : ((text.length - offset : Nat) : Int) + length
      = (text.length - offset + length : Nat) := by omega
  have hlen : ((text.drop (text.length - offset)).take length).length = length := by
    rw [length_take, length_drop]; omega
  unfold Tape.copy
  rw [hstart, hstop, Tape.slice_holding (by omega) (by omega) hgoal, Nat.add_sub_cancel_left]
  simp only [size_toArray, hlen, Nat.sub_self, Nat.min_zero, Array.replicate_zero,
    Array.append_empty, Nat.sub_zero]
  simp only [Tape.holding, Op.apply, length_append, hlen, append_toArray]
  congr 1
  omega

/-! ### Reading operations -/

theorem decode_encode_copy {offset length : Nat} (h2 : 2 ≤ length) (h17 : length ≤ 17)
    (ho : offset ≤ 3135) :
    let c := (offset / 16 + 60).toUInt8
    let d := (offset % 16 + (length - 2) * 16).toUInt8
    c ≠ 0 ∧ ¬c ≤ 0x3b ∧ (c.toNat - 0x3c) * 16 + (d &&& 0xf).toNat = offset ∧
      (d >>> 4).toNat + 2 = length := by
  intro c d
  have hc : c.toNat = offset / 16 + 60 := by
    simp only [c, Nat.toUInt8_eq, UInt8.toNat_ofNat']
    omega
  have hd : d.toNat = offset % 16 + (length - 2) * 16 := by
    simp only [d, Nat.toUInt8_eq, UInt8.toNat_ofNat']
    omega
  have hlow : (d &&& 0xf).toNat = offset % 16 := by
    rw [UInt8.toNat_and, hd]
    change (offset % 16 + (length - 2) * 16) &&& (2 ^ 4 - 1) = offset % 16
    rw [Nat.and_two_pow_sub_one_eq_mod]
    omega
  have hhigh : (d >>> 4).toNat = length - 2 := by
    rw [UInt8.toNat_shiftRight, hd]
    change (offset % 16 + (length - 2) * 16) >>> 4 = length - 2
    rw [Nat.shiftRight_eq_div_pow]
    omega
  refine ⟨?_, ?_, ?_, ?_⟩
  · intro h0
    have := congrArg UInt8.toNat h0
    simp only [UInt8.toNat_ofNat] at this
    omega
  · intro hle
    have : c.toNat ≤ 59 := UInt8.le_iff_toNat_le.mp hle
    omega
  · rw [hlow, hc]; omega
  · rw [hhigh]; omega

theorem run_encode {op : Op} (hfit : op.Fits text.length) (hlt : text.length < goal) (rest : Bytes) :
    run goal (Tape.holding text goal) (op.encode ++ rest)
      = run goal (Tape.holding (op.apply text) goal) rest := by
  have hmore : ¬goal ≤ (Tape.holding text goal).pos := by rw [Tape.pos_holding]; omega
  cases op with
  | char c =>
    obtain ⟨hpos, hle⟩ := hfit
    have h0 : c ≠ 0 := by rintro rfl; simp at hpos
    have h59 : c ≤ 0x3b := UInt8.le_iff_toNat_le.mpr hle
    simp only [Op.encode, cons_append, nil_append]
    rw [run.eq_def]
    simp only [if_neg hmore, if_neg h0, if_pos h59, Tape.put_holding _ hlt]
    rfl
  | escaped b =>
    simp only [Op.encode, cons_append, nil_append]
    rw [run, if_neg hmore, if_pos rfl, Tape.put_holding _ hlt]
    rfl
  | copy offset length =>
    obtain ⟨h2, h17, hlo, hon, ho⟩ := hfit
    obtain ⟨h0, h59, hoff, hlen⟩ := decode_encode_copy h2 h17 ho
    simp only [Op.encode, cons_append, nil_append]
    rw [run, if_neg hmore, if_neg h0, if_neg h59]
    simp only [hoff, hlen]
    rw [Tape.copy_holding hlo hon (Nat.le_of_lt hlt)]

/-- **The tape after some of the operations** that fill it: it has as many places as before, and
holds at its front what these operations make. -/
theorem run_front {front back : List Op} (hfit : AllFit text (front ++ back))
    (hgoal : (expand text (front ++ back)).length = goal) (rest : Bytes) :
    run goal (Tape.holding text goal) ((front ++ back).flatMap Op.encode ++ rest)
      = run goal (Tape.holding (expand text front) goal) (back.flatMap Op.encode ++ rest) := by
  induction front generalizing text with
  | nil => rfl
  | cons op front ih =>
    obtain ⟨hop, hfront⟩ := hfit
    rw [cons_append, expand_cons] at hgoal
    have hlt : text.length < goal := by
      rw [← hgoal]
      exact Nat.lt_of_lt_of_le (length_lt_length_apply hop) (length_le_length_expand _ _)
    rw [cons_append, flatMap_cons, append_assoc, run_encode hop hlt, ih hfront hgoal,
      expand_cons]

theorem run_full (h : goal ≤ text.length) (rest : Bytes) :
    run goal (Tape.holding text goal) rest = .ok (Tape.holding text goal, rest) := by
  cases rest with
  | nil => rw [run]
  | cons c rest =>
    have hpos : goal ≤ (Tape.holding text goal).pos := h
    rw [run.eq_def]
    simp only [if_pos hpos]

/-- **Reading the bytes of operations carries them out** up to the one that reaches the goal, and
takes no more bytes than theirs. -/
theorem run_flatMap_encode (hfit : AllFit text ops) (hgoal : goal ≤ (expand text ops).length) (rest : Bytes) :
    ∃ left, left.length + ((upTo goal text ops).flatMap Op.encode).length
        = (ops.flatMap Op.encode ++ rest).length ∧
      run goal (Tape.holding text goal) (ops.flatMap Op.encode ++ rest)
        = .ok (Tape.holding (expand text (upTo goal text ops)) goal, left) := by
  induction ops generalizing text with
  | nil => exact ⟨rest, rfl, run_full hgoal rest⟩
  | cons op ops ih =>
    obtain ⟨hop, hops⟩ := hfit
    by_cases hle : goal ≤ text.length
    · rw [upTo_of_le hle]
      exact ⟨_, rfl, run_full hle _⟩
    · have hlt : text.length < goal := by omega
      obtain ⟨left, hleft, hrun⟩ := ih hops hgoal
      refine ⟨left, ?_, ?_⟩
      · simp only [upTo_of_lt hlt, flatMap_cons, length_append] at hleft ⊢
        omega
      · rw [flatMap_cons, append_assoc, run_encode hop hlt, hrun, upTo_of_lt hlt,
          expand_cons]

end Cartridge.Packed
