import Cartridge.Numeral.Integer

/-!
# Hexadecimal text is read as it was written

A byte is written as two digits, and the digits are read as the byte: by the
reader of digit pairs and by the reader of integers.  No digit is a blank, so that
blanks at the end of a line can be cut off.
-/

namespace Cartridge

open List

theorem forall_byte {p : UInt8 → Prop} (h : ∀ n < 256, p (UInt8.ofNat n)) (c : UInt8) : p c := by
  have hc := h c.toNat c.toNat_lt
  rwa [UInt8.ofNat_toNat] at hc

namespace Bytes

theorem trimRight_append_newline {x : Bytes} (h : ∀ c ∈ x, isBlank c = false) :
    trimRight (x ++ [newline]) = x := by
  have hdrop : x.reverse.dropWhile isBlank = x.reverse := by
    cases hx : x.reverse with
    | nil => rfl
    | cons c y =>
      have hc : isBlank c = false := h c (mem_reverse.mp (hx ▸ mem_cons_self))
      rw [dropWhile_cons, if_neg (by simp [hc])]
  have hnewline : isBlank newline = true := rfl
  rw [trimRight, reverse_append, reverse_singleton, singleton_append,
    dropWhile_cons, if_pos hnewline, hdrop, reverse_reverse]

end Bytes

namespace Hex

/-! ### Digits -/

theorem digits_of_byte : ∀ c : UInt8,
    value? (digit (c >>> 4)) = some (c >>> 4) ∧ value? (digit (c &&& 15)) = some (c &&& 15) ∧
      (c >>> 4) * 16 + (c &&& 15) = c ∧
      Numeral.integer? 16 120 (pair c) = some (c.toNat : Int) ∧
      (c.toNat ≤ 15 → Numeral.integer? 16 120 [digit c] = some (c.toNat : Int)) ∧
      (isDigit c = true → Bytes.isBlank c = false ∧ ¬127 < c ∧ c ≠ 95) :=
  forall_byte (by decide +kernel)

theorem value?_digit_high (c : UInt8) : value? (digit (c >>> 4)) = some (c >>> 4) :=
  (digits_of_byte c).1

theorem value?_digit_low (c : UInt8) : value? (digit (c &&& 15)) = some (c &&& 15) :=
  (digits_of_byte c).2.1

theorem halves (c : UInt8) : (c >>> 4) * 16 + (c &&& 15) = c :=
  (digits_of_byte c).2.2.1

theorem isDigit_pair {c d : UInt8} (h : d ∈ pair c) : isDigit d = true := by
  rw [pair, mem_cons, mem_singleton] at h
  rcases h with rfl | rfl
  · rw [isDigit, value?_digit_high]
    rfl
  · rw [isDigit, value?_digit_low]
    rfl

theorem isDigit_encode {b : Bytes} {d : UInt8} (h : d ∈ encode b) : isDigit d = true := by
  obtain ⟨c, -, hd⟩ := mem_flatMap.mp h
  exact isDigit_pair hd

theorem facts_of_isDigit (d : UInt8) :
    isDigit d = true → Bytes.isBlank d = false ∧ ¬127 < d ∧ d ≠ 95 :=
  (digits_of_byte d).2.2.2.2.2

theorem length_encode (b : Bytes) : (encode b).length = 2 * b.length := by
  induction b with
  | nil => rfl
  | cons c b ih =>
    rw [encode, flatMap_cons, length_append, length_cons, ← encode, ih]
    simp only [pair, length_cons, length_nil]
    omega

/-! ### Pairs of digits -/

theorem decodeFrom_encode (b read rest : Bytes) :
    decodeFrom read (encode b ++ rest) = decodeFrom (b.reverse ++ read) rest := by
  induction b generalizing read with
  | nil => rfl
  | cons c b ih =>
    have hblank : Bytes.isBlank (digit (c >>> 4)) = false :=
      (facts_of_isDigit _ (isDigit_pair mem_cons_self)).1
    have hstep : ∀ s, decodeFrom read (digit (c >>> 4) :: digit (c &&& 15) :: s) =
        decodeFrom (c :: read) s := by
      intro s
      rw [decodeFrom, hblank]
      simp only [value?_digit_high, value?_digit_low, halves, Bool.false_eq_true, if_false]
    have hcons : encode (c :: b) ++ rest =
        digit (c >>> 4) :: digit (c &&& 15) :: (encode b ++ rest) := rfl
    rw [hcons, hstep, ih (c :: read), reverse_cons, append_assoc, singleton_append]

theorem decode?_encode (b : Bytes) : decode? (encode b) = some b := by
  have h := decodeFrom_encode b [] []
  rw [append_nil, append_nil] at h
  rw [decode?, h, decodeFrom, reverse_reverse]

/-! ### Integers -/

theorem integer?_pair (c : UInt8) : Numeral.integer? 16 120 (pair c) = some (c.toNat : Int) :=
  (digits_of_byte c).2.2.2.1

theorem integer?_digit (c : UInt8) (hc : c.toNat ≤ 15) :
    Numeral.integer? 16 120 [digit c] = some (c.toNat : Int) :=
  (digits_of_byte c).2.2.2.2.1 hc

theorem pair_halves {h l : UInt8} (hh : h.toNat ≤ 15) (hl : l.toNat ≤ 15) :
    pair ((h <<< 4) ||| l) = [digit h, digit l] := by
  have hall : ∀ n < 16, ∀ m < 16, pair ((UInt8.ofNat n <<< 4) ||| UInt8.ofNat m) =
      [digit (UInt8.ofNat n), digit (UInt8.ofNat m)] := by
    decide
  have := hall h.toNat (by omega) l.toNat (by omega)
  rwa [UInt8.ofNat_toNat, UInt8.ofNat_toNat] at this

end Hex
end Cartridge
