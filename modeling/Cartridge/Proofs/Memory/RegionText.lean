import Cartridge.Memory.SpriteFlags
import Cartridge.Memory.TileMap
import Cartridge.Proofs.Text.Hex

/-!
# Regions as lines of digits

A region is written in rows of so many bytes, a line for each row, and the lines
are read row by row.  The rows put together are the region.  In the lines of a
picture the digits of each byte are swapped, and a line counts only if it has the
length of a row of pixels; so a picture comes back if it consists of whole rows,
and lines of another length among them do no harm.
-/

namespace Cartridge

open List

variable {others : List Bytes} {r sheet : Region} {row : Bytes} {width : Nat}

/-! ### Readers that go through lists -/

theorem mapM_map_eq_ok {α β γ : Type} {f : β → Except Failure γ} {g : α → β} {h : α → γ}
    {l : List α} (hf : ∀ a ∈ l, f (g a) = .ok (h a)) : (l.map g).mapM f = .ok (l.map h) := by
  induction l with
  | nil => rfl
  | cons a l ih =>
    rw [map_cons, mapM_cons, hf a mem_cons_self,
      ih fun b hb => hf b (mem_cons_of_mem a hb)]
    rfl

theorem mapM_eq_ok {α γ : Type} {f : α → Except Failure γ} {h : α → γ} {l : List α}
    (hf : ∀ a ∈ l, f a = .ok (h a)) : l.mapM f = .ok (l.map h) := by
  have hmap := mapM_map_eq_ok (g := id) hf
  rwa [map_id] at hmap

theorem linesUntil_eq {α : Type} {make : α → Except Failure Bytes} {f : α → Bytes} {l : List α}
    (h : ∀ a ∈ l, make a = .ok (f a)) : linesUntil make l = (l.map f, none) := by
  induction l with
  | nil => rfl
  | cons a l ih =>
    rw [linesUntil, h a mem_cons_self, ih fun b hb => h b (mem_cons_of_mem a hb)]
    rfl

namespace Region

theorem fetch_of_lt {i : Nat} (h : i < r.size) : r.fetch (i : Int) = .ok r[i] := by
  have hposition : Slice.position? r.size (i : Int) = some i := by
    rw [Slice.position?, if_pos (by omega), if_pos (by omega), Int.toNat_natCast]
  rw [fetch, hposition, Option.bind_some, Array.getElem?_eq_getElem h]

/-! ### Rows -/

def rows (width : Nat) (r : Region) : List Bytes :=
  (range ((r.size + width - 1) / width)).map fun k =>
    (r.extract (k * width) ((k + 1) * width)).toList

theorem linesBy_eq (spell : UInt8 → Bytes) (width : Nat) (r : Region) :
    linesBy spell width r = (rows width r).map fun row => row.flatMap spell ++ [Bytes.newline] := by
  rw [linesBy, rows, map_map]
  rfl

theorem flatten_take_rows (width n : Nat) (l : Bytes) :
    ((range n).map fun k => (l.drop (k * width)).take width).flatten = l.take (n * width) := by
  induction n with
  | zero => simp
  | succ n ih =>
    rw [range_succ, map_append, flatten_append, ih, map_singleton,
      flatten_singleton, Nat.succ_mul, take_add]

theorem toList_extract_row (r : Region) (k width : Nat) :
    (r.extract (k * width) ((k + 1) * width)).toList = (r.toList.drop (k * width)).take width := by
  rw [Array.toList_extract, extract_eq_take_drop, Nat.succ_mul, Nat.add_sub_cancel_left]

theorem flatten_rows (hw : 0 < width) (r : Region) : (rows width r).flatten = r.toList := by
  have hsize : r.toList.length ≤ (r.size + width - 1) / width * width := by
    have hdiv := Nat.div_add_mod (r.size + width - 1) width
    have hmod := Nat.mod_lt (r.size + width - 1) hw
    rw [Nat.mul_comm, Array.length_toList]
    omega
  simp only [rows, toList_extract_row]
  rw [flatten_take_rows, take_of_length_le hsize]

theorem length_of_mem_rows (hw : 0 < width) (hsize : width ∣ r.size) (h : row ∈ rows width r) :
    row.length = width := by
  obtain ⟨k, hk, rfl⟩ := mem_map.mp h
  obtain ⟨n, hn⟩ := hsize
  have hcount : (r.size + width - 1) / width = n := by
    rw [hn]
    refine Nat.div_eq_of_lt_le ?_ ?_
    · rw [Nat.mul_comm]
      omega
    · rw [Nat.succ_mul, Nat.mul_comm]
      omega
  rw [hcount, mem_range] at hk
  have hle : (k + 1) * width ≤ n * width := Nat.mul_le_mul_right width hk
  rw [Nat.succ_mul] at hle
  rw [toList_extract_row, length_take, length_drop, Array.length_toList, hn,
    Nat.mul_comm width n]
  omega

/-! ### Lines of digits -/

theorem ofHex_encode (b : Bytes) : ofHex (Hex.encode b) = .ok b := by
  have hascii : (Hex.encode b).any (127 < ·) = false := by
    rw [any_eq_false]
    intro d hd
    simpa using (Hex.facts_of_isDigit d (Hex.isDigit_encode hd)).2.1
  rw [ofHex, hascii, Hex.decode?_encode]
  rfl

theorem trimRight_encode (b : Bytes) :
    (Hex.encode b ++ [Bytes.newline]).trimRight = Hex.encode b :=
  Bytes.trimRight_append_newline fun d hd => (Hex.facts_of_isDigit d (Hex.isDigit_encode hd)).1

def IsDigitLine (l : Bytes) : Prop :=
  ∃ x, (∀ d ∈ x, Hex.isDigit d = true ∨ d = 32) ∧ l = x ++ [Bytes.newline]

theorem isDigitLine_of_mem_linesBy {spell : UInt8 → Bytes}
    (hspell : ∀ b, ∀ d ∈ spell b, Hex.isDigit d = true) {l : Bytes} (h : l ∈ linesBy spell width r) :
    IsDigitLine l := by
  rw [linesBy_eq] at h
  obtain ⟨row, -, rfl⟩ := mem_map.mp h
  refine ⟨row.flatMap spell, fun d hd => ?_, rfl⟩
  obtain ⟨b, -, hd⟩ := mem_flatMap.mp hd
  exact .inl (hspell b d hd)

theorem ofHexLines_hexLines (hw : 0 < width) (r : Region) : ofHexLines (hexLines width r) = .ok r := by
  have hrows : ((rows width r).map fun row => Hex.encode row ++ [Bytes.newline]).mapM
      (fun l => ofHex l.trimRight) = .ok ((rows width r).map id) := by
    refine mapM_map_eq_ok fun row _ => ?_
    rw [trimRight_encode]
    exact ofHex_encode row
  rw [map_id] at hrows
  rw [ofHexLines, hexLines, linesBy_eq]
  refine (congrArg (· >>= _) hrows).trans ?_
  exact congrArg Except.ok (congrArg toArray (flatten_rows hw r))

end Region

/-! ### Pictures -/

namespace SpriteSheet

theorem pixelDigits_eq : ∀ b : UInt8, pixelDigits b = [Hex.digit (b &&& 15), Hex.digit (b >>> 4)] :=
  forall_byte (by decide +kernel)

theorem swapPairs_pixelDigits (row rest : Bytes) :
    swapPairs row.length (row.flatMap pixelDigits ++ rest) = some (Hex.encode row ++ rest) := by
  induction row with
  | nil => rfl
  | cons b row ih =>
    have hcons : (b :: row).flatMap pixelDigits ++ rest =
        Hex.digit (b &&& 15) :: Hex.digit (b >>> 4) :: (row.flatMap pixelDigits ++ rest) := by
      rw [flatMap_cons, pixelDigits_eq]
      rfl
    rw [hcons, length_cons, swapPairs, ih]
    rfl

theorem isDigit_pixelDigits {d : UInt8} (h : d ∈ row.flatMap pixelDigits) : Hex.isDigit d = true := by
  obtain ⟨b, -, hd⟩ := mem_flatMap.mp h
  exact Hex.isDigit_pair hd

theorem length_flatMap_pixelDigits (row : Bytes) :
    (row.flatMap pixelDigits).length = 2 * row.length := by
  induction row with
  | nil => rfl
  | cons b row ih =>
    rw [flatMap_cons, length_append, ih, pixelDigits_eq, length_cons]
    simp only [length_cons, length_nil]
    omega

theorem ofLine_row (h : row.length = 64) : ofLine (row.flatMap pixelDigits ++ [Bytes.newline]) = .ok row := by
  have htrim : Bytes.trimRight (row.flatMap pixelDigits ++ [Bytes.newline]) =
      row.flatMap pixelDigits :=
    Bytes.trimRight_append_newline fun d hd =>
      (Hex.facts_of_isDigit d (isDigit_pixelDigits hd)).1
  have hswap := swapPairs_pixelDigits row []
  rw [append_nil, append_nil, h] at hswap
  rw [ofLine, htrim, hswap]
  exact Region.ofHex_encode row

theorem ofLines_lines (h : 64 ∣ sheet.size) (hothers : ∀ l ∈ others, l.length ≠ 129) :
    ofLines (lines sheet ++ others) = .ok sheet := by
  have hlength : ∀ row ∈ sheet.rows 64, row.length = 64 := fun row =>
    Region.length_of_mem_rows (by decide) h
  have hkept : (lines sheet).filter (fun l => l.length == 129) = lines sheet := by
    rw [filter_eq_self, lines, Region.linesBy_eq]
    intro l hl
    obtain ⟨row, hrow, rfl⟩ := mem_map.mp hl
    rw [length_append, length_flatMap_pixelDigits, hlength row hrow]
    rfl
  have hdropped : others.filter (fun l => l.length == 129) = [] := by
    rw [filter_eq_nil_iff]
    intro l hl
    simpa using hothers l hl
  have hrows : (lines sheet).mapM ofLine = .ok ((sheet.rows 64).map id) := by
    rw [lines, Region.linesBy_eq]
    exact mapM_map_eq_ok fun row hrow => ofLine_row (hlength row hrow)
  rw [ofLines, filter_append, hkept, hdropped, append_nil, hrows, map_id]
  exact congrArg Except.ok (congrArg toArray (Region.flatten_rows (by decide) sheet))

def wholeRows (sheet : Region) : Region := sheet.extract 0 (sheet.size / 64 * 64)

theorem size_wholeRows (sheet : Region) : (wholeRows sheet).size = sheet.size / 64 * 64 := by
  rw [wholeRows, Array.size_extract, Nat.sub_zero, Nat.min_eq_left (Nat.div_mul_le_self _ _)]

theorem wholeRows_eq (h : 64 ∣ sheet.size) : wholeRows sheet = sheet := by
  rw [wholeRows, Nat.div_mul_cancel h, Array.extract_size]

theorem exists_rows_eq (sheet : Region) :
    ∃ short, sheet.rows 64 = (wholeRows sheet).rows 64 ++ short ∧ ∀ row ∈ short, row.length < 64 := by
  by_cases h : 64 ∣ sheet.size
  · exact ⟨[], by rw [wholeRows_eq h, append_nil], fun row hrow => by cases hrow⟩
  · have hcount : (sheet.size + 64 - 1) / 64 = sheet.size / 64 + 1 := by omega
    have hwhole : ((wholeRows sheet).size + 64 - 1) / 64 = sheet.size / 64 := by
      rw [size_wholeRows]
      omega
    refine ⟨[(sheet.extract (sheet.size / 64 * 64) ((sheet.size / 64 + 1) * 64)).toList], ?_, ?_⟩
    · rw [Region.rows, Region.rows, hcount, hwhole, range_succ, map_append,
        map_singleton]
      refine congrArg (· ++ _) (map_congr_left fun k hk => ?_)
      have hlt : (k + 1) * 64 ≤ sheet.size / 64 * 64 :=
        Nat.mul_le_mul_right 64 (mem_range.mp hk)
      rw [wholeRows, Array.extract_extract, Nat.zero_add, Nat.zero_add, Nat.min_eq_left hlt]
    · intro row hrow
      rw [mem_singleton.mp hrow, Array.length_toList, Array.size_extract]
      omega

theorem ofLines_lines_wholeRows (sheet : Region) (hothers : ∀ l ∈ others, l.length ≠ 129) :
    ofLines (lines sheet ++ others) = .ok (wholeRows sheet) := by
  obtain ⟨short, hrows, hshort⟩ := exists_rows_eq sheet
  have hlines : lines sheet = lines (wholeRows sheet) ++
      short.map fun row => row.flatMap pixelDigits ++ [Bytes.newline] := by
    rw [lines, lines, Region.linesBy_eq, Region.linesBy_eq, hrows, map_append]
  rw [hlines, append_assoc]
  refine ofLines_lines (by rw [size_wholeRows]; exact Nat.dvd_mul_left _ _) fun l hl => ?_
  rcases mem_append.mp hl with hl | hl
  · obtain ⟨row, hrow, rfl⟩ := mem_map.mp hl
    have hlt := hshort row hrow
    rw [length_append, length_flatMap_pixelDigits, length_singleton]
    omega
  · exact hothers l hl

end SpriteSheet
end Cartridge
