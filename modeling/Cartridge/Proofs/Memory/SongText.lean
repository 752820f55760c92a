import Cartridge.Memory.Songs
import Cartridge.Proofs.Memory.RegionText

/-!
# Songs as text

A part of a song has a line with its marks in front and then the sound patterns of
its four channels.  The marks are the top bits of the first three channels, which
the patterns are written without, and reading puts them back.  The fourth channel
has no mark; its top bit is not written.
-/

namespace Cartridge.Songs

open List Bytes Hex

variable {k : Nat} {row : Bytes} {songs : Region}

/-! ### One part -/

def flagsOf (a b c : UInt8) : UInt8 := ((c >>> 7) <<< 2) ||| ((b >>> 7) <<< 1) ||| (a >>> 7)

def partLine : Bytes → Bytes
  | [a, b, c, d] =>
      pair (flagsOf a b c) ++ [32] ++ encode ([a, b, c, d].map (· &&& 0x7f)) ++
        [newline]
  | _ => []

def clearedPart : Bytes → Bytes
  | [a, b, c, d] => [a, b, c, d &&& 0x7f]
  | row => row

theorem exists_of_length_four (h : row.length = 4) : ∃ a b c d, row = [a, b, c, d] := by
  rcases row with _ | ⟨a, _ | ⟨b, _ | ⟨c, _ | ⟨d, _ | ⟨e, row⟩⟩⟩⟩⟩ <;> simp_all

theorem splitFrom_append {sep : UInt8} {x y : Bytes} (hx : sep ∉ x) (hy : sep ∉ y)
    (current : Bytes) :
    splitFrom sep current (x ++ sep :: y) = [current.reverse ++ x, y] := by
  have hlast : ∀ (y current : Bytes), sep ∉ y →
      splitFrom sep current y = [current.reverse ++ y] := by
    intro y
    induction y with
    | nil => intro current _; simp [splitFrom]
    | cons c y ih =>
      intro current hy
      rw [mem_cons, not_or] at hy
      rw [splitFrom, if_neg (Ne.symm hy.1), ih (c :: current) hy.2]
      simp
  induction x generalizing current with
  | nil => simp [splitFrom, hlast y [] hy]
  | cons c x ih =>
    rw [mem_cons, not_or] at hx
    rw [cons_append, splitFrom, if_neg (Ne.symm hx.1), ih hx.2 (c :: current)]
    simp

theorem top_bit (a : UInt8) : a >>> 7 = 0 ∨ a >>> 7 = 1 := by
  have hlt := a.toNat_lt
  have hshift : (a >>> 7).toNat = a.toNat / 128 := by
    rw [UInt8.toNat_shiftRight, Nat.shiftRight_eq_div_pow]
    rfl
  rw [← UInt8.toNat_inj, ← UInt8.toNat_inj, hshift, UInt8.toNat_zero, UInt8.toNat_one]
  omega

theorem remark : ∀ a : UInt8,
    (if a >>> 7 = 0 then a &&& 0x7f else (a &&& 0x7f) ||| mark) = a :=
  forall_byte (by decide +kernel)

theorem flagsOf_and (a b c : UInt8) :
    (flagsOf a b c &&& 1 = 0 ↔ a >>> 7 = 0) ∧ (flagsOf a b c &&& 2 = 0 ↔ b >>> 7 = 0) ∧
      (flagsOf a b c &&& 4 = 0 ↔ c >>> 7 = 0) := by
  unfold flagsOf
  rcases top_bit a with ha | ha <;> rcases top_bit b with hb | hb <;>
    rcases top_bit c with hc | hc <;> rw [ha, hb, hc] <;> decide

theorem ofHex_pair (c : UInt8) : Region.ofHex (pair c) = .ok [c] := Region.ofHex_encode [c]

theorem ofLine_eq (f x y z w : UInt8) :
    ofLine (pair f ++ [32] ++ encode [x, y, z, w] ++ [newline]) =
      .ok [if f &&& 1 = 0 then x else x ||| mark, if f &&& 2 = 0 then y else y ||| mark,
        if f &&& 4 = 0 then z else z ||| mark, w] := by
  have hspace : ∀ b : Bytes, 32 ∉ encode b := fun b hmem =>
    absurd (facts_of_isDigit 32 (isDigit_encode hmem)).1 (by decide)
  have hline : pair f ++ [32] ++ encode [x, y, z, w] ++ [newline] =
      encode [f] ++ 32 :: (encode [x, y, z, w] ++ [newline]) := by
    simp [encode]
  have hsplit : split 32 (encode [f] ++ 32 :: (encode [x, y, z, w] ++ [newline]))
      = [pair f, encode [x, y, z, w] ++ [newline]] := by
    rw [split, splitFrom_append (hspace _) (by simp [hspace, newline])]
    simp [encode]
  have h1 : (encode [x, y, z, w] ++ [newline]).slice 0 2 = pair x := rfl
  have h2 : (encode [x, y, z, w] ++ [newline]).slice 2 4 = pair y := rfl
  have h3 : (encode [x, y, z, w] ++ [newline]).slice 4 6 = pair z := rfl
  have h4 : (encode [x, y, z, w] ++ [newline]).slice 6 8 = pair w := rfl
  rw [hline, ofLine, hsplit]
  dsimp only
  rw [h1, h2, h3, h4]
  simp only [ofHex_pair]
  rfl

theorem ofLine_partLine (h : row.length = 4) : ofLine (partLine row) = .ok (clearedPart row) := by
  obtain ⟨a, b, c, d, rfl⟩ := exists_of_length_four h
  obtain ⟨h1, h2, h3⟩ := flagsOf_and a b c
  rw [partLine, clearedPart, map_cons, map_cons, map_cons, map_cons,
    map_nil, ofLine_eq]
  simp only [h1, h2, h3, remark]

/-! ### All parts -/

theorem row_eq (h : 4 * k + 3 < songs.size) :
    (songs.extract (k * 4) ((k + 1) * 4)).toList =
      [songs[4 * k], songs[4 * k + 1], songs[4 * k + 2], songs[4 * k + 3]] := by
  rw [Region.toList_extract_row, Nat.mul_comm k 4]
  have hcons : ∀ i, (hi : i < songs.size) →
      songs.toList.drop i = songs[i] :: songs.toList.drop (i + 1) := fun i hi =>
    drop_eq_getElem_cons (by simpa using hi)
  rw [hcons (4 * k) (by omega), hcons (4 * k + 1) (by omega), hcons (4 * k + 2) (by omega),
    hcons (4 * k + 3) h]
  rfl

theorem line_eq (h : 4 * k + 3 < songs.size) :
    line songs k = .ok (partLine (songs.extract (k * 4) ((k + 1) * 4)).toList) := by
  rw [row_eq h, line]
  simp only [Region.fetch_of_lt h, Region.fetch_of_lt (show 4 * k < songs.size by omega),
    Region.fetch_of_lt (show 4 * k + 1 < songs.size by omega),
    Region.fetch_of_lt (show 4 * k + 2 < songs.size by omega)]
  rfl

theorem lines_eq (h : 4 ∣ songs.size) : lines songs = ((songs.rows 4).map partLine, none) := by
  obtain ⟨n, hn⟩ := h
  have hcount : (songs.size + 3) / 4 = n := by omega
  rw [lines, Region.rows, hcount, map_map]
  have hcount' : (songs.size + 4 - 1) / 4 = n := by omega
  rw [hcount']
  refine linesUntil_eq fun k hk => line_eq ?_
  rw [mem_range] at hk
  omega

def cleared (songs : Region) : Region :=
  songs.mapIdx fun i b => if i % 4 = 3 then b &&& 0x7f else b

theorem mapIdx_flatten {rows : List Bytes} (h : ∀ row ∈ rows, row.length = 4) :
    rows.flatten.mapIdx (fun i b => if i % 4 = 3 then b &&& 0x7f else b) =
      (rows.map clearedPart).flatten := by
  induction rows with
  | nil => rfl
  | cons row rows ih =>
    have hrow := h row mem_cons_self
    have hshift : (fun i (b : UInt8) => if (i + row.length) % 4 = 3 then b &&& 0x7f else b) =
        fun i b => if i % 4 = 3 then b &&& 0x7f else b := by
      funext i b
      rw [hrow, Nat.add_mod_right]
    obtain ⟨a, b, c, d, rfl⟩ := exists_of_length_four hrow
    rw [flatten_cons, mapIdx_append, hshift, ih fun r hr => h r (mem_cons_of_mem _ hr)]
    rfl

theorem flatten_cleared (h : 4 ∣ songs.size) :
    ((songs.rows 4).map clearedPart).flatten = (cleared songs).toList := by
  rw [← mapIdx_flatten fun row => Region.length_of_mem_rows (by decide) h,
    Region.flatten_rows (by decide), cleared, Array.toList_mapIdx]

theorem ofLines_lines (h : 4 ∣ songs.size) {others : List Bytes} (hothers : ∀ l ∈ others, 32 ∉ l) :
    ofLines ((lines songs).1 ++ others) = .ok (cleared songs) := by
  have hlength : ∀ row ∈ songs.rows 4, row.length = 4 := fun row =>
    Region.length_of_mem_rows (by decide) h
  have hkept : ((songs.rows 4).map partLine).filter (fun l => l.contains 32) =
      (songs.rows 4).map partLine := by
    rw [filter_eq_self]
    intro l hl
    obtain ⟨row, hrow, rfl⟩ := mem_map.mp hl
    obtain ⟨a, b, c, d, rfl⟩ := exists_of_length_four (hlength row hrow)
    simp [partLine]
  have hdropped : others.filter (fun l => l.contains 32) = [] := by
    rw [filter_eq_nil_iff]
    intro l hl
    simpa using hothers l hl
  have hrows : ((songs.rows 4).map partLine).mapM ofLine = .ok ((songs.rows 4).map clearedPart) :=
    mapM_map_eq_ok fun row hrow => ofLine_partLine (hlength row hrow)
  rw [lines_eq h, ofLines, filter_append, hkept, hdropped, append_nil, hrows]
  exact congrArg Except.ok (congrArg toArray (flatten_cleared h))

theorem size_cleared (songs : Region) : (cleared songs).size = songs.size := Array.size_mapIdx

theorem lines_cleared (h : 4 ∣ songs.size) : lines (cleared songs) = lines songs := by
  have hsize := size_cleared songs
  rw [lines_eq h, lines_eq (by rw [hsize]; exact h), Region.rows, Region.rows, hsize, map_map,
    map_map]
  refine congrArg (·, none) (map_congr_left fun k hk => ?_)
  have hlt : 4 * k + 3 < songs.size := by
    obtain ⟨n, hn⟩ := h
    rw [mem_range] at hk
    omega
  have hand : ∀ d : UInt8, (d &&& 0x7f) &&& 0x7f = d &&& 0x7f := fun d => UInt8.and_assoc d _ _
  have h0 : 4 * k % 4 = 0 := by omega
  have h1 : (4 * k + 1) % 4 = 1 := by omega
  have h2 : (4 * k + 2) % 4 = 2 := by omega
  have h3 : (4 * k + 3) % 4 = 3 := by omega
  simp only [Function.comp_apply]
  rw [row_eq hlt, row_eq (hsize.symm ▸ hlt)]
  simp [cleared, partLine, h0, h1, h2, h3, hand]

theorem isDigitLine_of_mem_lines (h : 4 ∣ songs.size) {l : Bytes} (hl : l ∈ (lines songs).1) :
    Region.IsDigitLine l := by
  rw [lines_eq h] at hl
  obtain ⟨row, hrow, rfl⟩ := mem_map.mp hl
  obtain ⟨a, b, c, d, rfl⟩ :=
    exists_of_length_four (Region.length_of_mem_rows (by decide) h hrow)
  refine ⟨pair (flagsOf a b c) ++ [32] ++ encode ([a, b, c, d].map (· &&& 0x7f)), ?_, rfl⟩
  intro e he
  rw [mem_append, mem_append, mem_singleton] at he
  rcases he with (he | he) | he
  · exact .inl (isDigit_pair he)
  · exact .inr he
  · exact .inl (isDigit_encode he)

end Cartridge.Songs
