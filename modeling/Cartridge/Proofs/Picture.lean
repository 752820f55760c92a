import Cartridge.Picture
import Cartridge.Proofs.Memory.RegionSizes

/-!
# Bytes put into a picture come out again

A byte is put into the low two bits of the four planes of a pixel, and the pixel holds that byte
afterwards.  A pixel that gets no byte holds what it held.  Pixels are counted through the rows; so the
bytes that a picture holds are those put in, followed by those it held from there on.
-/

namespace Cartridge.Picture

open List

variable {col i k n : Nat} {data row : Array UInt8}

/-! ### One pixel -/

def byteOf (r g b a : UInt8) : UInt8 := low b ||| low g <<< 2 ||| low r <<< 4 ||| low a <<< 6

theorem low_withLow (plane bits : UInt8) : low (withLow plane bits) = low bits := by
  have hhigh : (0xfc : UInt8).toNat &&& (3 : UInt8).toNat = 0 := rfl
  have hlow : (3 : UInt8).toNat &&& (3 : UInt8).toNat = (3 : UInt8).toNat := rfl
  rw [← UInt8.toNat_inj, withLow, low, low, UInt8.toNat_and, UInt8.toNat_or, UInt8.toNat_and,
    UInt8.toNat_and, Nat.and_or_distrib_right, Nat.and_assoc, Nat.and_assoc, hhigh, hlow,
    Nat.and_zero, Nat.zero_or]

theorem byteOf_shifted : ∀ b : UInt8, byteOf (b >>> 4) (b >>> 2) b (b >>> 6) = b :=
  forall_byte (by decide +kernel)

theorem byteOf_withLow (r g b a byte : UInt8) :
    byteOf (withLow r (byte >>> 4)) (withLow g (byte >>> 2)) (withLow b byte)
      (withLow a (byte >>> 6)) = byte := by
  simp only [byteOf, low_withLow]
  exact byteOf_shifted byte

/-! ### Rows -/

/-- The byte in the pixel that starts at a position of a row, planes that are not there taken as
zero. -/
def byteAt (row : Array UInt8) (i : Nat) : UInt8 :=
  byteOf (row.getD i 0) (row.getD (i + 1) 0) (row.getD (i + 2) 0) (row.getD (i + 3) 0)

def rowBytes (planes width : Nat) (row : Array UInt8) : Bytes :=
  (range width).map fun col => byteAt row (col * planes)

theorem hidden_eq (h : i + 3 < row.size) : hidden row i = .ok (byteAt row i) := by
  have hget : ∀ k, k < row.size → row[k]? = some (row.getD k 0) := by
    intro k hk
    simp [hk]
  rw [hidden, hget i (by omega), hget (i + 1) (by omega), hget (i + 2) (by omega), hget (i + 3) h]
  rfl

section Rows

variable {planes width : Nat} (hplanes : 4 ≤ planes)
include hplanes

theorem pixel_lt (hcol : col < width) : col * planes + 3 < width * planes := by
  have hle : (col + 1) * planes ≤ width * planes := Nat.mul_le_mul_right planes hcol
  rw [Nat.succ_mul] at hle
  omega

theorem revealRow_eq (hrow : row.size = width * planes) :
    revealRow planes width row = .ok (rowBytes planes width row) := by
  refine mapM_eq_ok fun col hcol => hidden_eq ?_
  rw [hrow]
  exact pixel_lt hplanes (mem_range.mp hcol)

theorem length_pixel (row : Array UInt8) (i : Nat) (byte : Option UInt8) :
    (pixel planes row i byte).length = planes := by
  cases byte <;> simp [pixel] <;> omega

omit hplanes in
theorem length_flatMap_range {α : Type} {f : Nat → List α} (hf : ∀ c, (f c).length = n) (count : Nat) :
    ((range count).flatMap f).length = count * n := by
  rw [length_flatMap, map_congr_left fun c _ => hf c, map_const', length_range,
    sum_replicate_nat]

omit hplanes in
theorem getElem?_flatMap_range {α : Type} {f : Nat → List α} (hf : ∀ c, (f c).length = n)
    {count c j : Nat} (hc : c < count) (hj : j < n) :
    ((range count).flatMap f)[c * n + j]? = (f c)[j]? := by
  have hlen := length_flatMap_range hf
  induction count with
  | zero => omega
  | succ count ih =>
    rw [range_succ, flatMap_append, flatMap_singleton]
    by_cases hlast : c = count
    · subst hlast
      rw [getElem?_append_right (by rw [hlen]; omega), hlen, Nat.add_sub_cancel_left]
    · have hlt : c * n + j < count * n := by
        have hle : (c + 1) * n ≤ count * n := Nat.mul_le_mul_right n (by omega)
        rw [Nat.succ_mul] at hle
        omega
      rw [getElem?_append_left (by rw [hlen]; exact hlt)]
      exact ih (by omega)

theorem byteAt_pixels (row : Array UInt8) (byte : Nat → Option UInt8) (hcol : col < width) :
    byteAt ((range width).flatMap fun c => pixel planes row (c * planes) (byte c)).toArray
        (col * planes) = (byte col).getD (byteAt row (col * planes)) := by
  have hget : ∀ j, j < 4 → ((range width).flatMap
      fun c => pixel planes row (c * planes) (byte c)).toArray.getD (col * planes + j) 0 =
        (pixel planes row (col * planes) (byte col)).getD j 0 := by
    intro j hj
    have hflat := getElem?_flatMap_range (f := fun c => pixel planes row (c * planes) (byte c))
      (fun c => length_pixel hplanes row _ _) hcol (by omega : j < planes)
    rw [Array.getD_eq_getD_getElem?, getElem?_toArray, hflat, getD_eq_getElem?_getD]
  rw [byteAt, ← Nat.add_zero (col * planes), hget 0 (by omega), Nat.add_zero, hget 1 (by omega),
    hget 2 (by omega), hget 3 (by omega)]
  cases byte col with
  | none => rfl
  | some b => exact byteOf_withLow _ _ _ _ b

theorem hideRow_eq (hrow : row.size = width * planes) (data : Array UInt8) (k : Nat) :
    ∃ new, hideRow data planes row k = .ok new ∧ new.length = width * planes ∧
      rowBytes planes width new.toArray =
        (rowBytes planes width row).mapIdx fun col b => (data[k * width + col]?).getD b := by
  have hwidth : row.size / planes = width := by
    rw [hrow, Nat.mul_div_cancel width (by omega)]
  have hlength : ((range width).flatMap fun col =>
      pixel planes row (col * planes) (data[k * width + col]?)).length = width * planes :=
    length_flatMap_range (fun c => length_pixel hplanes row _ _) width
  refine ⟨_, ?_, hlength, ?_⟩
  · rw [hideRow, hwidth, if_neg (by omega), if_neg (by omega)]
  · refine ext_getElem (by simp [rowBytes]) fun col hcol _ => ?_
    have hlt : col < width := by simpa [rowBytes] using hcol
    simp only [rowBytes, getElem_map, getElem_range, getElem_mapIdx]
    exact byteAt_pixels hplanes row (fun c => data[k * width + c]?) hlt

end Rows

/-! ### Pictures -/

def Sized (planes width : Nat) (rows : List (Array UInt8)) : Prop :=
  ∀ row ∈ rows, row.size = width * planes

section Pictures

variable {planes width : Nat} {rows : List (Array UInt8)}

theorem length_rowBytes (row : Array UInt8) : (rowBytes planes width row).length = width := by
  simp [rowBytes]

theorem length_flatMap_rowBytes (rows : List (Array UInt8)) :
    (rows.flatMap (rowBytes planes width)).length = width * rows.length := by
  induction rows with
  | nil => simp
  | cons row rows ih =>
    rw [flatMap_cons, length_append, length_rowBytes, ih, length_cons, Nat.mul_succ,
      Nat.add_comm]

theorem reveal_eq (hplanes : 4 ≤ planes) (hrows : Sized planes width rows) :
    reveal planes width rows.length rows = .ok (rows.flatMap (rowBytes planes width)) := by
  have hmap : rows.mapM (revealRow planes width) = .ok (rows.map (rowBytes planes width)) :=
    mapM_eq_ok fun row hrow => revealRow_eq hplanes (hrows row hrow)
  rw [reveal, if_neg (by omega), hmap]
  show Except.ok ((rows.map (rowBytes planes width)).flatten ++ replicate
    (width * rows.length - (rows.map (rowBytes planes width)).flatten.length) 0) = _
  rw [← flatMap_def, length_flatMap_rowBytes, Nat.sub_self, replicate_zero,
    append_nil]

theorem hideFrom_eq (hplanes : 4 ≤ planes) (data : Array UInt8) (hrows : Sized planes width rows)
    (k : Nat) :
    ∃ new, hideFrom data planes k rows = .ok new ∧ new.length = rows.length ∧
      Sized planes width (new.map toArray) ∧
      (new.map toArray).flatMap (rowBytes planes width) =
        (rows.flatMap (rowBytes planes width)).mapIdx
          fun i b => (data[k * width + i]?).getD b := by
  induction rows generalizing k with
  | nil => exact ⟨[], rfl, rfl, nofun, rfl⟩
  | cons row rows ih =>
    obtain ⟨first, hfirst, hlength, hbytes⟩ :=
      hideRow_eq hplanes (hrows row mem_cons_self) data k
    obtain ⟨rest, hrest, hcount, hsized, hmore⟩ :=
      ih (fun r hr => hrows r (mem_cons_of_mem row hr)) (k + 1)
    refine ⟨first :: rest, ?_, by simp [hcount], ?_, ?_⟩
    · rw [hideFrom, hfirst, hrest]
      rfl
    · intro r hr
      rcases mem_cons.mp hr with rfl | hr
      · exact hlength
      · exact hsized r hr
    · -- behind the first row the index is `width` further on
      have hindex : ∀ i, (k + 1) * width + i = k * width + (width + i) := by
        intro i
        rw [Nat.succ_mul, Nat.add_assoc]
      rw [map_cons, flatMap_cons, flatMap_cons, hbytes, hmore, mapIdx_append,
        length_rowBytes]
      simp only [hindex, Nat.add_comm width]

theorem mapIdx_getD_eq_overlay (data old : Array UInt8) :
    old.toList.mapIdx (fun i b => (data[i]?).getD b) = (overlay data old).toList := by
  refine ext_getElem? fun i => ?_
  rw [overlay, Array.toList_append, Array.toList_extract, Array.toList_extract,
    extract_eq_take_drop, extract_eq_take_drop, drop_zero, Nat.sub_zero,
    getElem?_mapIdx, Array.getElem?_toList]
  by_cases hdata : i < data.size
  · by_cases hold : i < old.size
    · rw [getElem?_append_left (by simp; omega), getElem?_take_of_lt hold]
      simp [hdata, hold]
    · rw [Array.getElem?_eq_none (by omega : old.size ≤ i), getElem?_eq_none]
      · rfl
      · simp
        omega
  · rw [Array.getElem?_eq_none (by omega : data.size ≤ i), getElem?_append]
    by_cases hold : i < old.size
    · rw [if_neg (by simp; omega), getElem?_take_of_lt (by simp; omega), getElem?_drop]
      have hindex : data.size + (i - (data.toList.take old.size).length) = i := by
        simp
        omega
      rw [hindex, Array.getElem?_toList]
      cases old[i]? <;> rfl
    · rw [Array.getElem?_eq_none (by omega), if_neg (by simp; omega), getElem?_eq_none]
      · rfl
      · simp
        omega

theorem reveal_hide (hplanes : 4 ≤ planes) (hrows : Sized planes width rows) (data : Array UInt8) :
    ∃ new old, hide data planes rows = .ok new ∧ Sized planes width (new.map toArray) ∧
      new.length = rows.length ∧ reveal planes width rows.length rows = .ok old ∧
      old.length = width * rows.length ∧
      reveal planes width rows.length (new.map toArray) = .ok (overlay data old.toArray).toList := by
  obtain ⟨new, hnew, hcount, hsized, hbytes⟩ := hideFrom_eq hplanes data hrows 0
  refine ⟨new, _, hnew, hsized, hcount, reveal_eq hplanes hrows, length_flatMap_rowBytes rows, ?_⟩
  have hlength : (new.map toArray).length = rows.length := by simp [hcount]
  rw [← hlength, reveal_eq hplanes hsized, hbytes, ← mapIdx_getD_eq_overlay]
  simp

theorem exists_hideRow {new : List (List UInt8)} (h : hideFrom data planes k rows = .ok new)
    (hrow : rows[i]? = some row) :
    ∃ row', new[i]? = some row' ∧ hideRow data planes row (k + i) = .ok row' := by
  induction rows generalizing k new i with
  | nil => cases hrow
  | cons first rows ih =>
    rw [hideFrom] at h
    obtain ⟨first', hfirst, h⟩ := exists_of_bind_eq_ok h
    obtain ⟨rest, hrest, h⟩ := exists_of_bind_eq_ok h
    cases h
    cases i with
    | zero =>
      cases hrow
      exact ⟨first', rfl, hfirst⟩
    | succ i =>
      obtain ⟨row', hrow', heq⟩ := ih hrest hrow
      exact ⟨row', hrow', by rw [← heq, Nat.add_assoc, Nat.add_comm 1 i]⟩

end Pictures

/-! ### What is left of a picture -/

/-- Of a row of pixels with four planes, the first of which has the index `first`, no more has changed
than the low two bits of the pixels before the index `count`. -/
structure Retouched (first count : Nat) (row : Array UInt8) (new : List UInt8) : Prop where
  length_eq : new.length = row.size
  high_eq : ∀ (j : Nat) (b b' : UInt8), row[j]? = some b → new[j]? = some b' → b' &&& 0xfc = b &&& 0xfc
  plane_eq : ∀ j : Nat, count ≤ first + j / 4 → new[j]? = row[j]?

theorem withLow_and_high (plane bits : UInt8) : withLow plane bits &&& 0xfc = plane &&& 0xfc := by
  have hlow : (3 : UInt8).toNat &&& (0xfc : UInt8).toNat = 0 := rfl
  have hhigh : (0xfc : UInt8).toNat &&& (0xfc : UInt8).toNat = (0xfc : UInt8).toNat := rfl
  rw [← UInt8.toNat_inj, withLow, low, UInt8.toNat_and, UInt8.toNat_or, UInt8.toNat_and,
    UInt8.toNat_and, Nat.and_or_distrib_right, Nat.and_assoc, Nat.and_assoc, hhigh, hlow,
    Nat.and_zero, Nat.or_zero]

theorem pixel_plane (row : Array UInt8) (i : Nat) {j : Nat} (hj : j < 4) (byte : Option UInt8) :
    ∃ b', (pixel 4 row i byte)[j]? = some b' ∧ b' &&& 0xfc = row.getD (i + j) 0 &&& 0xfc ∧
      (byte = none → b' = row.getD (i + j) 0) := by
  have hplane : j = 0 ∨ j = 1 ∨ j = 2 ∨ j = 3 := by omega
  cases byte with
  | none => rcases hplane with rfl | rfl | rfl | rfl <;> exact ⟨_, rfl, rfl, fun _ => rfl⟩
  | some b =>
    rcases hplane with rfl | rfl | rfl | rfl <;> exact ⟨_, rfl, withLow_and_high _ _, nofun⟩

theorem retouched_of_hideRow {width : Nat}
    {new : List UInt8} (hrow : row.size = width * 4) (h : hideRow data 4 row k = .ok new) :
    Retouched (k * width) data.size row new := by
  have hwidth : row.size / 4 = width := by omega
  rw [hideRow, hwidth, if_neg (by omega), if_neg (by omega)] at h
  cases h
  have hlength : ((range width).flatMap fun col =>
      pixel 4 row (col * 4) (data[k * width + col]?)).length = row.size := by
    rw [length_flatMap_range (fun c => length_pixel (Nat.le_refl 4) row _ _), hrow]
  -- the plane `j` is the plane `j % 4` of the pixel `j / 4`
  have hplane : ∀ j, j < row.size → ∃ b', ((range width).flatMap fun col =>
      pixel 4 row (col * 4) (data[k * width + col]?))[j]? = some b' ∧
        b' &&& 0xfc = row.getD j 0 &&& 0xfc ∧
        (data[k * width + j / 4]? = none → b' = row.getD j 0) := by
    intro j hj
    have hmod : j % 4 < 4 := Nat.mod_lt j (by decide)
    have hindex : j / 4 * 4 + j % 4 = j := by omega
    obtain ⟨b', hb', hplane⟩ := pixel_plane row (j / 4 * 4) hmod (data[k * width + j / 4]?)
    have hget := getElem?_flatMap_range (f := fun c => pixel 4 row (c * 4) (data[k * width + c]?))
      (fun c => length_pixel (Nat.le_refl 4) row _ _) (by omega : j / 4 < width) hmod
    rw [hindex] at hplane hget
    exact ⟨b', hget.trans hb', hplane⟩
  refine ⟨hlength, fun j b b' hb hb' => ?_, fun j hj => ?_⟩
  · obtain ⟨hlt, hb⟩ := Array.getElem?_eq_some_iff.mp hb
    obtain ⟨c, hc, hhigh, -⟩ := hplane j hlt
    rw [hb'] at hc
    cases hc
    rw [hhigh, ← hb]
    simp [hlt]
  · by_cases hlt : j < row.size
    · obtain ⟨c, hc, -, hsame⟩ := hplane j hlt
      rw [hc, hsame (Array.getElem?_eq_none (by omega))]
      simp [hlt]
    · rw [getElem?_eq_none (by omega), Array.getElem?_eq_none (by omega)]

theorem overlay_of_le {old : Array UInt8} (h : data.size ≤ old.size) :
    (overlay data old).toList = data.toList ++ old.toList.drop data.size := by
  rw [overlay, Array.toList_append, Array.toList_extract, Array.toList_extract,
    extract_eq_take_drop, extract_eq_take_drop, drop_zero, Nat.sub_zero,
    take_of_length_le (by simpa using h), take_of_length_le (by simp)]

/-- **Bytes put into a picture come out again, and nothing else changes**: behind them comes what the
picture held, it has the rows that it had, and each row is retouched only. -/
theorem reveal_hide_retouched {width : Nat} {rows : List (Array UInt8)} (hrows : Sized 4 width rows)
    {data : Array UInt8} (hdata : data.size ≤ width * rows.length) :
    ∃ new old, hide data 4 rows = .ok new ∧ reveal 4 width rows.length rows = .ok old ∧
      reveal 4 width rows.length (new.map List.toArray) = .ok (data.toList ++ old.drop data.size) ∧
      new.length = rows.length ∧
      ∀ k row, rows[k]? = some row →
        ∃ row', new[k]? = some row' ∧ Retouched (k * width) data.size row row' := by
  obtain ⟨new, old, hnew, -, hlength, hold, hsize, hreveal⟩ := reveal_hide (Nat.le_refl 4) hrows data
  refine ⟨new, old, hnew, hold, ?_, hlength, fun k row hrow => ?_⟩
  · rw [hreveal, overlay_of_le (by simpa [hsize] using hdata)]
  · obtain ⟨row', hrow', hhide⟩ := exists_hideRow hnew hrow
    rw [Nat.zero_add] at hhide
    exact ⟨row', hrow', retouched_of_hideRow (hrows row (List.mem_of_getElem? hrow)) hhide⟩

/-- Three bytes in a picture of two rows of two pixels. -/
theorem reveal_hide_retouched_square :
    Sized 4 2 [#[1, 2, 3, 4, 5, 6, 7, 8], #[9, 10, 11, 12, 13, 14, 15, 16]] ∧
      ∃ new, hide #[255, 27, 128] 4 [#[1, 2, 3, 4, 5, 6, 7, 8], #[9, 10, 11, 12, 13, 14, 15, 16]] = .ok new ∧
        reveal 4 2 2 (new.map List.toArray) = .ok [255, 27, 128, 27] ∧
        ∃ row', new[1]? = some row' ∧ Retouched 2 3 #[9, 10, 11, 12, 13, 14, 15, 16] row' := by
  have hsized : Sized 4 2 [#[1, 2, 3, 4, 5, 6, 7, 8], #[9, 10, 11, 12, 13, 14, 15, 16]] := by
    simp [Sized]
  have hsize : (#[255, 27, 128] : Array UInt8).size ≤ 2 * 2 := by decide
  obtain ⟨new, old, hnew, hold, hreveal, -, hretouched⟩ := reveal_hide_retouched hsized hsize
  have hheld : old = [27, 27, 27, 27] := by
    cases hold
    decide
  subst hheld
  exact ⟨hsized, new, hnew, hreveal, hretouched 1 _ rfl⟩

end Cartridge.Picture
