import Cartridge.Proofs.Memory.SpritePixels

/-!
# The cells of a map

The cells of a map are numbered through its rows.  The upper ones have bytes of their own; those of the lower
half are the bytes of the sprite sheet with the same numbers.  Putting a rectangle of tiles on the map leaves
out what is right of it, but what is below it, down to row 127, is a failure.  By then all cells of the map
have their tiles.
-/

namespace Cartridge.TileMap

open List

variable {c : Bool} {height width x y : Nat}

variable {m : TileMap} {sheet : Region}

structure Whole (m : TileMap) (sheet : Region) : Prop where
  size_upper : m.upper.size = 4096
  sheet_eq : m.sheet = some sheet
  size_sheet : sheet.size = 8192

def tileAt (m : TileMap) (n : Nat) : UInt8 :=
  if n < 4096 then m.upper.getD n 0 else (m.sheet.getD #[]).getD n 0

theorem demand_ok (hc : c = true) : (demand c : Except Failure Unit) = .ok () := by
  subst hc
  rfl

theorem Whole.cell_eq (h : m.Whole sheet) (hx : x < 128) (hy : y < 64) :
    m.cell x y = .ok (m.tileAt (128 * y + x)) := by
  have hcell : m.hasCell x y = true := by
    simp [hasCell, h.sheet_eq]
    omega
  have hsize := h.size_upper
  have hsheet := h.size_sheet
  rw [cell, demand_ok hcell, tileAt]
  by_cases hupper : y ≤ 31
  · have hlt : 128 * y + x < m.upper.size := by omega
    have hat : (y : Int) * 128 + x = (128 * y + x : Nat) := by omega
    show (if (y : Int) ≤ 31 then _ else _) = _
    rw [if_pos (by omega), if_pos (by omega), hat, Region.fetch_of_lt hlt]
    simp [hlt]
  · have hlt : 128 * y + x < sheet.size := by omega
    have hat : sheetPosition x y = (128 * y + x : Nat) := by
      rw [sheetPosition]
      omega
    show (if (y : Int) ≤ 31 then _ else _) = _
    rw [if_neg (by omega), if_neg (by omega), hat, h.sheet_eq, Option.getD_some, Region.fetch_of_lt hlt]
    simp [hlt]

/-! ### Putting tiles on the map -/

def board (front : Region) : Board TileMap where
  IsBoard m := ∃ sheet, m.Whole sheet ∧ ∀ i < 4096, sheet[i]? = front[i]?
  cell := tileAt
  size := 8192
  failure := .unmetCondition

theorem run_demand_true (hc : c = true) (m : TileMap) : (demand c : Edit Unit).run m = .ok () m := by
  rw [hc]
  rfl

theorem run_setCell (h : m.Whole sheet) (hx : x ≤ 127) (hy : y ≤ 63) (b : UInt8) :
    (setCell x y (b.toNat : Int)).run m = .ok () (if y ≤ 31 then
      { m with upper := m.upper.setIfInBounds (128 * y + x) b }
    else { m with sheet := some (sheet.setIfInBounds (128 * y + x) b) }) := by
  have hcell : m.hasCell x y = true := by
    simp [hasCell, h.sheet_eq]
    omega
  have hb := b.toNat_lt
  have hsize := h.size_upper
  have hsheet := h.size_sheet
  rw [setCell, EStateM.run_bind, EStateM.run_get]
  dsimp only
  rw [EStateM.run_bind, run_demand_true hcell]
  dsimp only
  rw [EStateM.run_bind, run_demand_true (by simp; omega)]
  dsimp only
  by_cases hupper : y ≤ 31
  · have hat : (y : Int) * 128 + x = (128 * y + x : Nat) := by omega
    rw [if_pos hupper, if_pos (by omega), hat, EStateM.run, onUpper,
      Region.run_store m.upper (by omega : 128 * y + x < m.upper.size)]
  · have hat : sheetPosition x y = (128 * y + x : Nat) := by
      rw [sheetPosition]
      omega
    rw [if_neg hupper, if_neg (by omega), hat, EStateM.run, onSheet, h.sheet_eq]
    dsimp only
    rw [Region.run_store sheet (by omega : 128 * y + x < sheet.size)]

theorem run_setCell_below (m : TileMap) (hy : 63 < y) (t : Int) :
    (setCell x y t).run m = .error .unmetCondition m := by
  have hcell : m.hasCell x y = false := by
    simp [hasCell]
    omega
  rw [setCell, EStateM.run_bind, EStateM.run_get]
  dsimp only
  rw [EStateM.run_bind, hcell]
  rfl

theorem writes_setCell (front : Region) (x y : Nat) (t : Int) (ht : 0 ≤ t ∧ t ≤ 255) :
    (board front).Writes (128 * y + x)
      (if 127 < (y : Int) ∨ 127 < (x : Int) then pure () else setCell x y t) fun n =>
        if n = 128 * y + x ∧ x ≤ 127 ∧ y ≤ 127 then some t.toNat.toUInt8 else none := by
  by_cases hskip : 127 < (y : Int) ∨ 127 < (x : Int)
  · have hnone : ∀ n, (if n = 128 * y + x ∧ x ≤ 127 ∧ y ≤ 127 then some t.toNat.toUInt8 else none) = none :=
      fun n => if_neg (by omega)
    simp only [hnone]
    rw [if_pos hskip]
    exact (board front).writes_pure _
  have hin : x ≤ 127 ∧ y ≤ 127 := by omega
  obtain ⟨b, rfl⟩ : ∃ b : UInt8, t = (b.toNat : Int) := Region.exists_byte ht (by decide)
  rw [if_neg hskip]
  simp only [hin, and_true, Int.toNat_natCast, Nat.toUInt8, UInt8.ofNat_toNat]
  refine Board.writes_one (fun hlt m ⟨sheet, hm, hfront⟩ => ?_) fun hle m _ => ?_
  · have hlt : 128 * y + x < 8192 := hlt
    have hsize := hm.size_upper
    have hsheet := hm.size_sheet
    refine ⟨_, run_setCell hm hin.1 (by omega) b, ?_⟩
    by_cases hupper : y ≤ 31
    · rw [if_pos hupper]
      refine ⟨⟨sheet, ⟨by simpa using hsize, hm.sheet_eq, hsheet⟩, hfront⟩, fun k _ => ?_⟩
      show tileAt _ k = if k = 128 * y + x then b else tileAt m k
      rw [tileAt, tileAt, Region.getD_setIfInBounds (by omega)]
      by_cases hk : k < 4096
      · rw [if_pos hk, if_pos hk]
      · rw [if_neg hk, if_neg hk, if_neg (by omega)]
    · rw [if_neg hupper]
      refine ⟨⟨_, ⟨hsize, rfl, by simpa using hsheet⟩, fun i hi => ?_⟩, fun k _ => ?_⟩
      · rw [Array.getElem?_setIfInBounds_ne (by omega)]
        exact hfront i hi
      · show tileAt _ k = if k = 128 * y + x then b else tileAt m k
        rw [tileAt, tileAt, hm.sheet_eq, Option.getD_some, Option.getD_some,
          Region.getD_setIfInBounds (by omega)]
        by_cases hk : k < 4096
        · rw [if_pos hk, if_pos hk, if_neg (by omega)]
        · rw [if_neg hk, if_neg hk]
  · have hle : 8192 ≤ 128 * y + x := hle
    exact run_setCell_below m (by omega) _

def scribe (front : Region) : Scribe (board front) where
  step x y t := if 127 < y ∨ 127 < x then pure () else setCell x y t
  row := setRow
  rows := setTiles
  code t := some t.toNat.toUInt8
  Fits t := 0 ≤ t ∧ t ≤ 255
  lastColumn := 127
  lastRow := 127
  lastColumn_le := by decide
  writes_step := writes_setCell front
  row_nil _ _ := rfl
  row_cons x y t ts := by
    rw [setRow]
    split <;> rfl
  rows_nil _ _ := rfl
  rows_cons _ _ _ _ := rfl

/-- **What putting a rectangle of tiles on the map comes to.**  Every cell that the rectangle covers has its
tile from there, every other one has the tile that it had, and the first half of the sheet stays.  It fails
exactly if the rectangle has a tile below the map, in one of its columns and above row 128. -/
theorem setTiles_outcome (hm : m.Whole sheet) {rect : List (List Int)}
    (hrect : ∀ row ∈ rect, ∀ t ∈ row, 0 ≤ t ∧ t ≤ 255) (x y : Nat) :
    let below := ∃ cx cy t, valueAt x y rect cx cy = some t ∧ cx ≤ 127 ∧ 64 ≤ cy ∧ cy ≤ 127
    ∃ m' sheet', m'.Whole sheet' ∧ (∀ i < 4096, sheet'[i]? = sheet[i]?) ∧
      (∀ cx : Nat, cx < 128 → ∀ cy : Nat, cy < 64 → ∃ old, m.cell cx cy = .ok old ∧ m'.cell cx cy =
        .ok (((valueAt x y rect cx cy).map fun t => t.toNat.toUInt8).getD old)) ∧
      (¬below ∧ (setTiles x y rect).run m = .ok () m' ∨
        below ∧ (setTiles x y rect).run m = .error .unmetCondition m') := by
  intro below
  obtain ⟨m', ⟨sheet', hm', hfront⟩, hcell, hend⟩ :=
    (scribe sheet).exists_outcome hrect x y (a := m) ⟨sheet, hm, fun _ _ => rfl⟩
  have hplaced : ∀ cx cy, cx ≤ 127 → cy ≤ 127 → (scribe sheet).placed x y rect cx cy =
      (valueAt x y rect cx cy).map fun t => t.toNat.toUInt8 := by
    intro cx cy hx hy
    rw [Scribe.placed, if_pos ⟨hx, hy⟩, Option.map_eq_bind]
    rfl
  have hbelow : (∃ cx cy v, (scribe sheet).placed x y rect cx cy = some v ∧ 8192 ≤ 128 * cy + cx) ↔
      below := by
    constructor
    · rintro ⟨cx, cy, v, hv, hle⟩
      obtain ⟨⟨hx, hy⟩, -⟩ := (scribe sheet).placed_eq_some_iff.mp hv
      have hx : cx ≤ 127 := hx
      have hy : cy ≤ 127 := hy
      rw [hplaced cx cy hx hy] at hv
      obtain ⟨t, ht, -⟩ := Option.map_eq_some_iff.mp hv
      exact ⟨cx, cy, t, ht, hx, by omega, hy⟩
    · rintro ⟨cx, cy, t, ht, hx, hle, hy⟩
      exact ⟨cx, cy, _, by rw [hplaced cx cy hx hy, ht]; rfl, by omega⟩
  refine ⟨m', sheet', hm', hfront, fun cx hx cy hy => ⟨_, hm.cell_eq hx hy, ?_⟩, ?_⟩
  · -- no value is written a column too far
    have hfar : (scribe sheet).placed x y rect 128 (cy - 1) = none :=
      if_neg fun h => absurd (show 128 ≤ 127 from h.1) (by decide)
    have htile := hcell (128 * cy + cx) (show 128 * cy + cx < 8192 by omega)
    rw [(scribe sheet).written_place rect hx, hfar, ite_self, Option.or_none, hplaced cx cy (by omega) (by omega)] at htile
    rw [hm'.cell_eq hx hy]
    exact congrArg Except.ok htile
  · rw [← hbelow]
    exact hend

def empty : TileMap := { upper := blank, sheet := some SpriteSheet.blank }

theorem whole_empty : empty.Whole SpriteSheet.blank := ⟨Array.size_replicate, rfl, Array.size_replicate⟩

theorem setTiles_outcome_edge :
    empty.Whole SpriteSheet.blank ∧ (∀ row ∈ [[1, 2, 3], [4]], ∀ t ∈ row, (0 : Int) ≤ t ∧ t ≤ 255) ∧
      ∃ m', m'.cell 127 31 = .ok 2 ∧ m'.cell 126 32 = .ok 4 ∧
        (setTiles (126 : Nat) (31 : Nat) [[1, 2, 3], [4]]).run empty = .ok () m' := by
  have hrect : ∀ row ∈ [[1, 2, 3], [4]], ∀ t ∈ row, (0 : Int) ≤ t ∧ t ≤ 255 := by decide
  obtain ⟨m', _, -, -, hcell, hend⟩ := setTiles_outcome whole_empty hrect 126 31
  obtain ⟨_, -, hupper⟩ := hcell 127 (by decide) 31 (by decide)
  obtain ⟨_, -, hlower⟩ := hcell 126 (by decide) 32 (by decide)
  refine ⟨whole_empty, hrect, m', hupper, hlower, ?_⟩
  rcases hend with ⟨-, hrun⟩ | ⟨⟨cx, cy, t, ht, -, hle, -⟩, -⟩
  · exact hrun
  · obtain ⟨k, rfl⟩ : ∃ k, cy = 33 + k := ⟨cy - 33, by omega⟩
    have hrow : 33 + k - 31 = k + 2 := by omega
    simp [valueAt, hrow] at ht

/-- A rectangle that ends below the map is not left out there, but fails. -/
theorem setTiles_below :
    ((setTiles 0 63 [[1], [1]]).run empty matches .error .unmetCondition _) = true := by
  decide +kernel

/-! ### Pixels -/

theorem tiles_eq (hm : m.Whole sheet) (hx : x ≤ 127) (hwidth : 1 ≤ width)
    (hheight : 1 ≤ height) (hy : y + height ≤ 64) :
    m.tiles x y width height = .ok ((range height).map fun r => (range width).map fun c =>
      if 127 < x + c then 0 else m.tileAt (128 * (y + r) + (x + c))) := by
  rw [tiles, demand_ok (by simp; omega), demand_ok (by simp; omega), demand_ok (by simp; omega),
    demand_ok (by simp [hm.sheet_eq]; omega)]
  refine mapM_eq_ok fun r hr => mapM_eq_ok fun c _ => ?_
  have hr : r < height := by simpa using hr
  rw [cellOrBlank]
  by_cases hc : 127 < x + c
  · rw [if_pos (by omega), if_pos hc]
  · have hcell := hm.cell_eq (x := x + c) (y := y + r) (by omega) (by omega)
    rw [Int.natCast_add, Int.natCast_add] at hcell
    rw [if_neg (by omega), if_neg hc, hcell]

end Cartridge.TileMap
