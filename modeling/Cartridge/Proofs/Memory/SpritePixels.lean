import Cartridge.Proofs.Memory.Boards
import Cartridge.Proofs.Memory.SoundText
import Cartridge.Proofs.Picture

/-!
# The pixels of a sprite sheet

The pixels of a sheet are numbered through its rows, two to a byte.  A drawing gives a colour to the pixels
that it covers, except where it is transparent.  It is clipped one column and one row too late: a colour in
the column behind the last one goes to the first pixel of the next row, and one below the last row has no
place in the sheet, which is a failure.  By then all pixels of the sheet have been drawn.
-/

namespace Cartridge

/-- Rows of bytes, `height` of them and each of `width` bytes, in which every byte is as `P` says of its row
and its column. -/
structure Filled (width height : Nat) (P : Nat → Nat → UInt8 → Prop) (rows : List Bytes) : Prop where
  length_eq : rows.length = height
  row : ∀ r < height, ∃ row, rows[r]? = some row ∧ row.length = width ∧
    ∀ c < width, ∃ v, row[c]? = some v ∧ P r c v

namespace SpriteSheet

variable {sheet : Region} {x y : Nat}

def colour (sheet : Region) (n : Nat) : UInt8 :=
  if n % 2 = 0 then sheet.getD (n / 2) 0 &&& 0x0f else sheet.getD (n / 2) 0 >>> 4

theorem pixel_eq (hsheet : sheet.size = 8192) (hx : x < 128) (hy : y < 128) :
    pixel sheet x y = .ok (colour sheet (128 * y + x)) := by
  have hlt : y * 64 + x / 2 < sheet.size := by omega
  have hhalf : (128 * y + x) / 2 = y * 64 + x / 2 := by omega
  have hmod : (128 * y + x) % 2 = x % 2 := by omega
  have hget : sheet.getD (y * 64 + x / 2) 0 = sheet[y * 64 + x / 2] := by simp [hlt]
  rw [pixel, Region.fetch_of_lt hlt, colour, hhalf, hmod, hget]
  rfl

/-! ### Sprites and the sheet as text -/

def shown (sheet : Region) (x y : Nat) : UInt8 := if 127 < x ∨ 127 < y then 0 else colour sheet (128 * y + x)

theorem sprite_eq (hsheet : sheet.size = 8192) {id width height : Nat} (hid : id ≤ 255) (hwidth : 1 ≤ width)
    (hheight : 1 ≤ height) :
    sprite sheet id width height = .ok ((List.range (8 * height)).map fun r =>
      (List.range (8 * width)).map fun c => shown sheet (8 * (id % 16) + c) (8 * (id / 16) + r)) := by
  have hpixel : ∀ x y, pixelOrBlank sheet x y = .ok (shown sheet x y) := by
    intro x y
    rw [pixelOrBlank, shown]
    split
    · rfl
    · exact pixel_eq hsheet (by omega) (by omega)
  have hdemand : ∀ {c : Bool}, c = true → (demand c : Except Failure Unit) = .ok () := by
    rintro _ rfl
    rfl
  rw [sprite, hdemand (by simp; omega), hdemand (by simp; omega), hdemand (by simp; omega)]
  exact mapM_eq_ok fun r _ => mapM_eq_ok fun c _ => hpixel _ _

/-! ### One pixel -/

def recoloured (n c : Nat) (b : UInt8) : UInt8 :=
  if n % 2 = 0 then ((b &&& 0xf0).toNat + c).toUInt8 else ((b &&& 0x0f).toNat + c * 16).toUInt8

theorem toNat_halves : ∀ b : UInt8, (b &&& 0xf0).toNat = b.toNat / 16 * 16 ∧
    (b &&& 0x0f).toNat = b.toNat % 16 ∧ (b >>> 4).toNat = b.toNat / 16 :=
  forall_byte (by decide +kernel)

section Recoloured

variable {c : Nat} (hc : c < 16) (n : Nat) (b : UInt8)
include hc

theorem toNat_recoloured : (recoloured n c b).toNat =
    if n % 2 = 0 then (b &&& 0xf0).toNat + c else (b &&& 0x0f).toNat + c * 16 := by
  have hlt := b.toNat_lt
  obtain ⟨hhigh, hlow, -⟩ := toNat_halves b
  rw [recoloured, hhigh, hlow]
  split <;> exact UInt8.toNat_ofNat_of_lt' (show _ < 256 by omega)

theorem recoloured_low : recoloured n c b &&& 0x0f = if n % 2 = 0 then c.toUInt8 else b &&& 0x0f := by
  obtain ⟨hhigh, hlow, -⟩ := toNat_halves b
  refine UInt8.toNat_inj.mp ?_
  rw [(toNat_halves _).2.1, toNat_recoloured hc, hhigh, hlow]
  split
  · rw [UInt8.toNat_ofNat_of_lt' (show c < 256 by omega)]
    omega
  · rw [hlow]
    omega

theorem recoloured_high : recoloured n c b >>> 4 = if n % 2 = 0 then b >>> 4 else c.toUInt8 := by
  obtain ⟨hhigh, hlow, hshift⟩ := toNat_halves b
  refine UInt8.toNat_inj.mp ?_
  rw [(toNat_halves _).2.2, toNat_recoloured hc, hhigh, hlow]
  split
  · rw [hshift]
    omega
  · rw [UInt8.toNat_ofNat_of_lt' (show c < 256 by omega)]
    omega

end Recoloured

theorem colour_recoloured {n c : Nat} (hn : n / 2 < sheet.size) (hc : c < 16) (k : Nat) :
    colour (sheet.setIfInBounds (n / 2) (recoloured n c sheet[n / 2])) k =
      if k = n then c.toUInt8 else colour sheet k := by
  have hget : sheet.getD (n / 2) 0 = sheet[n / 2] := by simp [hn]
  rw [colour, colour, Region.getD_setIfInBounds hn]
  by_cases hk : k / 2 = n / 2
  · rw [if_pos hk, hk, hget, recoloured_low hc, recoloured_high hc]
    by_cases heq : k = n
    · subst heq
      by_cases hmod : k % 2 = 0 <;> simp [hmod]
    · by_cases hmod : n % 2 = 0
      · simp [heq, hmod, show ¬k % 2 = 0 by omega]
      · simp [heq, hmod, show k % 2 = 0 by omega]
  · have hne : k ≠ n := fun heq => hk (congrArg (· / 2) heq)
    rw [if_neg hk, if_neg hne]

theorem run_read_beyond {i : Nat} (h : sheet.size ≤ i) :
    (Region.read (i : Int)).run sheet = .error .outOfRange sheet := by
  have hposition : Slice.position? sheet.size (i : Int) = none := by
    rw [Slice.position?, if_pos (by omega), if_neg (by omega)]
  rw [Region.read, EStateM.run_bind, EStateM.run_get]
  dsimp only
  rw [Region.fetch, hposition]
  rfl

def ink (v : Int) : Option UInt8 := if v = transparent then none else some v.toNat.toUInt8

def board : Board Region where
  IsBoard r := r.size = 8192
  cell := colour
  size := 16384
  failure := .outOfRange

theorem paint_eq {c : Nat} (hc : c < 16) (hx : x ≤ 128) (hy : y ≤ 128) :
    paint x y c = (do
      let b ← Region.read ((128 * y + x) / 2 : Nat)
      Region.store ((128 * y + x) / 2 : Nat) ((recoloured (128 * y + x) c b).toNat : Int)) := by
  have hskip : ¬((c : Int) = transparent ∨ 128 < (y : Int) ∨ 128 < (x : Int)) := by
    rw [transparent]
    omega
  have hat : ((y : Int) * 64 + (x : Int) / 2) = ((128 * y + x) / 2 : Nat) := by omega
  have hmod : (x : Int) % 2 = 0 ↔ (128 * y + x) % 2 = 0 := by omega
  rw [paint, if_neg hskip]
  simp only [hat, hmod]
  refine bind_congr fun b => ?_
  rw [toNat_recoloured hc]
  split
  · rw [Int.natCast_add]
  · rw [Int.natCast_add, Int.natCast_mul]
    rfl

theorem writes_paint (x y : Nat) (v : Int) (hv : 0 ≤ v ∧ v ≤ 16) :
    board.Writes (128 * y + x) (paint x y v) fun n =>
      if n = 128 * y + x ∧ x ≤ 128 ∧ y ≤ 128 then ink v else none := by
  by_cases hskip : v = transparent ∨ 128 < (y : Int) ∨ 128 < (x : Int)
  · have hnone : ∀ n, (if n = 128 * y + x ∧ x ≤ 128 ∧ y ≤ 128 then ink v else none) = none := by
      intro n
      split
      · rw [ink, if_pos (hskip.resolve_right (by omega))]
      · rfl
    simp only [hnone]
    rw [paint, if_pos hskip]
    exact board.writes_pure _
  obtain ⟨c, rfl⟩ : ∃ c : Nat, v = c := ⟨v.toNat, by omega⟩
  have hvisible : (c : Int) ≠ transparent := fun h => hskip (.inl h)
  have hc : c < 16 := by
    rw [transparent] at hvisible
    omega
  have hin : x ≤ 128 ∧ y ≤ 128 := by omega
  have hink : ink c = some c.toUInt8 := if_neg hvisible
  rw [paint_eq hc hin.1 hin.2, hink]
  simp only [hin, and_true]
  refine Board.writes_one (fun hlt r hr => ?_) fun hle r hr => ?_
  · have hr : r.size = 8192 := hr
    have hlt : (128 * y + x) / 2 < r.size := by
      rw [hr]
      exact Nat.div_lt_of_lt_mul hlt
    refine ⟨r.setIfInBounds _ (recoloured (128 * y + x) c r[(128 * y + x) / 2]), ?_, ?_,
      fun k _ => colour_recoloured hlt hc k⟩
    · rw [EStateM.run_bind, Region.run_read r hlt]
      exact Region.run_store r hlt _
    · show (r.setIfInBounds _ _).size = 8192
      rw [Array.size_setIfInBounds, hr]
  · have hr : r.size = 8192 := hr
    have hle : 16384 ≤ 128 * y + x := hle
    rw [EStateM.run_bind, run_read_beyond (by omega)]
    rfl

/-! ### Drawings -/

def scribe : Scribe board where
  step := paint
  row := drawRow
  rows := drawRows
  code := ink
  Fits v := 0 ≤ v ∧ v ≤ 16
  lastColumn := 128
  lastRow := 128
  lastColumn_le := Nat.le_refl 128
  writes_step := writes_paint
  row_nil _ _ := rfl
  row_cons _ _ _ _ := rfl
  rows_nil _ _ := rfl
  rows_cons _ _ _ _ := rfl

theorem draw_eq (id dx dy : Nat) (rows : List (List Int)) :
    draw id rows dx dy = scribe.rows (8 * (id % 16) + dx : Nat) (8 * (id / 16) + dy : Nat) rows := by
  have hx : (id : Int) % 16 * 8 + dx = (8 * (id % 16) + dx : Nat) := by omega
  have hy : (id : Int) / 16 * 8 + dy = (8 * (id / 16) + dy : Nat) := by omega
  rw [draw, hx, hy]
  rfl

/-- The colour that a drawing with its upper left corner at column `x₀` of row `y₀` has for a place, if it
has one there that is not transparent. -/
def drawn (x₀ y₀ : Nat) (rows : List (List Int)) (x y : Nat) : Option UInt8 :=
  (valueAt x₀ y₀ rows x y).bind ink

/-- **What a drawing comes to.**  A pixel has the colour that the drawing has for it, or else one that the
drawing has for the place behind the end of the row above, or else the colour that it had.  The drawing
fails exactly if it has a colour for a place below the last row, or behind its end. -/
theorem draw_outcome {sheet : Region} (hsheet : sheet.size = 8192) (id : Nat) {rows : List (List Int)}
    (hrows : ∀ row ∈ rows, ∀ v ∈ row, 0 ≤ v ∧ v ≤ 16) (dx dy : Nat) :
    let colours := drawn (8 * (id % 16) + dx) (8 * (id / 16) + dy) rows
    let late := ∃ x y c, colours x y = some c ∧ x ≤ 128 ∧ (y = 128 ∨ y = 127 ∧ x = 128)
    ∃ sheet' : Region, sheet'.size = 8192 ∧
      (∀ x < 128, ∀ y < 128, ∃ old, pixel sheet x y = .ok old ∧ pixel sheet' x y =
        .ok (((colours x y).or (if x = 0 ∧ 0 < y then colours 128 (y - 1) else none)).getD old)) ∧
      (¬late ∧ (draw id rows dx dy).run sheet = .ok () sheet' ∨
        late ∧ (draw id rows dx dy).run sheet = .error .outOfRange sheet') := by
  intro colours late
  obtain ⟨sheet', hsheet', hcell, hend⟩ :=
    scribe.exists_outcome hrows (8 * (id % 16) + dx) (8 * (id / 16) + dy) (b := board) hsheet
  have hplaced : ∀ x y, x ≤ 128 → y ≤ 128 →
      scribe.placed (8 * (id % 16) + dx) (8 * (id / 16) + dy) rows x y = colours x y :=
    fun x y hx hy => if_pos ⟨hx, hy⟩
  have hlate : (∃ x y c, scribe.placed (8 * (id % 16) + dx) (8 * (id / 16) + dy) rows x y = some c ∧
      16384 ≤ 128 * y + x) ↔ late := by
    constructor
    · rintro ⟨x, y, c, hc, hle⟩
      obtain ⟨⟨hx, hy⟩, hcolour⟩ := scribe.placed_eq_some_iff.mp hc
      have hx : x ≤ 128 := hx
      have hy : y ≤ 128 := hy
      exact ⟨x, y, c, hcolour, hx, by omega⟩
    · rintro ⟨x, y, c, hc, hx, hy⟩
      exact ⟨x, y, c, by rw [hplaced x y hx (by omega), hc], by omega⟩
  refine ⟨sheet', hsheet', fun x hx y hy => ⟨_, pixel_eq hsheet hx hy, ?_⟩, ?_⟩
  · have hcolour := hcell (128 * y + x) (show 128 * y + x < 16384 by omega)
    rw [scribe.written_place rows hx, hplaced x y (by omega) (by omega),
      hplaced 128 (y - 1) (Nat.le_refl 128) (by omega)] at hcolour
    rw [pixel_eq hsheet' hx hy]
    exact congrArg Except.ok hcolour
  · rw [draw_eq, ← hlate]
    exact hend

theorem draw_outcome_corner :
    (blank.size = 8192 ∧ ∀ row ∈ [[3, 16], [4]], ∀ v ∈ row, (0 : Int) ≤ v ∧ v ≤ 16) ∧
      ∃ sheet' : Region, pixel sheet' 127 126 = .ok 3 ∧ pixel sheet' 0 127 = .ok 0 ∧
        pixel sheet' 127 127 = .ok 4 ∧
        (draw (255 : Nat) [[3, 16], [4]] (7 : Nat) (6 : Nat)).run blank = .ok () sheet' := by
  have hrows : ∀ row ∈ [[3, 16], [4]], ∀ v ∈ row, (0 : Int) ≤ v ∧ v ≤ 16 := by decide
  have hblank : blank.size = 8192 := Array.size_replicate
  obtain ⟨sheet', -, hpixel, hend⟩ := draw_outcome hblank 255 hrows 7 6
  obtain ⟨_, -, hfirst⟩ := hpixel 127 (by decide) 126 (by decide)
  obtain ⟨old, hold, hwrapped⟩ := hpixel 0 (by decide) 127 (by decide)
  obtain ⟨_, -, hsecond⟩ := hpixel 127 (by decide) 127 (by decide)
  have hzero : pixel blank 0 127 = .ok 0 := by
    rw [pixel_eq hblank (by decide) (by decide), colour]
    simp [blank]
  rw [hzero] at hold
  cases hold
  refine ⟨⟨hblank, hrows⟩, sheet', hfirst, hwrapped, hsecond, ?_⟩
  rcases hend with ⟨-, hrun⟩ | ⟨⟨x, y, c, hc, -, rfl | ⟨rfl, rfl⟩⟩, -⟩
  · exact hrun
  · simp [drawn, valueAt] at hc
  · simp [drawn, valueAt] at hc

/-- A colour right of the sheet is drawn in the next row, and one below the sheet is a failure. -/
theorem draw_clipped_late :
    drawn 128 0 [[1]] 0 1 = none ∧ (pixel blank 0 1).toOption = some 0 ∧
      (blank.edited (draw 0 [[1]] 128 0)).toOption.map (fun sheet => (pixel sheet 0 1).toOption) =
        some (some 1) ∧
      (blank.edited (draw 0 [[1]] 0 128)).toOption = none := by
  decide +kernel

end SpriteSheet
end Cartridge
