import Cartridge.Flip.Cart
import Cartridge.Proofs.Memory.MapCells

/-!
# Pictures turned half round

The tiles of a sprite sheet and the map are turned in one way: a block of a board is read, and its rows are
written back from last to first, each from right to left.  So each cell of the block takes over what was in
the cell opposite, and no other cell changes.

The lower half of the map and the lower tiles are the same bytes.  Only one of the two is turned.
-/

namespace Cartridge.Flip

open List SpriteSheet TileMap

/-! ### A block of a board -/

theorem getElem?_reverse_range {α : Type} (g : Nat → α) (n i : Nat) :
    ((range n).map g).reverse[i]? = if i < n then some (g (n - 1 - i)) else none := by
  by_cases hi : i < n
  · rw [if_pos hi, getElem?_reverse (by simpa using hi), length_map, length_range,
      getElem?_map, getElem?_range (by omega)]
    rfl
  · rw [if_neg hi, getElem?_eq_none (by simpa using hi)]

section Block

variable {x₀ y₀ width height : Nat} {f : Nat → Nat → UInt8}

def block (width height : Nat) (f : Nat → Nat → UInt8) : List Bytes :=
  (range height).map fun r => (range width).map (f r)

theorem valueAt_halfTurn (x y : Nat) :
    valueAt x₀ y₀ (halfTurn (block width height f)) x y =
      if (x₀ ≤ x ∧ x < x₀ + width) ∧ y₀ ≤ y ∧ y < y₀ + height then
        some ((f (y₀ + height - 1 - y) (x₀ + width - 1 - x)).toNat : Int) else none := by
  rw [valueAt]
  by_cases hle : x₀ ≤ x ∧ y₀ ≤ y
  · rw [if_pos hle, halfTurn, block, getElem?_map, getElem?_reverse_range]
    by_cases hy : y < y₀ + height
    · rw [if_pos (by omega)]
      simp only [Option.map_some, Option.bind_some, getElem?_map, getElem?_reverse_range]
      by_cases hx : x < x₀ + width
      · rw [if_pos (by omega), if_pos (by omega), Option.map_some,
          show height - 1 - (y - y₀) = y₀ + height - 1 - y by omega,
          show width - 1 - (x - x₀) = x₀ + width - 1 - x by omega]
      · rw [if_neg (by omega), if_neg (by omega)]
        rfl
    · rw [if_neg (by omega), if_neg (by omega)]
      rfl
  · rw [if_neg hle, if_neg (by omega)]

variable {σ : Type} {b : Board σ} {a : σ}

/-- **Turning a block of a board.**  A cell of the block takes over what was in the cell opposite, and no
other cell changes. -/
theorem exists_halfTurn (s : Scribe b) (x₀ y₀ width height : Nat) (ha : b.IsBoard a)
    (hvalue : ∀ n, s.Fits (b.cell a n).toNat ∧ s.code (b.cell a n).toNat = some (b.cell a n))
    (hlast : 127 ≤ s.lastColumn ∧ y₀ + height ≤ s.lastRow + 1) (hx : x₀ + width ≤ 128)
    (hy : 128 * (y₀ + height) ≤ b.size) :
    ∃ a', (s.rows x₀ y₀ (halfTurn (block width height fun r c =>
        b.cell a (128 * (y₀ + r) + (x₀ + c))))).run a = .ok () a' ∧ b.IsBoard a' ∧
      ∀ n < b.size, b.cell a' n =
        if (x₀ ≤ n % 128 ∧ n % 128 < x₀ + width) ∧ y₀ ≤ n / 128 ∧ n / 128 < y₀ + height then
          b.cell a (128 * (2 * y₀ + height - 1 - n / 128) + (2 * x₀ + width - 1 - n % 128))
        else b.cell a n := by
  have hplaced : ∀ x y, s.placed x₀ y₀ (halfTurn (block width height fun r c =>
      b.cell a (128 * (y₀ + r) + (x₀ + c)))) x y =
      if (x₀ ≤ x ∧ x < x₀ + width) ∧ y₀ ≤ y ∧ y < y₀ + height then
        some (b.cell a (128 * (2 * y₀ + height - 1 - y) + (2 * x₀ + width - 1 - x))) else none := by
    intro x y
    rw [Scribe.placed, valueAt_halfTurn]
    by_cases hin : (x₀ ≤ x ∧ x < x₀ + width) ∧ y₀ ≤ y ∧ y < y₀ + height
    · rw [if_pos hin, if_pos hin, if_pos (by omega), Option.bind_some, (hvalue _).2,
        show y₀ + (y₀ + height - 1 - y) = 2 * y₀ + height - 1 - y by omega,
        show x₀ + (x₀ + width - 1 - x) = 2 * x₀ + width - 1 - x by omega]
    · rw [if_neg hin, if_neg hin, Option.bind_none, ite_self]
  have hfits : ∀ row ∈ halfTurn (block width height fun r c => b.cell a (128 * (y₀ + r) + (x₀ + c))),
      ∀ v ∈ row, s.Fits v := by
    intro row hrow v hv
    simp only [halfTurn, block, mem_map, mem_reverse] at hrow
    obtain ⟨_, ⟨r, -, rfl⟩, rfl⟩ := hrow
    simp only [mem_map, mem_reverse] at hv
    obtain ⟨_, ⟨c, -, rfl⟩, rfl⟩ := hv
    exact (hvalue _).1
  obtain ⟨a', ha', hcell, ⟨-, hrun⟩ | ⟨⟨x, y, v, hv, hbeyond⟩, -⟩⟩ := s.exists_outcome hfits x₀ y₀ ha
  · refine ⟨a', hrun, ha', fun n hn => ?_⟩
    have hfar : s.placed x₀ y₀ _ 128 (n / 128 - 1) = none := (hplaced _ _).trans (if_neg (by omega))
    rw [hcell n hn, Scribe.written, hfar, ite_self, Option.or_none, hplaced]
    split <;> rfl
  · rw [hplaced] at hv
    split at hv
    · omega
    · cases hv

end Block

theorem run_look {σ α : Type} {f : σ → Except Failure α} {s : σ} {a : α} (h : f s = .ok a)
    (k : α → EStateM Failure σ Unit) : (look f >>= k).run s = (k a).run s := by
  rw [EStateM.run_bind, look, EStateM.run_bind, EStateM.run_get]
  dsimp only
  rw [h]
  rfl

theorem run_forM_range_succ {σ : Type} {e : Nat → EStateM Failure σ Unit} {m : Nat} {s s₁ s₂ : σ}
    (h : ((range m).forM e).run s = .ok () s₁) (h' : (e m).run s₁ = .ok () s₂) :
    ((range (m + 1)).forM e).run s = .ok () s₂ := by
  rw [range_succ, forM_eq_forM, forM_append]
  exact run_seq h (run_seq h' rfl)

/-! ### The tiles of the sheet -/

open SpriteSheet (colour)

def tileOf (n : Nat) : Nat := 16 * (n / 128 / 8) + n % 128 / 8

def opposite (n : Nat) : Nat :=
  128 * (16 * (n / 128 / 8) + 7 - n / 128) + (16 * (n % 128 / 8) + 7 - n % 128)

theorem opposite_opposite (n : Nat) : opposite (opposite n) = n := by
  unfold opposite
  omega

theorem tileOf_opposite (n : Nat) : tileOf (opposite n) = tileOf n := by
  unfold opposite tileOf
  omega

section Sheet

variable {r r' : Region} {id m n : Nat}

theorem colour_lt (r : Region) (n : Nat) : (colour r n).toNat < 16 := by
  have hlt := (r.getD (n / 2) 0).toNat_lt
  obtain ⟨-, hlow, hhigh⟩ := toNat_halves (r.getD (n / 2) 0)
  rw [colour]
  split
  · omega
  · omega

theorem getD_of_colour {i : Nat} (h : ∀ n, n / 2 = i → colour r' n = colour r n) :
    r'.getD i 0 = r.getD i 0 := by
  have heven := h (2 * i) (by omega)
  have hodd := h (2 * i + 1) (by omega)
  rw [colour, colour, if_pos (by omega), if_pos (by omega), show 2 * i / 2 = i by omega] at heven
  rw [colour, colour, if_neg (by omega), if_neg (by omega), show (2 * i + 1) / 2 = i by omega] at hodd
  have hlow := congrArg UInt8.toNat heven
  have hhigh := congrArg UInt8.toNat hodd
  rw [(toNat_halves _).2.1, (toNat_halves _).2.1] at hlow
  rw [(toNat_halves _).2.2, (toNat_halves _).2.2] at hhigh
  refine UInt8.toNat_inj.mp ?_
  omega

theorem exists_sprite (hr : r.size = 8192) (hid : id < 256) :
    ∃ r', (sprite id).run r = .ok () r' ∧ r'.size = 8192 ∧
      ∀ n < 16384, colour r' n = if tileOf n = id then colour r (opposite n) else colour r n := by
  have hrows : SpriteSheet.sprite r id 1 1 = .ok (block 8 8 fun i j =>
      colour r (128 * (8 * (id / 16) + i) + (8 * (id % 16) + j))) := by
    refine (sprite_eq hr (by omega) (Nat.le_refl 1) (Nat.le_refl 1)).trans
      (congrArg Except.ok (map_congr_left fun i hi => map_congr_left fun j hj => ?_))
    rw [mem_range] at hi hj
    exact if_neg (by omega)
  have hvalue : ∀ n, scribe.Fits (colour r n).toNat ∧
      scribe.code (colour r n).toNat = some (colour r n) := by
    intro n
    have hlt := colour_lt r n
    refine ⟨show 0 ≤ ((colour r n).toNat : Int) ∧ _ by omega, ?_⟩
    show ink ((colour r n).toNat : Int) = some (colour r n)
    rw [ink, if_neg (by rw [transparent]; omega), Int.toNat_natCast]
    simp
  obtain ⟨r', hrun, hr', hcell⟩ := exists_halfTurn scribe (8 * (id % 16)) (8 * (id / 16)) 8 8 hr hvalue
    ⟨by decide, show _ ≤ 128 + 1 by omega⟩
    (by omega) (show _ ≤ 16384 by omega)
  refine ⟨r', ?_, hr', fun n hn => (hcell n hn).trans ?_⟩
  · refine (run_look (f := fun r => SpriteSheet.sprite r id 1 1) hrows _).trans ?_
    exact (congrArg (EStateM.run · r) (draw_eq id 0 0 _)).trans hrun
  · show (if _ then colour r _ else colour r n) = _
    by_cases htile : tileOf n = id
    · subst htile
      rw [if_pos (by unfold tileOf; omega), if_pos rfl, opposite]
      refine congrArg (colour r) ?_
      unfold tileOf
      omega
    · rw [if_neg htile, if_neg]
      unfold tileOf at htile
      omega

theorem exists_forM_sprite (hr : r.size = 8192) (hm : m ≤ 256) :
    ∃ r', ((range m).forM sprite).run r = .ok () r' ∧ r'.size = 8192 ∧
      ∀ n < 16384, colour r' n = if tileOf n < m then colour r (opposite n) else colour r n := by
  induction m with
  | zero => exact ⟨r, rfl, hr, fun n _ => (if_neg (Nat.not_lt_zero _)).symm⟩
  | succ m ih =>
    obtain ⟨r₁, hrun₁, hr₁, hcolour₁⟩ := ih (by omega)
    obtain ⟨r₂, hrun₂, hr₂, hcolour₂⟩ := exists_sprite hr₁ (show m < 256 by omega)
    refine ⟨r₂, run_forM_range_succ hrun₁ hrun₂, hr₂, fun n hn => ?_⟩
    rw [hcolour₂ n hn]
    by_cases htile : tileOf n = m
    · have hopposite : opposite n < 16384 := by
        unfold opposite
        omega
      rw [if_pos htile, if_pos (by omega), hcolour₁ _ hopposite, tileOf_opposite, if_neg (by omega)]
    · rw [if_neg htile, hcolour₁ n hn]
      simp only [show tileOf n < m + 1 ↔ tileOf n < m by omega]

end Sheet

/-! ### The map -/

theorem exists_turnRows {m : TileMap} {sheet : Region} (hm : m.Whole sheet) {rows : Nat} (hpos : 1 ≤ rows)
    (hrows : rows ≤ 64) :
    ∃ m' sheet', (do
        let tiles ← look fun m : TileMap => m.tiles 0 0 128 rows
        setTiles 0 0 (halfTurn tiles)).run m = .ok () m' ∧
      m'.Whole sheet' ∧ (∀ i < 4096, sheet'[i]? = sheet[i]?) ∧ ∀ n < 8192, m'.tileAt n =
        if n < 128 * rows then m.tileAt (128 * rows - 1 - n) else m.tileAt n := by
  have htiles : m.tiles 0 0 128 rows =
      .ok (block 128 rows fun i j => m.tileAt (128 * (0 + i) + (0 + j))) := by
    refine (tiles_eq hm (x := 0) (y := 0) (by decide) (show 1 ≤ 128 by decide) hpos (by omega)).trans
      (congrArg Except.ok (map_congr_left fun i _ => map_congr_left fun j hj => ?_))
    rw [mem_range] at hj
    exact if_neg (by omega)
  have hvalue : ∀ n, (scribe sheet).Fits (m.tileAt n).toNat ∧
      (scribe sheet).code (m.tileAt n).toNat = some (m.tileAt n) := by
    intro n
    have hlt := (m.tileAt n).toNat_lt
    refine ⟨show 0 ≤ ((m.tileAt n).toNat : Int) ∧ _ by omega, ?_⟩
    show some ((m.tileAt n).toNat : Int).toNat.toUInt8 = some (m.tileAt n)
    simp
  obtain ⟨m', hrun, ⟨sheet', hm', hfront⟩, hcell⟩ := exists_halfTurn (scribe sheet) 0 0 128 rows
    ⟨sheet, hm, fun _ _ => rfl⟩ hvalue
    ⟨Nat.le_refl 127, show _ ≤ 127 + 1 by omega⟩ (by decide) (show _ ≤ 8192 by omega)
  refine ⟨m', sheet', ?_, hm', hfront, fun n hn => (hcell n hn).trans ?_⟩
  · exact (run_look (f := fun m : TileMap => m.tiles 0 0 128 rows) htiles _).trans hrun
  · show (if _ then m.tileAt _ else m.tileAt n) = _
    by_cases hlt : n < 128 * rows
    · rw [if_pos (by omega), if_pos hlt]
      refine congrArg m.tileAt ?_
      omega
    · rw [if_neg (by omega), if_neg hlt]

/-! ### Both pictures of a cart -/

def lastTile (o : Options) : Nat := if o.smallMap then 256 else 128

def mapRows (o : Options) : Nat := if o.smallMap then 32 else 64

structure Pictures (o : Options) (c c' : Cart) : Prop where
  size_sprites : c'.sprites.size = 8192
  size_tiles : c'.tiles.size = 4096
  colour_eq : ∀ n < 64 * lastTile o, colour c'.sprites n = colour c.sprites (opposite n)
  tileAt_eq : ∀ n < 128 * mapRows o, c'.tileMap.tileAt n = c.tileMap.tileAt (128 * mapRows o - 1 - n)

theorem run_onSprites {c : Cart} {e : Region.Edit Unit} {r : Region} (h : e.run c.sprites = .ok () r) :
    (onSprites e).run c = .ok () { c with sprites := r } := by
  rw [EStateM.run, onSprites, h]

theorem run_onTileMap {c : Cart} {e : TileMap.Edit Unit} {m : TileMap} {sheet : Region}
    (h : e.run c.tileMap = .ok () m) (hsheet : m.sheet = some sheet) :
    (onTileMap e).run c = .ok () { c with tiles := m.upper, sprites := sheet } := by
  rw [EStateM.run, onTileMap, h]
  dsimp only
  rw [Cart.setTileMap, hsheet]
  rfl

theorem tiles_eq (o : Options) :
    tiles o = (do
      let rows ← look fun m => m.tiles 0 0 128 (mapRows o)
      setTiles 0 0 (halfTurn rows)) := by
  unfold tiles mapRows
  cases o.smallMap <;> rfl

theorem lastTile_mapRows (o : Options) :
    lastTile o = 256 ∧ mapRows o = 32 ∨ lastTile o = 128 ∧ mapRows o = 64 := by
  unfold lastTile mapRows
  cases o.smallMap <;> decide

theorem exists_pictures {c : Cart} (hsprites : c.sprites.size = 8192) (htiles : c.tiles.size = 4096)
    (o : Options) :
    ∃ c', (do onSprites (sprites o); onTileMap (tiles o)).run c = .ok () c' ∧ Pictures o c c' ∧
      c'.sounds = c.sounds := by
  have hlast := lastTile_mapRows o
  obtain ⟨r, hrun, hr, hcolour⟩ := exists_forM_sprite hsprites (show lastTile o ≤ 256 by omega)
  obtain ⟨m, sheet, hrun', hm, hfront, htile⟩ :=
    exists_turnRows (m := ⟨c.tiles, some r⟩) ⟨htiles, rfl, hr⟩ (show 1 ≤ mapRows o by omega) (by omega)
  rw [← tiles_eq] at hrun'
  refine ⟨_, run_seq (run_onSprites hrun) (run_onTileMap hrun' hm.sheet_eq),
    ⟨hm.size_sheet, hm.size_upper, fun n hn => ?_, fun n hn => ?_⟩, rfl⟩
  · have hbyte : sheet.getD (n / 2) 0 = r.getD (n / 2) 0 := by
      by_cases hlow : n / 2 < 4096
      · rw [Array.getD_eq_getD_getElem?, hfront _ hlow, Array.getD_eq_getD_getElem?]
      · have hsame := htile (n / 2) (by omega)
        rw [if_neg (by omega), tileAt, tileAt, if_neg hlow, if_neg hlow, hm.sheet_eq] at hsame
        exact hsame
    have hsheet : colour sheet n = colour r n := by rw [colour, colour, hbyte]
    have hpixel : n < 16384 := by omega
    have hturned : tileOf n < lastTile o := by
      unfold tileOf
      omega
    exact hsheet.trans ((hcolour n hpixel).trans (if_pos hturned))
  · have hmap : (⟨m.upper, some sheet⟩ : TileMap) = m := by rw [← hm.sheet_eq]
    have hsame := htile n (by omega)
    rw [if_pos hn] at hsame
    show tileAt ⟨m.upper, some sheet⟩ n = _
    rw [hmap, hsame, tileAt, tileAt]
    by_cases hlow : 128 * mapRows o - 1 - n < 4096
    · rw [if_pos hlow, if_pos hlow]
      rfl
    · rw [if_neg hlow, if_neg hlow]
      refine getD_of_colour fun k hk => (hcolour k (by omega)).trans (if_neg ?_)
      unfold tileOf
      omega

theorem eq_of_getD {r r' : Region} (hsize : r'.size = r.size) (h : ∀ i < r.size, r'.getD i 0 = r.getD i 0) :
    r' = r := by
  refine Array.ext hsize fun i hi' hi => ?_
  have hbyte := h i hi
  simpa [hi, hi'] using hbyte

theorem Pictures.twice {o : Options} {c c' c'' : Cart} (hsprites : c.sprites.size = 8192)
    (htiles : c.tiles.size = 4096) (h : Pictures o c c') (h' : Pictures o c' c'') :
    c''.sprites = c.sprites ∧ c''.tiles = c.tiles := by
  have hlast := lastTile_mapRows o
  have hcolour : ∀ n < 64 * lastTile o, colour c''.sprites n = colour c.sprites n := by
    intro n hn
    have hopposite : opposite n < 64 * lastTile o := by
      unfold opposite
      omega
    rw [h'.colour_eq n hn, h.colour_eq _ hopposite, opposite_opposite]
  have htile : ∀ n < 128 * mapRows o, c''.tileMap.tileAt n = c.tileMap.tileAt n := by
    intro n hn
    rw [h'.tileAt_eq n hn, h.tileAt_eq _ (by omega)]
    refine congrArg c.tileMap.tileAt ?_
    omega
  refine ⟨eq_of_getD (h'.size_sprites.trans hsprites.symm) fun i hi => ?_,
    eq_of_getD (h'.size_tiles.trans htiles.symm) fun i hi => ?_⟩
  · by_cases hturned : i < 32 * lastTile o
    · exact getD_of_colour fun n hn => hcolour n (by omega)
    · have hsame := htile i (by omega)
      rw [tileAt, tileAt, if_neg (by omega), if_neg (by omega)] at hsame
      exact hsame
  · have hsame := htile i (by omega)
    rw [tileAt, tileAt, if_pos (by omega), if_pos (by omega)] at hsame
    exact hsame

end Cartridge.Flip
