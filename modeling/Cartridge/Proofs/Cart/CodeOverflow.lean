import Cartridge.Proofs.Cart.ImageRoundTrip
import Cartridge.Proofs.Packed.PlanLength

/-!
# Programs that are too large for the code region

The region is zeros with the packed program put over its front.  A packed program that is longer than
the region makes the region longer, and everything behind it in memory moves: the version is no longer
at the address where it is read.  There are such programs.  Characters that count up in words of three
give a text in which no three come again within the reach of a copy, so packing gains nothing on it,
and a block at its end makes it shorter all the same.
-/

namespace Cartridge.CodeRegion

open Packed

/-! ### The length of a region -/

theorem eq_pad_of_ofText {text region : Bytes} (h : ofText text = .ok region) :
    region = pad (packed text (pack text)) := by
  unfold ofText at h
  dsimp only at h
  split at h
  · cases h
  split at h
  · cases h
  cases h
  rfl

theorem length_of_ofText {text region : Bytes} (h : ofText text = .ok region) :
    region.length = max size (8 + (pack text).length) := by
  rw [eq_pad_of_ofText h, pad, List.length_append, List.length_replicate, length_packed]
  omega

theorem getElem?_of_ofText {text region : Bytes} (h : ofText text = .ok region) {k : Nat}
    (hk : k < (pack text).length) : region[8 + k]? = (pack text)[k]? := by
  have hheader : (mark ++ [(text.length / 256).toUInt8, text.length.toUInt8, 0, 0]).length = 8 := rfl
  rw [eq_pad_of_ofText h, pad, List.getElem?_append_left (by rw [length_packed]; omega), packed,
    List.getElem?_append_right (by omega), hheader, Nat.add_sub_cancel_left]

end Cartridge.CodeRegion

namespace Cartridge.Cart

open Lua Packed CodeRegion

/-! ### The memory behind the region -/

theorem image_of_ofText {c : Cart} {v : UInt8} (hversion : c.version = v.toNat) {w : Writer}
    (hfailure : (c.program.write w).failure = none) {region : Bytes}
    (hregion : ofText (c.program.write w).lines.flatten = .ok region) :
    c.image w = .ok (c.sprites ++ c.tiles ++ c.flags ++ c.songs ++ c.sounds ++ region.toArray ++
      #[v]) := by
  have hbyte : Region.byte? c.version = some v := by
    rw [hversion, Region.byte?_toNat]
  unfold image
  dsimp only
  rw [hfailure]
  dsimp only
  rw [hregion, hbyte]
  rfl

theorem getElem?_memory {c : Cart} (hc : c.FullSize) (region : Bytes) (v : UInt8) (k : Nat) :
    (c.sprites ++ c.tiles ++ c.flags ++ c.songs ++ c.sounds ++ region.toArray ++ #[v])[0x4300 + k]? =
      (region ++ [v])[k]? := by
  have hfront : (c.sprites ++ c.tiles ++ c.flags ++ c.songs ++ c.sounds).size = 0x4300 := by
    simp only [Array.size_append, hc.sprites, hc.tiles, hc.flags, hc.songs, hc.sounds]
  have htail : region.toArray ++ #[v] = (region ++ [v]).toArray := by simp
  rw [Array.append_assoc, htail, Array.getElem?_append_right (by omega), hfront,
    Nat.add_sub_cancel_left, List.getElem?_toArray]

/-- **The region has its size, and the version its address, exactly if the packed program fits.**

Let `region` be the code region of a text.  It has 0x3d00 bytes if and only if the packed text and its
header have no more.  Every cart with full regions, a version of one byte and this text as its program
has a memory, in which the version is the byte behind the region.  At 0x8000, where the version is
read, there is the version if the packed text fits, and a byte of the packed text if it does not. -/
theorem version_in_place_iff {text region : Bytes} (h : ofText text = .ok region) :
    (region.length = 0x8000 - 0x4300 ↔ 8 + (pack text).length ≤ 0x8000 - 0x4300) ∧
      ∀ {c : Cart} {w : Writer} {v : UInt8}, c.FullSize → c.version = v.toNat →
        (c.program.write w).failure = none → (c.program.write w).lines.flatten = text →
        ∃ memory, c.image w = .ok memory ∧ memory.size = 0x4300 + region.length + 1 ∧
          memory[0x4300 + region.length]? = some v ∧
          memory[0x8000]? = if 8 + (pack text).length ≤ 0x8000 - 0x4300 then some v
            else (pack text)[0x8000 - 0x4300 - 8]? := by
  have hlength := length_of_ofText h
  have hsize : size = 0x8000 - 0x4300 := rfl
  refine ⟨by omega, ?_⟩
  intro c w v hc hversion hfailure htext
  have hregion : ofText (c.program.write w).lines.flatten = .ok region := by rw [htext, h]
  refine ⟨_, image_of_ofText hversion hfailure hregion, ?_, ?_, ?_⟩
  · simp only [Array.size_append, hc.sprites, hc.tiles, hc.flags, hc.songs, hc.sounds,
      List.size_toArray, List.length_singleton]
  · rw [getElem?_memory hc, List.getElem?_append_right (Nat.le_refl _), Nat.sub_self]
    rfl
  · -- 0x8000 is the place behind a region that has its size
    show (_ : Array UInt8)[0x4300 + 0x3d00]? = _
    rw [getElem?_memory hc]
    split
    · next hfits =>
      have hfull : region.length = 0x3d00 := by omega
      rw [List.getElem?_append_right (by omega), hfull]
      rfl
    · next hover =>
      rw [List.getElem?_append_left (by omega)]
      exact getElem?_of_ofText h (k := 0x3d00 - 8) (by omega)

/-- A program that fits, on a cart of version 255. -/
theorem version_in_place_full :
    ∃ p region memory, Program.ofLines 8 packableSource = .ok p ∧
      ofText (Bytes.ofText "print('\\t')\nprint(1) print(1)") = .ok region ∧
      region.length = 0x3d00 ∧ (fullCart p).FullSize ∧ (fullCart p).image .echo = .ok memory ∧
      memory[0x8000]? = some 255 := by
  have hpacked : (pack (Bytes.ofText "print('\\t')\nprint(1) print(1)")).length <
      (Bytes.ofText "print('\\t')\nprint(1) print(1)").length := by decide +kernel
  have hlength : (Bytes.ofText "print('\\t')\nprint(1) print(1)").length = 29 := by decide
  have hregion := ofText_eq (by rw [hlength]; decide) hpacked
  obtain ⟨hsize, himage⟩ := version_in_place_iff hregion
  have hsource : (Program.ofLines 8 packableSource).toOption.map Program.source =
      some (Bytes.ofText "print('\\t')\nprint(1) print(1)") := by decide +kernel
  cases hp : Program.ofLines 8 packableSource with
  | error e =>
    rw [hp] at hsource
    cases hsource
  | ok p =>
    rw [hp] at hsource
    have hfull : (fullCart p).FullSize := ⟨Array.size_replicate, Array.size_replicate,
      Array.size_replicate, Array.size_replicate, Array.size_replicate⟩
    obtain ⟨memory, hmemory, -, -, hversion⟩ :=
      himage (c := fullCart p) (w := .echo) (v := 255) hfull rfl rfl (Option.some.inj hsource)
    rw [if_pos (by omega)] at hversion
    exact ⟨p, _, memory, rfl, hregion, hsize.mpr (by omega), hfull, hmemory, hversion⟩

end Cartridge.Cart

namespace Cartridge.Packed

/-! ### A text without blocks -/

/-- The character at a place of a count in words of three: a digit, a letter up to `m`, a letter from
`n` on.  The digit counts fastest. -/
def glyph (k : Nat) : Nat :=
  if k % 3 = 0 then 48 + k / 3 % 10
  else if k % 3 = 1 then 97 + k / 3 / 10 % 13
  else 110 + k / 3 / 130 % 13

theorem glyph_first (a : Nat) : glyph (3 * a) = 48 + a % 10 := by
  rw [glyph, if_pos (by omega), Nat.mul_div_cancel_left a (by decide)]

theorem glyph_second (a : Nat) : glyph (3 * a + 1) = 97 + a / 10 % 13 := by
  have hword : (3 * a + 1) / 3 = a := by omega
  rw [glyph, if_neg (by omega), if_pos (by omega), hword]

theorem glyph_third (a : Nat) : glyph (3 * a + 2) = 110 + a / 130 % 13 := by
  have hword : (3 * a + 2) / 3 = a := by omega
  rw [glyph, if_neg (by omega), if_neg (by omega), hword]

theorem glyph_bounds (k : Nat) :
    k % 3 = 0 ∧ 48 ≤ glyph k ∧ glyph k ≤ 57 ∨ k % 3 = 1 ∧ 97 ≤ glyph k ∧ glyph k ≤ 109 ∨
      k % 3 = 2 ∧ 110 ≤ glyph k ∧ glyph k ≤ 122 := by
  unfold glyph
  split
  · omega
  split <;> omega

theorem not_glyphs_again {i j : Nat} (hij : i < j) (hreach : j - i ≤ maxOffset) :
    ¬∀ m < 3, glyph (i + m) = glyph (j + m) := by
  intro h
  have h0 : glyph i = glyph j := h 0 (by decide)
  have h1 : glyph (i + 1) = glyph (j + 1) := h 1 (by decide)
  have h2 : glyph (i + 2) = glyph (j + 2) := h 2 (by decide)
  have hmax : maxOffset = 3120 := rfl
  have hmod : i % 3 = j % 3 := by
    have hi := glyph_bounds i
    have hj := glyph_bounds j
    omega
  obtain ⟨a, r, rfl, hr⟩ : ∃ a r, i = 3 * a + r ∧ r < 3 := ⟨i / 3, i % 3, by omega, by omega⟩
  obtain ⟨b, rfl⟩ : ∃ b, j = 3 * b + r := ⟨j / 3, by omega⟩
  -- wherever they start, they hold all three parts of the number of a word
  obtain rfl | rfl | rfl : r = 0 ∨ r = 1 ∨ r = 2 := by omega
  · simp only [Nat.add_zero, glyph_first, glyph_second, glyph_third] at h0 h1 h2
    omega
  · have hnext : glyph (3 * (a + 1)) = glyph (3 * (b + 1)) := h2
    have hthird : glyph (3 * a + 2) = glyph (3 * b + 2) := h1
    simp only [glyph_first, glyph_second, glyph_third] at h0 hthird hnext
    omega
  · have hnext : glyph (3 * (a + 1)) = glyph (3 * (b + 1)) := h1
    have hsecond : glyph (3 * (a + 1) + 1) = glyph (3 * (b + 1) + 1) := h2
    simp only [glyph_first, glyph_second, glyph_third] at h0 hnext hsecond
    omega

end Cartridge.Packed

namespace Cartridge.CodeRegion

open Packed

def overfull : Bytes :=
  (List.range 15630).map (fun k => (glyph k).toUInt8) ++ List.replicate 6 43

theorem length_overfull : overfull.length = 15636 := by
  rw [overfull, List.length_append, List.length_map, List.length_range, List.length_replicate]

theorem getD_overfull {k : Nat} (hk : k < 15630) :
    overfull.toArray.getD k 0 = (glyph k).toUInt8 := by
  rw [Array.getD_eq_getD_getElem?, List.getElem?_toArray, overfull,
    List.getElem?_append_left (by simpa using hk), List.getElem?_map, List.getElem?_range hk]
  rfl

theorem getD_overfull_sign {k : Nat} (hk : k < 6) : overfull.toArray.getD (15630 + k) 0 = 43 := by
  have hcount : ((List.range 15630).map fun k => (glyph k).toUInt8).length = 15630 := by simp
  rw [Array.getD_eq_getD_getElem?, List.getElem?_toArray, overfull,
    List.getElem?_append_right (by omega), hcount, Nat.add_sub_cancel_left,
    List.getElem?_replicate_of_lt hk]
  rfl

theorem code_ne_zero_of_mem_overfull {b : UInt8} (hb : b ∈ overfull) : code b ≠ 0 := by
  have htable : ∀ n < 123, 48 ≤ n ∧ n ≤ 57 ∨ 97 ≤ n ∧ n ≤ 122 → code n.toUInt8 ≠ 0 := by
    decide +kernel
  have hsign : code 43 ≠ 0 := by decide +kernel
  obtain hcount | hend := List.mem_append.mp hb
  · obtain ⟨k, -, rfl⟩ := List.mem_map.mp hcount
    have hbounds := glyph_bounds k
    exact htable _ (by omega) (by omega)
  · rwa [List.eq_of_mem_replicate hend]

theorem longestBlock_overfull {p : Nat} (hp : p < 15628) :
    (longestBlock overfull.toArray p).length < 3 := by
  apply Nat.lt_of_not_le
  intro hthree
  have hsize : overfull.toArray.size = 15636 := length_overfull
  have hcopies : (longestBlock overfull.toArray p).Copies overfull.toArray p :=
    longestBlock_copies (by omega) (by omega)
  obtain ⟨hreach, hbefore, -, -, hsame⟩ := hcopies
  generalize (longestBlock overfull.toArray p).offset = offset at hreach hbefore hsame
  -- a block would be three characters of the count once more
  apply not_glyphs_again (i := p - offset.toNat) (j := p) (by omega) (by omega)
  intro m hm
  have hbytes := hsame m (by omega)
  rw [getD_overfull (by omega), getD_overfull (by omega)] at hbytes
  have hlow := glyph_bounds (p - offset.toNat + m)
  have hhigh := glyph_bounds (p + m)
  have hvalue := congrArg UInt8.toNat hbytes
  rw [Nat.toUInt8_eq, UInt8.toNat_ofNat', Nat.toUInt8_eq, UInt8.toNat_ofNat'] at hvalue
  omega

theorem three_le_longestBlock_overfull : 3 ≤ (longestBlock overfull.toArray 15633).length := by
  have hroom : blockRoom overfull.toArray 15633 15630 = 3 := by
    rw [blockRoom, List.size_toArray, length_overfull]
    rfl
  have hfound : runLength overfull.toArray 15630 15633 (blockRoom overfull.toArray 15633 15630)
      ≤ (longestBlock overfull.toArray 15633).length :=
    runLength_le_longestBlock (by decide) (by decide)
  apply Nat.le_trans _ hfound
  rw [hroom]
  apply le_runLength (Nat.le_refl 3)
  intro m hm
  have hplace : 15633 + m = 15630 + (3 + m) := by omega
  rw [hplace, getD_overfull_sign (by omega), getD_overfull_sign (by omega)]

theorem length_pack_overfull :
    15628 ≤ (pack overfull).length ∧ (pack overfull).length < overfull.length := by
  have hsize : overfull.toArray.size = 15636 := length_overfull
  have hplain : withFallback overfull = overfull := by
    apply withFallback_of_not_smooth
    intro hsmooth
    have hmem : (95 : UInt8) ∈ overfull := hsmooth.subset (by decide)
    obtain hcount | hend := List.mem_append.mp hmem
    · obtain ⟨k, -, hk⟩ := List.mem_map.mp hcount
      have hbounds := glyph_bounds k
      have hvalue := congrArg UInt8.toNat hk
      rw [Nat.toUInt8_eq, UInt8.toNat_ofNat'] at hvalue
      have hunderscore : (95 : UInt8).toNat = 95 := rfl
      omega
    · exact absurd (List.eq_of_mem_replicate hend) (by decide)
  have hpack : (pack overfull).length
      = packedLength (planFrom overfull.toArray overfull.toArray.size 0) := by
    rw [pack, hplain]
    rfl
  have hlong : 15628 - 0 ≤ packedLength (planFrom overfull.toArray overfull.toArray.size 0) :=
    le_length_planFrom (by omega) (by omega) fun p _ hp => longestBlock_overfull hp
  have hshort : packedLength (planFrom overfull.toArray overfull.toArray.size 0)
      < overfull.toArray.size - 0 :=
    length_planFrom_lt (fun b hb => code_ne_zero_of_mem_overfull (by simpa using hb)) (by omega)
      (Nat.zero_le 15633) (by omega) three_le_longestBlock_overfull
  rw [hpack, length_overfull]
  omega

/-- The text is put into a region that is longer than a region is. -/
theorem ofText_overfull :
    ∃ region, ofText overfull = .ok region ∧ 0x8000 - 0x4300 < region.length := by
  obtain ⟨hlong, hshort⟩ := length_pack_overfull
  have hregion := ofText_eq (by rw [length_overfull]; decide) hshort
  refine ⟨_, hregion, ?_⟩
  rw [length_of_ofText hregion]
  omega

end Cartridge.CodeRegion
