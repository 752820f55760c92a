import Cartridge.Cart.Image
import Cartridge.Proofs.Lua.Resaving
import Cartridge.Proofs.Memory.SoundText
import Cartridge.Proofs.Packed.CodeRegion
import Cartridge.Proofs.Picture

/-!
# Carts are read from their pictures as they were put in

The memory of a cart is its regions one behind the other: sprites, tiles, flags, songs, sounds, the
code region and the version.  The reader cuts it at fixed addresses.  When every region has its size
these are the places where the regions meet.  A picture that is large enough holds the whole memory
behind which stands what it held; the reader does not look there.
-/

namespace Cartridge.Cart

open Lua

variable {a : Array UInt8} {c : Cart} {code : Bytes} {n : Nat} {v : UInt8}

structure FullSize (c : Cart) : Prop where
  sprites : c.sprites.size = 8192
  tiles : c.tiles.size = 4096
  flags : c.flags.size = 256
  songs : c.songs.size = 256
  sounds : c.sounds.size = 4352

/-! ### The memory -/

theorem extract_behind (ha : a.size = n) {start : Nat} (h : n ≤ start) (b : Array UInt8) (stop : Nat) :
    (a ++ b).extract start stop = b.extract (start - n) (stop - n) := by
  subst ha
  rw [Array.extract_append, Array.extract_empty_of_size_le_start h, Array.empty_append]

theorem extract_first (ha : a.size = n) (b : Array UInt8) : (a ++ b).extract 0 n = a := by
  subst ha
  simp [Array.extract_append]

theorem ofImage_memory (hc : c.FullSize) (hcode : code.length = CodeRegion.size) {u : Packed.Unpacked}
    (hread : CodeRegion.read v.toNat code = .ok u) {q : Program}
    (hq : Program.ofLines v.toNat [u.text] = .ok q) (rest : Array UInt8) :
    ofImage (c.sprites ++ c.tiles ++ c.flags ++ c.songs ++ c.sounds ++ code.toArray ++ #[v] ++ rest) =
      .ok { c with version := v.toNat, packedSize := u.packedSize, program := q, label := none } := by
  obtain ⟨hsprites, htiles, hflags, hsongs, hsounds⟩ := hc
  have hcode' : code.toArray.size = 0x3d00 := hcode
  simp only [Array.append_assoc]
  generalize himage : c.sprites ++ (c.tiles ++ (c.flags ++ (c.songs ++ (c.sounds ++
    (code.toArray ++ (#[v] ++ rest)))))) = image
  -- from region to region, the address left to go is what the cut subtracts
  have hspritesAt : image.extract 0 0x2000 = c.sprites := by
    rw [← himage, extract_first hsprites]
  have htilesAt : image.extract 0x2000 0x3000 = c.tiles := by
    rw [← himage, extract_behind hsprites (by decide), extract_first htiles]
  have hflagsAt : image.extract 0x3000 0x3100 = c.flags := by
    rw [← himage, extract_behind hsprites (by decide), extract_behind htiles (by decide),
      extract_first hflags]
  have hsongsAt : image.extract 0x3100 0x3200 = c.songs := by
    rw [← himage, extract_behind hsprites (by decide), extract_behind htiles (by decide),
      extract_behind hflags (by decide), extract_first hsongs]
  have hsoundsAt : image.extract 0x3200 0x4300 = c.sounds := by
    rw [← himage, extract_behind hsprites (by decide), extract_behind htiles (by decide),
      extract_behind hflags (by decide), extract_behind hsongs (by decide), extract_first hsounds]
  have hcodeAt : image.extract 0x4300 0x8000 = code.toArray := by
    rw [← himage, extract_behind hsprites (by decide), extract_behind htiles (by decide),
      extract_behind hflags (by decide), extract_behind hsongs (by decide),
      extract_behind hsounds (by decide), extract_first hcode']
  have hversionAt : image.getD 0x8000 0 = v := by
    have hsize : #[v].size = 1 := rfl
    have hone : image.extract 0x8000 0x8001 = #[v] := by
      rw [← himage, extract_behind hsprites (by decide), extract_behind htiles (by decide),
        extract_behind hflags (by decide), extract_behind hsongs (by decide),
        extract_behind hsounds (by decide), extract_behind hcode' (by decide),
        extract_first hsize]
    have hget : (image.extract 0x8000 0x8001)[0]? = some v := by rw [hone]; rfl
    rw [Array.getElem?_extract] at hget
    rw [Array.getD_eq_getD_getElem?]
    split at hget
    · exact congrArg (Option.getD · 0) hget
    · cases hget
  unfold ofImage
  dsimp only
  rw [hversionAt, hcodeAt, hread, hspritesAt, htilesAt, hflagsAt, hsongsAt, hsoundsAt]
  simp only [bind, Except.bind]
  rw [hq]
  rfl

theorem image_eq (hversion : c.version = v.toNat) (hcode : CodeRegion.ofText c.program.source = .ok code) :
    c.image .echo = .ok (c.sprites ++ c.tiles ++ c.flags ++ c.songs ++ c.sounds ++ code.toArray ++
      #[v]) := by
  have hbyte : Region.byte? c.version = some v := by
    rw [hversion, Region.byte?_toNat]
  have hsource : CodeRegion.ofText (c.program.write .echo).lines.flatten = .ok code := hcode
  unfold image
  dsimp only
  rw [hsource, hbyte]
  rfl

/-! ### The round trip -/

theorem overlay_eq_append {data old : Array UInt8} (h : data.size ≤ old.size) :
    Picture.overlay data old = data ++ old.extract data.size old.size := by
  rw [Picture.overlay, Array.extract_eq_self_of_le h]

/-- The source of a program is a program again, whatever version it is read for, with the same tokens
up to places. -/
theorem exists_ofLines_source {v : Int} {pieces : List Bytes} (hcut : LineCut pieces) {p : Program}
    (hp : Program.ofLines v pieces = .ok p) (version : Int) :
    ∃ q, Program.ofLines version [p.source] = .ok q ∧
      q.tokens.toList.map Token.unplaced = p.tokens.toList.map Token.unplaced := by
  obtain ⟨ls, hls, hholds⟩ := Program.holds_of_ofLines hcut hp
  have hsource : p.source = ((echoed ls).map Prod.fst).flatten := hholds.flatten_echo
  have hone : LineCut [p.source] := fun piece hpiece => by cases hpiece
  have hlexed : Lexed [p.source].flatten (echoed ls) := by
    rw [List.flatten_singleton, hsource]
    exact hls.echoed
  have hsnd : (echoed ls).map Prod.snd = ls.map Prod.snd ++ [] := by
    rw [map_snd_echoed, List.append_nil]
  obtain ⟨q, hq, hholds'⟩ := hholds.exists_ofLines version hone hlexed hsnd fun t ht => by cases ht
  refine ⟨q, hq, ?_⟩
  rw [hholds'.tokens_eq, hholds.tokens_eq, map_snd_echoed]

/-- **A cart put into a picture is read from it as it was.**

Let the program of a cart have been read from lines, and let its source be storable.  Let the regions
have their full sizes and the version be one of 1 to 255.  Then the cart has a memory; it can be put
into every picture of four planes and at least 0x8001 pixels; and the cart read from that picture has
the same regions, the same version and the same tokens up to places, and its program took the header
and the packed source. -/
theorem ofImage_reveal_hide {c : Cart} {v : Int} {pieces : List Bytes} (hcut : LineCut pieces)
    (hprogram : Program.ofLines v pieces = .ok c.program)
    (hsource : CodeRegion.Storable c.program.source) (hc : c.FullSize)
    (hversion : 1 ≤ c.version ∧ c.version ≤ 255) {width : Nat} {rows : List (Array UInt8)}
    (hrows : Picture.Sized 4 width rows) (hlarge : 0x8001 ≤ width * rows.length) :
    ∃ memory rows' image c', c.image .echo = .ok memory ∧ Picture.hide memory 4 rows = .ok rows' ∧
      Picture.reveal 4 width rows.length (rows'.map List.toArray) = .ok image ∧
      ofImage image.toArray = .ok c' ∧
      c'.sprites = c.sprites ∧ c'.tiles = c.tiles ∧ c'.flags = c.flags ∧ c'.songs = c.songs ∧
      c'.sounds = c.sounds ∧ c'.version = c.version ∧
      c'.packedSize = some (8 + (Packed.pack c.program.source).length) ∧
      c'.program.tokens.toList.map Token.unplaced =
        c.program.tokens.toList.map Token.unplaced := by
  have hbyte : c.version = (c.version.toNat.toUInt8).toNat := by
    rw [Nat.toUInt8_eq, UInt8.toNat_ofNat']
    omega
  generalize c.version.toNat.toUInt8 = b at hbyte
  have hnonzero : ((b.toNat : Nat) : Int) ≠ 0 := by omega
  obtain ⟨code, hcode, hlength, hread⟩ := CodeRegion.read_ofText hsource hnonzero
  obtain ⟨q, hq, htokens⟩ := exists_ofLines_source hcut hprogram b.toNat
  have hmemory := image_eq hbyte hcode
  generalize hm : c.sprites ++ c.tiles ++ c.flags ++ c.songs ++ c.sounds ++ code.toArray ++ #[b] =
    memory at hmemory
  have hsize : memory.size = 0x8001 := by
    have hcode' : code.length = 0x3d00 := hlength
    rw [← hm]
    simp only [Array.size_append, hc.sprites, hc.tiles, hc.flags, hc.songs, hc.sounds,
      List.size_toArray, hcode', List.length_singleton]
  obtain ⟨rows', old, hhide, -, -, -, hold, hreveal⟩ :=
    Picture.reveal_hide (by decide) hrows memory
  have himage : Picture.overlay memory old.toArray =
      memory ++ old.toArray.extract memory.size old.toArray.size :=
    overlay_eq_append (by rw [hsize, List.size_toArray, hold]; exact hlarge)
  have hcart := ofImage_memory hc hlength hread hq (old.toArray.extract memory.size old.toArray.size)
  rw [hm, ← himage] at hcart
  exact ⟨memory, rows', _, _, hmemory, hhide, hreveal, hcart, rfl, rfl, rfl, rfl, rfl, hbyte.symm, rfl,
    htokens⟩

/-- A program that gets shorter when it is packed, and a literal that is echoed in another way. -/
def packableSource : List Bytes := ["print('\\9')\n", "print(1) print(1)"].map Bytes.ofText

def fullCart (p : Program) : Cart where
  version := 255
  program := p
  sprites := Array.replicate 8192 0x12
  flags := Array.replicate 256 3
  tiles := Array.replicate 4096 4
  sounds := Array.replicate 4352 5
  songs := Array.replicate 256 6
  label := none

theorem ofImage_reveal_hide_full :
    ∃ p, Program.ofLines 8 packableSource = .ok p ∧ CodeRegion.Storable p.source ∧
      (fullCart p).FullSize ∧
      ∃ memory rows' image c', (fullCart p).image .echo = .ok memory ∧
        Picture.hide memory 4 (List.replicate 205 (Array.replicate (160 * 4) 0xff)) = .ok rows' ∧
        Picture.reveal 4 160 205 (rows'.map List.toArray) = .ok image ∧
        ofImage image.toArray = .ok c' ∧ c'.songs = Array.replicate 256 6 ∧ c'.version = 255 ∧
        c'.program.tokens.toList.map Token.unplaced = p.tokens.toList.map Token.unplaced := by
  have hok : (Program.ofLines 8 packableSource).isOk = true := by decide +kernel
  have hcut : LineCut packableSource := by unfold LineCut; decide
  have hsource : ∀ p, Program.ofLines 8 packableSource = .ok p →
      p.source = Bytes.ofText "print('\\t')\nprint(1) print(1)" := by
    have heq : (Program.ofLines 8 packableSource).toOption.map Program.source =
        some (Bytes.ofText "print('\\t')\nprint(1) print(1)") := by decide +kernel
    intro p hp
    rw [hp] at heq
    exact Option.some.inj heq
  have hrows : Picture.Sized 4 160 (List.replicate 205 (Array.replicate (160 * 4) 0xff)) := by
    intro row hrow
    rw [List.eq_of_mem_replicate hrow, Array.size_replicate]
  cases hp : Program.ofLines 8 packableSource with
  | error e => rw [hp] at hok; cases hok
  | ok p =>
    have hstorable : CodeRegion.Storable p.source := by
      rw [hsource p hp]
      exact ⟨by decide, by decide +kernel, by decide, by decide, by decide, by decide +kernel,
        by decide +kernel⟩
    have hfull : (fullCart p).FullSize := ⟨Array.size_replicate, Array.size_replicate,
      Array.size_replicate, Array.size_replicate, Array.size_replicate⟩
    have hlarge : 0x8001 ≤
        160 * (List.replicate 205 (Array.replicate (160 * 4) (0xff : UInt8))).length := by
      rw [List.length_replicate]
      decide
    have hversion : 1 ≤ (fullCart p).version ∧ (fullCart p).version ≤ 255 := by
      show (1 : Int) ≤ 255 ∧ (255 : Int) ≤ 255
      decide
    obtain ⟨memory, rows', image, c', hmemory, hhide, hreveal, hread, -, -, -, hsongs, -, hsame, -,
      htokens⟩ := ofImage_reveal_hide (c := fullCart p) hcut hp hstorable hfull hversion hrows hlarge
    rw [List.length_replicate] at hreveal
    exact ⟨p, rfl, hstorable, hfull, memory, rows', image, c', hmemory, hhide, hreveal, hread, hsongs,
      hsame, htokens⟩

end Cartridge.Cart
