import Cartridge.Proofs.Cart.Patching
import Cartridge.Proofs.Cart.TextRoundTrip
import Cartridge.Proofs.Memory.RegionSizes

/-!
# The sizes of the regions of a cart that is read from its text

Each section of a text replaces a part of a cart that is empty but full-sized.  So a
region whose section is missing has its full size, and the sounds always do.  The
other regions are as long as their sections say: the cart of a text has full-sized
regions just if every section that is there spells a full-sized one.
-/

namespace Cartridge

open List

namespace TextFile

def lines? (f : TextFile) (p : Cart.Part) : Option (List Bytes) := f.sections.lookup p.name

theorem mem_insert {name x : Bytes} {ls : List Bytes} {s : List (Bytes × List Bytes)} :
    x ∈ (insert name ls s).map Prod.fst ↔ x = name ∨ x ∈ s.map Prod.fst := by
  induction s with
  | nil => rw [insert, map_singleton, mem_singleton, map_nil, mem_nil_iff, or_false]
  | cons t s ih =>
    rw [insert]
    split
    · next h =>
      subst h
      rw [map_cons, map_cons, mem_cons, or_self_left]
    · rw [map_cons, map_cons, mem_cons, mem_cons, ih, or_left_comm]

theorem nodup_insert {s : List (Bytes × List Bytes)} (h : (s.map Prod.fst).Nodup) (name : Bytes)
    (ls : List Bytes) : ((insert name ls s).map Prod.fst).Nodup := by
  induction s with
  | nil => exact nodup_cons.mpr ⟨not_mem_nil, nodup_nil⟩
  | cons t s ih =>
    rw [map_cons, nodup_cons] at h
    rw [insert]
    split
    · next hname =>
      subst hname
      exact nodup_cons.mpr h
    · next hname =>
      rw [map_cons, nodup_cons, mem_insert, not_or]
      exact ⟨⟨hname, h.1⟩, ih h.2⟩

theorem nodup_of_ofBytes {b : Bytes} {f : TextFile} (h : ofBytes b = .ok f) :
    (f.sections.map Prod.fst).Nodup := by
  have hfold : ∀ (s acc : List (Bytes × List Bytes)), (acc.map Prod.fst).Nodup →
      ((s.foldl (fun s (p : Bytes × List Bytes) => insert p.1 p.2 s) acc).map Prod.fst).Nodup := by
    intro s
    induction s with
    | nil => exact fun acc hacc => hacc
    | cons t s ih => exact fun acc hacc => ih _ (nodup_insert hacc t.1 t.2)
  rw [ofBytes] at h
  split at h
  · split at h
    · split at h
      · cases h
        exact hfold _ [] nodup_nil
      · cases h
    · cases h
  · cases h

end TextFile

namespace Cart

/-! ### The sizes of parts -/

namespace Part

/-- How many bytes of memory the region of a part has. The program and the picture on the cart are
not kept in regions of their own. -/
def size (c : Cart) : Part → Nat
  | sprites => c.sprites.size
  | tiles => c.tiles.size
  | flags => c.flags.size
  | songs => c.songs.size
  | sounds => c.sounds.size
  | program | label => 0

def fullSize : Part → Nat
  | sprites => 8192
  | tiles => 4096
  | flags => 256
  | songs => 256
  | sounds => 4352
  | program | label => 0

/-- How many bytes of memory the lines of a part's section spell: one for two digits, or four for a
line of a song. The sounds are never longer or shorter than they have to be. -/
def sizeOfLines (ls : List Bytes) : Part → Nat
  | sprites => Hex.spelled (ls.filter fun l => l.length == 129).flatten / 2
  | tiles | flags => Hex.spelled ls.flatten / 2
  | songs => 4 * ls.countP fun l => l.contains 32
  | sounds => 4352
  | program | label => 0

theorem name_of_ofName? {b : Bytes} {p : Part} (h : ofName? b = some p) : p.name = b :=
  eq_of_beq (find?_some (p := fun p : Part => p.name == b) h)

theorem name_inj {p q : Part} (h : p.name = q.name) : p = q := by
  have hp := ofName?_name p
  rw [h, ofName?_name] at hp
  exact (Option.some.inj hp).symm

end Part

theorem fullSize_iff {c : Cart} : c.FullSize ↔ ∀ p : Part, p.size c = p.fullSize := by
  constructor
  · intro h p
    cases p with
    | program => rfl
    | label => rfl
    | sprites => exact h.sprites
    | flags => exact h.flags
    | tiles => exact h.tiles
    | sounds => exact h.sounds
    | songs => exact h.songs
  · intro h
    exact ⟨h .sprites, h .tiles, h .flags, h .songs, h .sounds⟩

/-! ### Reading sections -/

theorem size_of_readPart {c c' : Cart} {ls : List Bytes} {q : Part} (h : c.readPart ls q = .ok c')
    (p : Part) : p.size c' = if p = q then p.sizeOfLines ls else p.size c := by
  have half {n m : Nat} (h : 2 * n = m) : n = m / 2 := by omega
  split
  · next heq =>
    subst heq
    cases p <;> (obtain ⟨_, hread, h⟩ := exists_of_bind_eq_ok h; cases h)
    case program => rfl
    case label => rfl
    case sprites => exact half (SpriteSheet.size_of_ofLines hread)
    case flags => exact half (Region.size_of_ofHexLines hread)
    case tiles => exact half (Region.size_of_ofHexLines hread)
    case sounds => exact Sounds.size_of_ofLines hread
    case songs => exact Songs.size_of_ofLines hread
  · next hne =>
    -- a section changes one field of the cart
    cases q <;> obtain ⟨_, -, h⟩ := exists_of_bind_eq_ok h <;> cases h <;> cases p <;>
      first | rfl | exact absurd rfl hne

theorem exists_part_of_readSection {c c' : Cart} {name : Bytes} {ls : List Bytes}
    (h : c.readSection name ls = .ok c') : ∃ q : Part, q.name = name ∧ c.readPart ls q = .ok c' := by
  rw [readSection] at h
  split at h
  · next q hq => exact ⟨q, Part.name_of_ofName? hq, h⟩
  · cases h

theorem lookup_eq_none {secs : List (Bytes × List Bytes)} {name : Bytes} (h : name ∉ secs.map Prod.fst) :
    secs.lookup name = none := by
  rw [lookup_eq_none_iff]
  intro t ht
  rw [bne_iff_ne]
  rintro rfl
  exact h (mem_map_of_mem ht)

theorem size_of_readSections {secs : List (Bytes × List Bytes)} (hnames : (secs.map Prod.fst).Nodup)
    {c c' : Cart} (h : c.readSections secs = .ok c') (p : Part) :
    p.size c' = (secs.lookup p.name).elim (p.size c) fun ls => p.sizeOfLines ls := by
  induction secs generalizing c with
  | nil =>
    cases h
    rfl
  | cons s secs ih =>
    obtain ⟨name, ls⟩ := s
    rw [map_cons, nodup_cons] at hnames
    obtain ⟨c₁, hread, hrest⟩ := exists_of_bind_eq_ok h
    obtain ⟨q, rfl, hpart⟩ := exists_part_of_readSection hread
    have hsize := size_of_readPart hpart p
    rw [ih hnames.2 hrest, lookup_cons]
    by_cases heq : p = q
    · subst heq
      rw [if_pos rfl] at hsize
      rw [lookup_eq_none hnames.1, beq_self_eq_true]
      exact hsize
    · have hname : (p.name == q.name) = false :=
        beq_eq_false_iff_ne.mpr fun hname => heq (Part.name_inj hname)
      rw [if_neg heq] at hsize
      rw [hname, hsize]

/-- **A cart that was read from a text has full-sized sounds, and its other regions are full-sized
just if their sections, as far as they are there, spell full-sized regions.** -/
theorem fullSize_iff_of_ofTextFile {b : Bytes} {c : Cart} (h : ofTextFile b = .ok c) :
    ∃ f, TextFile.ofBytes b = .ok f ∧ c.sounds.size = 4352 ∧
      (∀ p : Part, p.size c = (f.lines? p).elim p.fullSize fun ls => p.sizeOfLines ls) ∧
      (c.FullSize ↔ ∀ (p : Part) ls, f.lines? p = some ls → p.sizeOfLines ls = p.fullSize) := by
  obtain ⟨f, hf, hread⟩ := exists_of_bind_eq_ok h
  have hsize : ∀ p : Part, p.size c = (f.lines? p).elim p.fullSize fun ls => p.sizeOfLines ls := by
    intro p
    have hblank := fullSize_iff.mp (fullSize_blank standardVersion) p
    rw [size_of_readSections (TextFile.nodup_of_ofBytes hf) hread p, ← hblank]
    cases p <;> rfl
  have hsounds : c.sounds.size = 4352 := by
    have hpart : c.sounds.size = (f.lines? .sounds).elim 4352 fun _ => 4352 := hsize .sounds
    rw [hpart]
    cases f.lines? .sounds <;> rfl
  refine ⟨f, hf, hsounds, hsize, ?_⟩
  rw [fullSize_iff]
  constructor
  · intro hfull p ls hls
    have hp := hsize p
    rw [hls, hfull p] at hp
    exact hp.symm
  · intro hspell p
    rw [hsize p]
    cases hls : f.lines? p with
    | none => rfl
    | some ls => exact hspell p ls hls

def zerosText (p : Part) (width count : Nat) : Bytes :=
  TextFile.titleLine ++ Bytes.ofText "version 8\n" ++ delimiter p ++
    (replicate count (replicate width 48 ++ [Bytes.newline])).flatten

/-- Two lines of 256 digits are flags of full size. -/
theorem fullSize_iff_of_ofTextFile_flags :
    ∃ c, ofTextFile (zerosText .flags 256 2) = .ok c ∧ c.FullSize := by
  have hloads : (ofTextFile (zerosText .flags 256 2)).toOption.isSome = true := by decide +kernel
  have hsections : (TextFile.ofBytes (zerosText .flags 256 2)).toOption =
      some ⟨8, [(Part.flags.name, List.replicate 2 (List.replicate 256 48 ++ [Bytes.newline]))]⟩ := by
    decide +kernel
  obtain ⟨c, hc⟩ := Option.isSome_iff_exists.mp hloads
  obtain ⟨f, hf, -, -, hfull⟩ := fullSize_iff_of_ofTextFile (eq_ok_of_toOption hc)
  refine ⟨c, eq_ok_of_toOption hc, hfull.mpr ?_⟩
  rw [eq_ok_of_toOption hsections] at hf
  cases hf
  intro p ls hls
  cases p
  case flags =>
    cases hls
    decide +kernel
  all_goals cases hls

/-- One row of pixels is read as a sheet of one row. -/
theorem size_sprites_of_one_row :
    ∃ c, ofTextFile (zerosText .sprites 128 1) = .ok c ∧ c.sprites.size = 64 := by
  have hloads : (ofTextFile (zerosText .sprites 128 1)).toOption.map (fun c => c.sprites.size) =
      some 64 := by
    decide +kernel
  obtain ⟨c, hc, hsize⟩ := Option.map_eq_some_iff.mp hloads
  exact ⟨c, eq_ok_of_toOption hc, hsize⟩

end Cart
end Cartridge
