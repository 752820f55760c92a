import Cartridge.Cart.Patch
import Cartridge.Proofs.Cart.ImageRoundTrip

/-!
# Writing to cart memory

Data written at an address goes to every region that it touches, and each region cuts its own part out
of the data.  A region that the data starts in, ends in or runs through gets the bytes that belong to
it.  Only where the data ends together with a region does the cut go wrong: the part should end as many
bytes before the end of the data as the data goes beyond the region, and to count no bytes back is to
name the front of the data.  The region then gets nothing and loses the bytes that the data covers.
-/

namespace Cartridge

open Array

namespace Slice

end Slice

namespace Cart

/-! ### One region -/

section Regions

variable {data : Array UInt8} {address start stop : Nat}

def overwrite (memory data : Array UInt8) (address : Nat) : Array UInt8 :=
  memory.extract 0 address ++ data ++ memory.extract (address + data.size)

variable {memory : Array UInt8}

end Regions

/-! ### The whole memory -/

def memory (c : Cart) : Array UInt8 := c.sprites ++ c.tiles ++ c.flags ++ c.songs ++ c.sounds

/-- The regions of the cart are the parts of memory between the addresses where regions end. -/
structure CutFrom (c : Cart) (m : Array UInt8) : Prop where
  sprites : c.sprites = m.extract 0 0x2000
  tiles : c.tiles = m.extract 0x2000 0x3000
  flags : c.flags = m.extract 0x3000 0x3100
  songs : c.songs = m.extract 0x3100 0x3200
  sounds : c.sounds = m.extract 0x3200 0x4300

section Carts

variable {c : Cart} {m data : Array UInt8} {address : Nat}

theorem CutFrom.fullSize (h : c.CutFrom m) (hm : m.size = 0x4300) : c.FullSize := by
  refine ⟨?_, ?_, ?_, ?_, ?_⟩
  · rw [h.sprites, size_extract, hm]
    rfl
  · rw [h.tiles, size_extract, hm]
    rfl
  · rw [h.flags, size_extract, hm]
    rfl
  · rw [h.songs, size_extract, hm]
    rfl
  · rw [h.sounds, size_extract, hm]
    rfl

theorem FullSize.cutFrom (hc : c.FullSize) : c.CutFrom c.memory := by
  obtain ⟨hsprites, htiles, hflags, hsongs, hsounds⟩ := hc
  have hmemory : c.memory = c.sprites ++ (c.tiles ++ (c.flags ++ (c.songs ++ c.sounds))) := by
    simp only [memory, append_assoc]
  rw [hmemory]
  refine ⟨?_, ?_, ?_, ?_, ?_⟩
  · rw [extract_first hsprites]
  · rw [extract_behind hsprites (by decide), extract_first htiles]
  · rw [extract_behind hsprites (by decide), extract_behind htiles (by decide), extract_first hflags]
  · rw [extract_behind hsprites (by decide), extract_behind htiles (by decide),
      extract_behind hflags (by decide), extract_first hsongs]
  · rw [extract_behind hsprites (by decide), extract_behind htiles (by decide),
      extract_behind hflags (by decide), extract_behind hsongs (by decide),
      extract_eq_self_of_le (Nat.le_of_eq hsounds)]

end Carts

theorem fullSize_blank (version : Int) : (blank version).FullSize := by
  have hsongs : Songs.blank.size = 256 := by
    rw [Songs.blank, Region.size_foldl_replicate]
    rfl
  exact ⟨size_replicate, size_replicate, size_replicate, hsongs, Sounds.size_blank⟩

end Cart
end Cartridge
