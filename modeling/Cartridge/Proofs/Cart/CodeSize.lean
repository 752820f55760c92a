import Cartridge.Proofs.Cart.LoadedSizes
import Cartridge.Proofs.Lua.FirstStatements

/-!
# The packed size of a program

A cart that was read from a text packs its program to find out how many bytes it takes.  One that was read
from a picture knows where unpacking stopped, and that counts from the start of the code region.  So the
same program takes eight bytes more there, the mark and the length in front of it.
-/

namespace Cartridge.Cart

open Lua

variable {c c' : Cart} {text b : Bytes} {file : TextFile} {image : Array UInt8}

theorem program_of_readPart {ls : List Bytes} {q : Part} (h : c.readPart ls q = .ok c') :
    c'.version = c.version ∧ c'.packedSize = c.packedSize ∧
      if q = .program then Program.ofLines c.version ls = .ok c'.program else c'.program = c.program := by
  cases q <;> obtain ⟨_, hread, h⟩ := exists_of_bind_eq_ok h <;> cases h
  case program => exact ⟨rfl, rfl, hread⟩
  all_goals exact ⟨rfl, rfl, rfl⟩

theorem program_of_readSections {secs : List (Bytes × List Bytes)} (hnames : (secs.map Prod.fst).Nodup)
    (h : c.readSections secs = .ok c') :
    c'.packedSize = c.packedSize ∧ (secs.lookup Part.program.name).elim (c'.program = c.program)
      fun ls => Program.ofLines c.version ls = .ok c'.program := by
  induction secs generalizing c with
  | nil =>
    cases h
    exact ⟨rfl, rfl⟩
  | cons s secs ih =>
    obtain ⟨name, ls⟩ := s
    rw [List.map_cons, List.nodup_cons] at hnames
    obtain ⟨c₁, hread, hrest⟩ := exists_of_bind_eq_ok h
    obtain ⟨q, rfl, hpart⟩ := exists_part_of_readSection hread
    obtain ⟨hversion, hsize, hprogram⟩ := program_of_readPart hpart
    obtain ⟨hsize', hprogram'⟩ := ih hnames.2 hrest
    refine ⟨hsize'.trans hsize, ?_⟩
    rw [List.lookup_cons]
    by_cases heq : q = .program
    · subst heq
      rw [lookup_eq_none hnames.1] at hprogram'
      rw [if_pos rfl, ← show c'.program = c₁.program from hprogram'] at hprogram
      rw [beq_self_eq_true]
      exact hprogram
    · have hname : (Part.program.name == q.name) = false :=
        beq_eq_false_iff_ne.mpr fun hname => heq (Part.name_inj hname).symm
      rw [if_neg heq] at hprogram
      rw [hversion, hprogram] at hprogram'
      rw [hname]
      exact hprogram'

/-- A text file and a picture of version 8 that hold the same program text, which the picture has room for
and which is written as it is read. -/
structure InBoth (text : Bytes) (file : TextFile) (image : Array UInt8) : Prop where
  storable : CodeRegion.Storable text
  lines_eq : file.lines? .program = some (Bytes.lines text)
  echo : ∃ p, Program.ofLines file.version (Bytes.lines text) = .ok p ∧ p.source = text
  version_eq : image.getD 0x8000 0 = 8
  code_eq : CodeRegion.ofText text = .ok (image.extract 0x4300 0x8000).toList

theorem InBoth.codeSize_eq (h : InBoth text file image) (hfile : TextFile.ofBytes b = .ok file)
    (hc : ofTextFile b = .ok c) : c.codeSize = (Packed.pack text).length := by
  obtain ⟨p, hp, hsource⟩ := h.echo
  obtain ⟨f, hf, hread⟩ := exists_of_bind_eq_ok hc
  obtain rfl : f = file := Except.ok.inj (hf.symm.trans hfile)
  obtain ⟨hsize, hprogram⟩ := program_of_readSections (TextFile.nodup_of_ofBytes hf) hread
  have hlines : f.sections.lookup Part.program.name = some (Bytes.lines text) := h.lines_eq
  rw [hlines] at hprogram
  have hsame : c.program = p := Except.ok.inj (hprogram.symm.trans hp)
  rw [codeSize, hsize, hsame, hsource]
  rfl

theorem InBoth.exists_ofImage (h : InBoth text file image) :
    ∃ c, ofImage image = .ok c ∧ c.codeSize = (Packed.pack text).length + 8 := by
  obtain ⟨p, hp, hsource⟩ := h.echo
  obtain ⟨region, hregion, -, hread⟩ := CodeRegion.read_ofText h.storable (show (8 : Int) ≠ 0 by decide)
  obtain rfl : _ = region := Except.ok.inj (h.code_eq.symm.trans hregion)
  obtain ⟨q, hq, -⟩ := exists_ofLines_source (lineCut_lines text) hp 8
  rw [hsource] at hq
  have hversion : ((image.getD 0x8000 0).toNat : Int) = 8 := by
    rw [h.version_eq]
    rfl
  unfold ofImage
  dsimp only
  rw [hversion, hread]
  simp only [bind, Except.bind]
  rw [hq]
  exact ⟨_, rfl, Nat.add_comm 8 _⟩

/-- **The sizes differ by the header**: that of a program read from a picture counts the eight bytes in front
of the packed text. -/
theorem codeSize_ofImage (h : InBoth text file image) (hfile : TextFile.ofBytes b = .ok file)
    (hc : ofTextFile b = .ok c) : ∃ c', ofImage image = .ok c' ∧ c'.codeSize = c.codeSize + 8 := by
  obtain ⟨c', hc', hsize⟩ := h.exists_ofImage
  rw [h.codeSize_eq hfile hc]
  exact ⟨c', hc', hsize⟩

def callsFile : Bytes :=
  TextFile.titleLine ++ Bytes.ofText "version 8\n" ++ delimiter .program ++ CodeRegion.calls

theorem exists_inBoth_calls :
    ∃ file image c, InBoth CodeRegion.calls file image ∧ TextFile.ofBytes callsFile = .ok file ∧
      ofTextFile callsFile = .ok c := by
  obtain ⟨region, hregion, hlength, -⟩ :=
    CodeRegion.read_ofText CodeRegion.storable_calls (show (8 : Int) ≠ 0 by decide)
  have hfront : (Array.replicate 0x4300 (0 : UInt8)).size = 0x4300 := Array.size_replicate
  have hsize : region.toArray.size = 0x3d00 := hlength
  have hcode : (Array.replicate 0x4300 0 ++ (region.toArray ++ #[8])).extract 0x4300 0x8000 =
      region.toArray := by
    rw [extract_behind hfront (by decide), extract_first hsize]
  have hversion : (Array.replicate 0x4300 0 ++ (region.toArray ++ #[8])).getD 0x8000 0 = (8 : UInt8) := by
    rw [Array.getD_eq_getD_getElem?, Array.getElem?_append_right (by rw [hfront]; decide), hfront,
      Array.getElem?_append_right (Nat.le_of_eq hsize), hsize]
    rfl
  have hfile : TextFile.ofBytes callsFile =
      .ok ⟨8, [(Part.program.name, Bytes.lines CodeRegion.calls)]⟩ := by
    decide +kernel
  have hecho : (Program.ofLines 8 (Bytes.lines CodeRegion.calls)).toOption.map Program.source =
      some CodeRegion.calls := by
    decide +kernel
  have hok : (ofTextFile callsFile).toOption.isSome = true := by
    decide +kernel
  obtain ⟨c, hc⟩ := Option.isSome_iff_exists.mp hok
  obtain ⟨p, hp, hsource⟩ := Option.map_eq_some_iff.mp hecho
  have hboth : InBoth CodeRegion.calls ⟨8, [(Part.program.name, Bytes.lines CodeRegion.calls)]⟩
      (Array.replicate 0x4300 0 ++ (region.toArray ++ #[8])) := by
    refine ⟨CodeRegion.storable_calls, ?_, ⟨p, eq_ok_of_toOption hp, hsource⟩, hversion, ?_⟩
    · simp [TextFile.lines?]
    · rw [hcode]
      exact hregion
  exact ⟨_, _, c, hboth, hfile, eq_ok_of_toOption hc⟩

theorem codeSize_ofImage_calls :
    ∃ file image c c', InBoth CodeRegion.calls file image ∧ TextFile.ofBytes callsFile = .ok file ∧
      ofTextFile callsFile = .ok c ∧ ofImage image = .ok c' ∧ c'.codeSize = c.codeSize + 8 := by
  obtain ⟨file, image, c, h, hfile, hc⟩ := exists_inBoth_calls
  obtain ⟨c', hc', hsize⟩ := codeSize_ofImage h hfile hc
  exact ⟨file, image, c, c', h, hfile, hc, hc', hsize⟩

/-- **The size of a program depends on where it was read from.** -/
theorem codeSize_differs :
    ∃ file image c c', InBoth CodeRegion.calls file image ∧ TextFile.ofBytes callsFile = .ok file ∧
      ofTextFile callsFile = .ok c ∧ ofImage image = .ok c' ∧ c.codeSize = 11 ∧ c'.codeSize = 19 := by
  obtain ⟨file, image, c, h, hfile, hc⟩ := exists_inBoth_calls
  obtain ⟨c', hc', hsize⟩ := h.exists_ofImage
  have hpack : (Packed.pack CodeRegion.calls).length = 11 := by decide +kernel
  rw [hpack] at hsize
  exact ⟨file, image, c, c', h, hfile, hc, hc', (h.codeSize_eq hfile hc).trans hpack, hsize⟩

end Cartridge.Cart
