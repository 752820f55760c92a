import Cartridge.Packed.CodeRegion
import Cartridge.Proofs.Packed.RoundTrip

/-!
# Text put into the code region

A text is stored packed, behind the mark and its length, and the rest of the region is zeros.  Reading
unpacks what is behind the mark and takes no account of the zeros.
-/

namespace Cartridge.CodeRegion

open Packed

structure Storable (text : Bytes) : Prop where
  length_lt : text.length < 65536
  not_smooth : ¬Bytes.ofText "_update60" <:+: text
  no_return : 13 ∉ text
  head_ne : text.head? ≠ some 0
  last_ne : text.getLast? ≠ some 0
  shorter : (pack text).length < text.length
  fits : 8 + (pack text).length ≤ 0x3d00

theorem length_pad {b : Bytes} (h : b.length ≤ size) : (pad b).length = size := by
  rw [pad, List.length_append, List.length_replicate]
  omega

theorem length_packed (text ops : Bytes) : (packed text ops).length = 8 + ops.length := by
  rw [packed, List.length_append, List.length_append]
  rfl

theorem packed_eq_framed (text : Bytes) (ops : List Op) :
    packed text (ops.flatMap Op.encode) = framed mark text.length ops := by
  have hlow : (text.length % 256).toUInt8 = text.length.toUInt8 := by
    apply UInt8.toNat_inj.mp
    simp
  rw [packed, framed, lengthBytes, hlow]
  simp only [List.append_assoc, List.cons_append, List.nil_append]

theorem ofText_eq {text : Bytes} (hlength : text.length < 65536)
    (hshorter : (pack text).length < text.length) :
    ofText text
      = .ok (framed mark text.length (plan (withFallback text)) ++
          List.replicate (size - (packed text (pack text)).length) 0) := by
  rw [ofText, if_neg (by omega), if_neg (by omega), pad, pack, packed_eq_framed]

theorem read_of_mark {version : Int} (hversion : version ≠ 0) {region : Bytes}
    (hmark : region.take 4 = mark) :
    read version region = (do
      let u ← unpack region
      return { u with text := u.text.map fun c => if c = 13 then 32 else c }) := by
  have hnot : ¬(version = 0 ∨ region.take 4 ≠ mark) := by
    rintro (h | h)
    · exact hversion h
    · exact h hmark
  rw [read, if_neg hnot]

theorem map_of_no_return {text : Bytes} (h : 13 ∉ text) :
    (text.map fun c => if c = 13 then 32 else c) = text := by
  have hsame : ∀ c ∈ text, (if c = 13 then 32 else c) = c := by
    intro c hc
    rw [if_neg]
    rintro rfl
    exact h hc
  rw [List.map_congr_left hsame, List.map_id']

/-- **A storable text is read from the region as it was put in**, and it is known how many bytes of
the region it takes. -/
theorem read_ofText {text : Bytes} (h : Storable text) {version : Int} (hversion : version ≠ 0) :
    ∃ region, ofText text = .ok region ∧ region.length = size ∧
      read version region =
        .ok { length := text.length, text := text, packedSize := some (8 + (pack text).length) } := by
  obtain ⟨hearly, hlate⟩ := not_suffix_of_not_smooth h.not_smooth
  have hplan := expand_plan text
  have hmark : mark.length = 4 := rfl
  refine ⟨_, ofText_eq h.length_lt h.shorter, ?_, ?_⟩
  · rw [← packed_eq_framed]
    exact length_pad (by rw [length_packed]; exact h.fits)
  · have hunpack := unpack_operations hmark (allFit_plan text)
      (by rw [hplan]; exact Nat.le_of_lt_succ h.length_lt) (by rw [hplan]; exact h.head_ne)
      (by rw [hplan]; exact h.last_ne) (by rw [hplan]; exact hearly) (by rw [hplan]; exact hlate)
      (List.replicate (size - (packed text (pack text)).length) 0)
    rw [hplan] at hunpack
    rw [read_of_mark hversion rfl, withFallback_of_not_smooth h.not_smooth, hunpack]
    simp only [bind, Except.bind, map_of_no_return h.no_return, pack,
      withFallback_of_not_smooth h.not_smooth]
    rfl

/-! ### The version -/

theorem read_zero_of_mark (rest : Bytes) :
    read 0 (mark ++ rest) =
      .ok { length := 3, text := Bytes.ofText ":c:\n", packedSize := none } := by
  have hlength : ((mark ++ rest).takeWhile (· != 0)).length = 3 := rfl
  have hzero : (mark ++ rest).contains 0 = true := rfl
  rw [read, if_pos (.inl rfl), hzero, if_pos rfl, hlength]
  rfl

theorem not_shorter_of_mark : ¬(pack (Bytes.ofText ":c:\n")).length < (Bytes.ofText ":c:\n").length := by
  decide +kernel

/-- **The version decides whether a storable text is read as it was put in**: it is for every version
but 0, which is read as plain text although the text was stored packed. -/
theorem read_ofText_iff_version {text : Bytes} (h : Storable text) (version : UInt8) :
    ∃ region u, ofText text = .ok region ∧ region.length = size ∧
      read version.toNat region = .ok u ∧ (u.text = text ↔ version ≠ 0) := by
  have hother : (8 : Int) ≠ 0 := by decide
  obtain ⟨region, hregion, hsize, hread⟩ := read_ofText h hother
  by_cases hversion : version = 0
  · subst hversion
    have hmark : region = mark ++ region.drop 4 := by
      rw [ofText_eq h.length_lt h.shorter] at hregion
      rw [← Except.ok.inj hregion]
      rfl
    have hzero := read_zero_of_mark (region.drop 4)
    rw [← hmark] at hzero
    refine ⟨region, _, hregion, hsize, hzero, ?_⟩
    constructor
    · rintro rfl
      exact absurd h.shorter not_shorter_of_mark
    · intro hne
      exact absurd rfl hne
  · have hnumber : (version.toNat : Int) ≠ 0 := by
      intro hzero
      apply hversion
      apply UInt8.toNat_inj.mp
      rw [UInt8.toNat_zero]
      omega
    obtain ⟨region', hregion', hsize', hread'⟩ := read_ofText h hnumber
    exact ⟨region', _, hregion', hsize', hread', iff_of_true rfl hversion⟩

def calls : Bytes := Bytes.ofText "print(1) print(1)"

theorem storable_calls : Storable calls :=
  ⟨by decide, by decide +kernel, by decide, by decide, by decide, by decide +kernel,
    by decide +kernel⟩

theorem read_ofText_version_calls :
    Storable calls ∧ ∃ region u, ofText calls = .ok region ∧ read 255 region = .ok u ∧
      u.text = calls := by
  obtain ⟨region, u, hregion, -, hread, htext⟩ := read_ofText_iff_version storable_calls 255
  exact ⟨storable_calls, region, u, hregion, hread, htext.mpr (by decide)⟩

/-- Of the text only the mark in front of it is read. -/
theorem read_ofText_version_zero :
    Storable calls ∧ ∃ region u, ofText calls = .ok region ∧ read 0 region = .ok u ∧
      u.text = Bytes.ofText ":c:\n" ∧ u.text ≠ calls := by
  refine ⟨storable_calls, _, _, ofText_eq storable_calls.length_lt storable_calls.shorter,
    read_zero_of_mark _, rfl, ?_⟩
  decide

end Cartridge.CodeRegion
