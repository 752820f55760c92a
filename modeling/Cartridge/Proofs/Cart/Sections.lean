import Cartridge.Cart.TextFile
import Cartridge.Proofs.Text.Lines

/-!
# The sections of a cart text

A section starts with a line that holds its name between double underscores, and
goes on up to the next such line.  So sections that are written one after another,
with no such line among their own, are found again as they were written; and if
their names differ, none takes the place of another.
-/

namespace Cartridge.TextFile

open Cart List Bytes

variable {l name : Bytes} {s : List (Bytes × List Bytes)} {secs : List (Part × List Bytes)}

/-! ### Lines that start a section -/

theorem after?_eq_some_iff {start s rest : Bytes} :
    after? start s = some rest ↔ s = start ++ rest := by
  rw [after?]
  constructor
  · intro h
    split at h
    · next hp =>
      obtain ⟨r, rfl⟩ := isPrefixOf_iff_prefix.mp hp
      rw [drop_left] at h
      rw [Option.some.inj h]
    · cases h
  · rintro rfl
    rw [if_pos (List.isPrefixOf_iff_prefix.mpr (prefix_append start rest)), drop_left]

def delimiterLine (name : Bytes) : Bytes := ofText "__" ++ name ++ delimiterEnd

theorem sectionName?_eq_some_iff :
    sectionName? l = some name ↔
      l = delimiterLine name ∧ name ≠ [] ∧ ∀ c ∈ name, isWord c = true := by
  have hdrop : ∀ x : Bytes, (x ++ delimiterEnd).take ((x ++ delimiterEnd).length - delimiterEnd.length)
      = x := by
    intro x
    rw [length_append, Nat.add_sub_cancel, take_left]
  rw [sectionName?, Option.bind_eq_bind, Option.bind_eq_some_iff]
  constructor
  · rintro ⟨rest, hrest, h⟩
    rw [after?_eq_some_iff] at hrest
    split at h
    · next hend =>
      obtain ⟨x, rfl⟩ := isSuffixOf_iff_suffix.mp hend
      simp only [hdrop] at h
      split at h
      · next hname =>
        obtain rfl := Option.some.inj h
        rw [hrest, delimiterLine, append_assoc]
        exact ⟨rfl, hname.1, all_eq_true.mp hname.2⟩
      · cases h
    · cases h
  · rintro ⟨rfl, hne, hword⟩
    refine ⟨name ++ delimiterEnd, ?_, ?_⟩
    · rw [after?_eq_some_iff, delimiterLine, append_assoc]
    · rw [if_pos (isSuffixOf_iff_suffix.mpr (suffix_append _ _))]
      simp only [hdrop]
      rw [if_pos ⟨hne, all_eq_true.mpr hword⟩]

theorem facts_of_sectionName? (h : sectionName? l = some name) :
    l.head? = some 95 ∧ ∀ c ∈ l, isWord c = true ∨ c = newline := by
  obtain ⟨rfl, -, hword⟩ := sectionName?_eq_some_iff.mp h
  refine ⟨rfl, fun c hc => ?_⟩
  have hmarks : ∀ c ∈ ofText "__", isWord c = true := by decide +kernel
  have hend : ∀ c ∈ delimiterEnd, isWord c = true ∨ c = newline := by
    decide +kernel
  rw [delimiterLine, mem_append, mem_append] at hc
  rcases hc with (hc | hc) | hc
  · exact .inl (hmarks c hc)
  · exact .inl (hword c hc)
  · exact hend c hc

theorem sectionName?_delimiter (p : Part) : sectionName? (delimiter p) = some p.name := by
  cases p <;> decide

theorem isLine_delimiter (p : Part) : IsLine (delimiter p) := by
  refine ⟨ofText "__" ++ p.name ++ ofText "__", ?_, ?_⟩
  · cases p <;> decide
  · cases p <;> rfl

/-! ### Sections one after another -/

theorem blocks_append {ls : List Bytes} (h : ∀ l ∈ ls, sectionName? l = none) (rest : List Bytes) :
    blocks (ls ++ rest) = (ls ++ (blocks rest).1, (blocks rest).2) := by
  induction ls with
  | nil => rfl
  | cons l ls ih =>
    rw [cons_append, blocks, h l mem_cons_self,
      ih fun m hm => h m (mem_cons_of_mem l hm)]
    rfl

def sectionLines (secs : List (Part × List Bytes)) : List Bytes :=
  secs.flatMap fun s => delimiter s.1 :: s.2

def named (secs : List (Part × List Bytes)) : List (Bytes × List Bytes) :=
  secs.map fun s => (s.1.name, s.2)

theorem blocks_sectionLines (h : ∀ s ∈ secs, ∀ l ∈ s.2, sectionName? l = none) :
    blocks (sectionLines secs) = ([], named secs) := by
  induction secs with
  | nil => rfl
  | cons s secs ih =>
    have hrest := ih fun t ht => h t (mem_cons_of_mem s ht)
    have hown := blocks_append (h s mem_cons_self) (sectionLines secs)
    have hcons : sectionLines (s :: secs) = delimiter s.1 :: (s.2 ++ sectionLines secs) := rfl
    rw [hcons, blocks, hown, hrest, sectionName?_delimiter, append_nil]
    rfl

theorem insert_of_not_mem (h : name ∉ s.map Prod.fst) (ls : List Bytes) :
    insert name ls s = s ++ [(name, ls)] := by
  induction s with
  | nil => rfl
  | cons t s ih =>
    rw [map_cons, mem_cons, not_or] at h
    rw [insert, if_neg (Ne.symm h.1), ih h.2, cons_append]

theorem foldl_insert {acc : List (Bytes × List Bytes)} (h : ((acc ++ s).map Prod.fst).Nodup) :
    s.foldl (fun s (p : Bytes × List Bytes) => insert p.1 p.2 s) acc = acc ++ s := by
  induction s generalizing acc with
  | nil => rw [foldl_nil, append_nil]
  | cons t s ih =>
    have hnot : t.1 ∉ acc.map Prod.fst := by
      rw [map_append, map_cons] at h
      intro hmem
      exact (nodup_append.mp h).2.2 _ hmem _ mem_cons_self rfl
    have happend : acc ++ t :: s = acc ++ [t] ++ s := by
      rw [append_assoc, singleton_append]
    rw [happend] at h ⊢
    rw [foldl_cons, insert_of_not_mem hnot, ih h]

theorem ofBytes_text (hline : ∀ s ∈ secs, ∀ l ∈ s.2, IsLine l ∧ sectionName? l = none)
    (hnames : (secs.map fun s => s.1.name).Nodup) :
    ofBytes (titleLine ++ ofText "version 8\n" ++ (sectionLines secs).flatten) =
      .ok ⟨8, named secs⟩ := by
  have htitle : IsLine titleLine :=
    ⟨titleLine.dropLast, by decide, by decide⟩
  have hversion : IsLine (ofText "version 8\n") :=
    ⟨ofText "version 8", by decide, by decide⟩
  have hall : ∀ l ∈ titleLine :: ofText "version 8\n" :: sectionLines secs,
      IsLine l := by
    intro l hl
    rcases mem_cons.mp hl with rfl | hl
    · exact htitle
    rcases mem_cons.mp hl with rfl | hl
    · exact hversion
    obtain ⟨s, hs, hl⟩ := mem_flatMap.mp hl
    rcases mem_cons.mp hl with rfl | hl
    · exact isLine_delimiter s.1
    · exact (hline s hs l hl).1
  have hlines : lines (titleLine ++ ofText "version 8\n" ++ (sectionLines secs).flatten) =
      titleLine :: ofText "version 8\n" :: sectionLines secs := by
    have hcut := lines_flatten hall []
    rw [append_nil, flatten_cons, flatten_cons, ← append_assoc] at hcut
    rw [hcut]
    exact append_nil _
  have hnumber : version? (ofText "version 8\n") = some 8 := by decide
  have hblocks := blocks_sectionLines fun s hs l hl => (hline s hs l hl).2
  have hkept : (named secs).foldl (fun s (p : Bytes × List Bytes) => insert p.1 p.2 s) [] =
      named secs :=
    foldl_insert (by rw [nil_append, named, map_map]; exact hnames)
  rw [ofBytes, hlines]
  dsimp only
  rw [if_pos rfl, hnumber, hblocks]
  dsimp only
  rw [hkept]

end Cartridge.TextFile
