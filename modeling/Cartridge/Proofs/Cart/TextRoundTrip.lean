import Cartridge.Proofs.Cart.Sections
import Cartridge.Proofs.Lua.Resaving
import Cartridge.Proofs.Memory.RegionSizes
import Cartridge.Proofs.Memory.SongText
import Cartridge.Proofs.Memory.SoundText

/-!
# Carts are read from their texts as they were written

A cart is written as a title, a version and sections: the program, closed by a
newline if it has none at its end, and the regions of memory in lines of digits.
The empty lines that are written behind the picture and behind the songs go to
these sections, where they do not count.  No line of a section is taken for the
start of another: the lines of regions hold digits, and a line of the program is
one of its source or holds a quote.

So reading the text gives the cart back, but for the top bit of every fourth byte
of the songs, which has no place in the text; and the cart that was read is written
as the same text.
-/

namespace Cartridge

open Lua List Bytes SpriteSheet TextFile

namespace Cart

variable {code : List Bytes} {d : Cart} {file : Option String} {q : Program} {w : Writer}
  {ws : List Written}

variable {c : Cart} {l s : Bytes} {ls : List (Bytes × Token)}

/-! ### The sections of a cart -/

/-- The lines of the picture on the cart, with the empty line behind the pictures.
Without such a picture the empty line is behind the sprites. -/
def pictureSections (c : Cart) : List (Part × List Bytes) :=
  match c.label with
  | none => [(.sprites, SpriteSheet.lines c.sprites ++ [[newline]])]
  | some l => [(.sprites, SpriteSheet.lines c.sprites), (.label, SpriteSheet.lines l ++ [[newline]])]

def regionSections (c : Cart) : List (Part × List Bytes) :=
  [(.flags, SpriteFlags.lines c.flags), (.tiles, TileMap.lines c.tiles),
    (.sounds, (Sounds.lines c.sounds).1), (.songs, (Songs.lines c.songs).1 ++ [[newline]])]

def sections (c : Cart) (code : List Bytes) : List (Part × List Bytes) :=
  (.program, code) :: (c.pictureSections ++ c.regionSections)

structure Fitting (c : Cart) : Prop where
  sprites : 64 ∣ c.sprites.size
  label : ∀ l, c.label = some l → 64 ∣ l.size
  sounds : c.sounds.size = 4352
  songs : 4 ∣ c.songs.size

/-! ### The text -/

theorem append_eq {a : Written} (h : a.failure = none) (b : Written) :
    a.append b =
      { pieces := a.pieces ++ b.pieces, warnings := a.warnings ++ b.warnings,
        failure := b.failure } := by
  rw [Written.append, h]

theorem foldl_append (h : ∀ w ∈ ws, w.failure = none) {start : Written} (hstart : start.failure = none) :
    (ws.foldl Written.append start).failure = none ∧
      (ws.foldl Written.append start).pieces = start.pieces ++ ws.flatMap Written.pieces := by
  induction ws generalizing start with
  | nil => exact ⟨hstart, by rw [foldl_nil, flatMap_nil, append_nil]⟩
  | cons w ws ih =>
    have hfailure : (start.append w).failure = none := by
      rw [append_eq hstart]
      exact h w mem_cons_self
    have hpieces : (start.append w).pieces = start.pieces ++ w.pieces := by
      rw [append_eq hstart]
    obtain ⟨hrest, hrest'⟩ := ih (fun v hv => h v (mem_cons_of_mem w hv)) hfailure
    rw [foldl_cons]
    refine ⟨hrest, ?_⟩
    rw [hrest', hpieces, flatMap_cons, append_assoc]

def programText (lines : List Bytes) : Bytes :=
  lines.flatten ++
    if lines.getLast?.bind getLast? = some newline then [] else [newline]

theorem text_codeText (lines : List Bytes) :
    (codeText lines).pieces.flatten = delimiter .program ++ programText lines := by
  rw [codeText, programText]
  cases lines.getLast? with
  | none => simp [written]
  | some l =>
    by_cases hl : l.getLast? = some newline
    · simp [written, hl]
    · simp [written, hl]

theorem closed_programText (lines : List Bytes) :
    closed (programText lines) = programText lines := by
  have hlast : (programText lines).getLast? = some newline := by
    rw [programText]
    split
    · next h =>
      obtain ⟨l, hl, hnewline⟩ := Option.bind_eq_some_iff.mp h
      obtain ⟨init, rfl⟩ := getLast?_eq_some_iff.mp hl
      rw [append_nil, flatten_append, flatten_singleton, getLast?_append,
        hnewline, Option.some_or]
    · rw [getLast?_append]
      rfl
  rw [closed, if_pos hlast]

theorem programText_eq_closed {lines : List Bytes} (h : ∀ l ∈ lines, l ≠ []) :
    programText lines = closed lines.flatten := by
  have hlast : lines.flatten.getLast? = lines.getLast?.bind getLast? := by
    cases hlines : lines.getLast? with
    | none =>
      rw [getLast?_eq_none_iff.mp hlines]
      rfl
    | some l =>
      obtain ⟨init, rfl⟩ := getLast?_eq_some_iff.mp hlines
      have hne : l ≠ [] := h l (mem_append_right _ mem_cons_self)
      rw [flatten_append, flatten_singleton, getLast?_append, Option.bind_some,
        getLast?_eq_some_getLast hne, Option.some_or]
  rw [programText, closed, hlast]
  split
  · exact append_nil _
  · rfl

def bodyParts (c : Cart) (lines : List Bytes) : List Written :=
  [ codeText lines,
    sectionText .sprites (SpriteSheet.lines c.sprites, none),
    (match c.label with
      | some l => sectionText .label (SpriteSheet.lines l, none)
      | none => written []),
    written [[newline]],
    sectionText .flags (SpriteFlags.lines c.flags, none),
    sectionText .tiles (TileMap.lines c.tiles, none),
    sectionText .sounds (Sounds.lines c.sounds),
    sectionText .songs (Songs.lines c.songs),
    written [[newline]] ]

theorem bodyText_eq_foldl (c : Cart) (lines : List Bytes) :
    c.bodyText lines = (c.bodyParts lines).foldl Written.append (written []) := rfl

theorem failure_bodyParts (hsounds : c.sounds.size = 4352) (hsongs : 4 ∣ c.songs.size) (lines : List Bytes) :
    ∀ w ∈ c.bodyParts lines, w.failure = none := by
  intro w hw
  simp only [bodyParts, mem_cons, not_mem_nil, or_false] at hw
  rcases hw with rfl | rfl | rfl | rfl | rfl | rfl | rfl | rfl | rfl
  · rfl
  · rfl
  · cases c.label <;> rfl
  · rfl
  · rfl
  · rfl
  · rw [Sounds.lines_eq hsounds]
    rfl
  · rw [Songs.lines_eq hsongs]
    rfl
  · rfl

theorem bodyText_eq (hsounds : c.sounds.size = 4352) (hsongs : 4 ∣ c.songs.size) (lines : List Bytes) :
    (c.bodyText lines).failure = none ∧
      (c.bodyText lines).pieces.flatten =
        (TextFile.sectionLines (c.sections (Bytes.lines (programText lines)))).flatten := by
  have hstart : (written []).failure = none := rfl
  obtain ⟨hfailure, hpieces⟩ := foldl_append (failure_bodyParts hsounds hsongs lines) hstart
  have hcode := text_codeText lines
  rw [bodyText_eq_foldl]
  refine ⟨hfailure, ?_⟩
  rw [hpieces]
  cases hl : c.label with
  | none =>
    simp [bodyParts, TextFile.sectionLines, sections, pictureSections, regionSections, hl, hcode,
      flatten_lines, sectionText, written]
  | some l =>
    simp [bodyParts, TextFile.sectionLines, sections, pictureSections, regionSections, hl, hcode,
      flatten_lines, sectionText, written]

theorem failure_writeText
    (hq : Program.ofSource c.version (c.program.write w).lines (c.program.write w).failure = .ok q)
    (hsounds : c.sounds.size = 4352) (hsongs : 4 ∣ c.songs.size) : (c.writeText w file).failure = none := by
  rw [writeText, hq]
  dsimp only
  rw [append_eq rfl]
  exact (bodyText_eq hsounds hsongs _).1

theorem failure_of_foldl_append {start : Written} (h : (ws.foldl Written.append start).failure = none) :
    start.failure = none ∧ ∀ w ∈ ws, w.failure = none := by
  induction ws generalizing start with
  | nil => exact ⟨h, fun w hw => by cases hw⟩
  | cons w ws ih =>
    obtain ⟨hboth, hrest⟩ := ih h
    cases hstart : start.failure with
    | some e =>
      rw [Written.append, hstart] at hboth
      exact absurd (hboth.symm.trans hstart) nofun
    | none =>
      rw [append_eq hstart] at hboth
      refine ⟨rfl, fun v hv => ?_⟩
      rcases mem_cons.mp hv with rfl | hv
      · exact hboth
      · exact hrest v hv

/-- **A cart that is written without failure** has whole parts of songs and at least 64 patterns of
sounds; if there are no more, this is its text. -/
theorem text_of_writeText (h : (c.writeText w file).failure = none) (hsounds : c.sounds.size ≤ 4352) :
    c.sounds.size = 4352 ∧ 4 ∣ c.songs.size ∧
      (c.writeText w file).text = titleLine ++ ofText "version 8\n" ++
        (TextFile.sectionLines
          (c.sections (Bytes.lines (programText (c.program.write w).lines)))).flatten := by
  rw [writeText] at h ⊢
  split at h
  · cases h
  · rw [append_eq rfl] at h ⊢
    obtain ⟨-, hparts⟩ := failure_of_foldl_append (h : (bodyText _ _).failure = none)
    have hpatterns : (Sounds.lines c.sounds).2 = none :=
      hparts (sectionText .sounds (Sounds.lines c.sounds)) (by simp)
    have hsongs : (Songs.lines c.songs).2 = none :=
      hparts (sectionText .songs (Songs.lines c.songs)) (by simp)
    have hfull := Nat.le_antisymm hsounds (Sounds.size_of_lines hpatterns)
    have hwhole := Songs.dvd_of_lines hsongs
    refine ⟨hfull, hwhole, ?_⟩
    rw [Written.text, flatten_append, (bodyText_eq hfull hwhole _).2]
    rfl

def textOf (c : Cart) (ls : List (Bytes × Token)) : Bytes :=
  titleLine ++ ofText "version 8\n" ++
    (TextFile.sectionLines
      (c.sections (Bytes.lines (closed ((echoed ls).map Prod.fst).flatten)))).flatten

theorem writeText_eq (hc : c.Fitting) (hls : Lexed s ls) (hp : c.program.Holds ls)
    (hends : PlainLineEnds (ls.map Prod.snd)) (file : Option String) :
    (c.writeText .echo file).failure = none ∧ (c.writeText .echo file).text = c.textOf ls := by
  obtain ⟨q, hq⟩ := hp.exists_ofLines_echo hls hends c.version
  obtain ⟨hfailure, hbody⟩ :=
    bodyText_eq hc.sounds hc.songs (Stream.echo c.program.tokens.toList)
  rw [programText_eq_closed (hp.echo_ne_nil hls)] at hbody
  have hsource : Program.ofSource c.version (c.program.write .echo).lines
      (c.program.write .echo).failure = .ok q := hq
  have hlines : (c.program.write .echo).lines = Stream.echo c.program.tokens.toList := rfl
  rw [writeText, hsource]
  dsimp only
  rw [append_eq rfl, hlines]
  refine ⟨hfailure, ?_⟩
  rw [Written.text, flatten_append, hbody, hp.flatten_echo, textOf]
  rfl

/-! ### Reading the sections -/

theorem ofName?_name (p : Part) : Part.ofName? p.name = some p := by
  cases p <;> decide

theorem readSections_cons {c₁ : Cart} {p : Part} {ls : List Bytes} (h : c.readPart ls p = .ok c₁)
    (rest : List (Bytes × List Bytes)) : c.readSections ((p.name, ls) :: rest) = c₁.readSections rest := by
  rw [readSections, readSection, ofName?_name]
  dsimp only
  rw [h]
  rfl

theorem readSections_pictures (c : Cart) (hlabel : d.label = none) (rest : List (Bytes × List Bytes)) :
    d.readSections (named c.pictureSections ++ rest) =
      ({ d with
        sprites := wholeRows c.sprites,
        label := c.label.map wholeRows } : Cart).readSections rest := by
  have hclosed : ∀ sheet : Region,
      ofLines (SpriteSheet.lines sheet ++ [[newline]]) =
        .ok (wholeRows sheet) :=
    fun sheet => ofLines_lines_wholeRows sheet (by decide)
  cases hl : c.label with
  | none =>
    have hsprites : d.readPart (SpriteSheet.lines c.sprites ++ [[newline]]) .sprites =
        .ok { d with sprites := wholeRows c.sprites } := by
      rw [readPart, hclosed]
      rfl
    rw [pictureSections, hl]
    refine (readSections_cons hsprites rest).trans ?_
    rw [hlabel]
    rfl
  | some l =>
    have hsprites : d.readPart (SpriteSheet.lines c.sprites) .sprites =
        .ok { d with sprites := wholeRows c.sprites } := by
      have hnone : ∀ l ∈ ([] : List Bytes), l.length ≠ 129 := by simp
      have hread := ofLines_lines_wholeRows c.sprites hnone
      rw [append_nil] at hread
      rw [readPart, hread]
      rfl
    have hpicture : ({ d with sprites := wholeRows c.sprites } : Cart).readPart
        (SpriteSheet.lines l ++ [[newline]]) .label =
        .ok { d with
          sprites := wholeRows c.sprites, label := some (wholeRows l) } := by
      rw [readPart, hclosed]
      rfl
    rw [pictureSections, hl]
    exact (readSections_cons hsprites _).trans (readSections_cons hpicture rest)

theorem readSections_regions (hsounds : c.sounds.size = 4352) (hsongs : 4 ∣ c.songs.size) (d : Cart) :
    d.readSections (named c.regionSections) =
      .ok { d with flags := c.flags, tiles := c.tiles, sounds := c.sounds,
                   songs := Songs.cleared c.songs } := by
  have hflags : ∀ d : Cart, d.readPart (SpriteFlags.lines c.flags) .flags =
      .ok { d with flags := c.flags } := by
    intro d
    rw [readPart, SpriteFlags.ofLines, SpriteFlags.lines, Region.ofHexLines_hexLines (by decide)]
    rfl
  have htiles : ∀ d : Cart, d.readPart (TileMap.lines c.tiles) .tiles =
      .ok { d with tiles := c.tiles } := by
    intro d
    rw [readPart, TileMap.ofLines, TileMap.lines, Region.ofHexLines_hexLines (by decide)]
    rfl
  have hpatterns : ∀ d : Cart, d.readPart (Sounds.lines c.sounds).1 .sounds =
      .ok { d with sounds := c.sounds } := by
    intro d
    rw [readPart, Sounds.ofLines_lines hsounds]
    rfl
  have hparts : ∀ d : Cart, d.readPart ((Songs.lines c.songs).1 ++ [[newline]]) .songs =
      .ok { d with songs := Songs.cleared c.songs } := by
    intro d
    rw [readPart, Songs.ofLines_lines hsongs (by decide)]
    rfl
  rw [named, regionSections, map_cons, map_cons, map_cons, map_cons,
    map_nil, readSections_cons (hflags _), readSections_cons (htiles _),
    readSections_cons (hpatterns _), readSections_cons (hparts _), readSections]

theorem readSections_sections (hsounds : c.sounds.size = 4352) (hsongs : 4 ∣ c.songs.size)
    (code : List Bytes) (hlabel : d.label = none) :
    d.readSections (named (c.sections code)) =
      (Program.ofLines d.version code).map fun q =>
        { d with
          program := q, sprites := wholeRows c.sprites, flags := c.flags,
          tiles := c.tiles, sounds := c.sounds, songs := Songs.cleared c.songs,
          label := c.label.map wholeRows } := by
  have hsections : named (c.sections code) = (Part.program.name, code) ::
      (named c.pictureSections ++ named c.regionSections) := by
    rw [sections, named, map_cons, map_append]
    rfl
  rw [hsections]
  cases hq : Program.ofLines d.version code with
  | error e =>
    rw [readSections, readSection, ofName?_name]
    dsimp only
    rw [readPart, hq]
    rfl
  | ok q =>
    have hprogram : d.readPart code .program = .ok { d with program := q } := by
      rw [readPart, hq]
      rfl
    have hlabel' : ({ d with program := q } : Cart).label = none := hlabel
    rw [readSections_cons hprogram, readSections_pictures c hlabel',
      readSections_regions hsounds hsongs]
    rfl

theorem Fitting.wholeRows (hc : c.Fitting) :
    wholeRows c.sprites = c.sprites ∧ c.label.map wholeRows = c.label := by
  refine ⟨wholeRows_eq hc.sprites, ?_⟩
  cases hl : c.label with
  | none => rfl
  | some l => rw [Option.map_some, wholeRows_eq (hc.label l hl)]

/-! ### Lines that start no section -/

theorem sectionName?_of_isDigitLine (h : Region.IsDigitLine l) :
    IsLine l ∧ sectionName? l = none := by
  obtain ⟨x, hx, rfl⟩ := h
  have hdigit : ∀ d, Hex.isDigit d = true ∨ d = 32 → d ≠ 95 ∧ d ≠ newline := by
    rintro d (hd | rfl)
    · refine ⟨(Hex.facts_of_isDigit d hd).2.2, ?_⟩
      rintro rfl
      cases hd
    · decide
  refine ⟨⟨x, fun hmem => (hdigit _ (hx _ hmem)).2 rfl, rfl⟩, ?_⟩
  cases hname : sectionName? (x ++ [newline]) with
  | none => rfl
  | some name =>
    obtain ⟨hhead, -⟩ := facts_of_sectionName? hname
    cases x with
    | nil => exact absurd hhead (by decide)
    | cons d x =>
      have hd := (hdigit d (hx d mem_cons_self)).1
      rw [cons_append, head?_cons] at hhead
      exact absurd (Option.some.inj hhead) hd

theorem sectionName?_of_holdsQuote (h : HoldsQuote l) : sectionName? l = none := by
  obtain ⟨c, hc, hquote⟩ := h
  cases hname : sectionName? l with
  | none => rfl
  | some name =>
    obtain ⟨-, hword⟩ := facts_of_sectionName? hname
    have hnot : ¬(isWord c = true ∨ c = newline) := by
      rcases isQuote_iff.mp hquote with rfl | rfl <;> decide
    exact absurd (hword c hc) hnot

def StartsNoSection (s : Bytes) : Prop :=
  ∀ l ∈ Bytes.lines s, sectionName? (closed l) = none

theorem sectionName?_of_mem_lines (hls : Lexed s ls) (hs : StartsNoSection s)
    (hl : l ∈ Bytes.lines (closed ((echoed ls).map Prod.fst).flatten)) :
    sectionName? l = none := by
  have hsource : ∀ l ∈ firstLine s :: laterLines s,
      sectionName? l = none := by
    intro l hl
    rcases exists_of_mem_lines hl with rfl | ⟨m, hm, rfl⟩
    · decide
    · exact hs m hm
  have hsame := sameLines_echoed hls
  rcases mem_cons.mp (mem_lines_closed hl) with rfl | hl
  · rcases hsame.first with heq | hquote
    · rw [heq]
      exact hsource _ mem_cons_self
    · exact sectionName?_of_holdsQuote hquote
  · rcases hsame.later l hl with hmem | hquote
    · exact hsource l (mem_cons_of_mem _ hmem)
    · exact sectionName?_of_holdsQuote hquote

theorem sections_lines (hsounds : c.sounds.size = 4352) (hsongs : 4 ∣ c.songs.size)
    (hcode : ∀ l ∈ code, IsLine l ∧ sectionName? l = none) :
    ∀ s ∈ c.sections code, ∀ l ∈ s.2, IsLine l ∧ sectionName? l = none := by
  have hempty : IsLine [newline] ∧ sectionName? [newline] = none :=
    ⟨isLine_singleton, by decide⟩
  have hpicture : ∀ (sheet : Region), ∀ l ∈ SpriteSheet.lines sheet,
      IsLine l ∧ sectionName? l = none := fun sheet l hl =>
    sectionName?_of_isDigitLine
      (Region.isDigitLine_of_mem_linesBy (fun b d => Hex.isDigit_pair) hl)
  have hhex : ∀ (r : Region), ∀ l ∈ r.hexLines 128,
      IsLine l ∧ sectionName? l = none := fun r l hl =>
    sectionName?_of_isDigitLine
      (Region.isDigitLine_of_mem_linesBy (fun b d => Hex.isDigit_pair) hl)
  have hclosed : ∀ ls : List Bytes, (∀ l ∈ ls, IsLine l ∧ sectionName? l = none) →
      ∀ l ∈ ls ++ [[newline]], IsLine l ∧ sectionName? l = none := by
    intro ls hls l hl
    rcases mem_append.mp hl with hl | hl
    · exact hls l hl
    · rw [mem_singleton.mp hl]
      exact hempty
  intro s hs
  rcases mem_cons.mp hs with rfl | hs
  · exact hcode
  rcases mem_append.mp hs with hs | hs
  · rw [pictureSections] at hs
    cases hl : c.label with
    | none =>
      rw [hl] at hs
      rw [mem_singleton.mp hs]
      exact hclosed _ (hpicture c.sprites)
    | some l =>
      rw [hl, mem_cons, mem_singleton] at hs
      rcases hs with rfl | rfl
      · exact hpicture c.sprites
      · exact hclosed _ (hpicture l)
  · rw [regionSections, mem_cons, mem_cons, mem_cons, mem_singleton] at hs
    rcases hs with rfl | rfl | rfl | rfl
    · exact hhex c.flags
    · exact hhex c.tiles
    · exact fun l hl => sectionName?_of_isDigitLine (Sounds.isDigitLine_of_mem_lines hsounds hl)
    · exact hclosed _ fun l hl =>
        sectionName?_of_isDigitLine (Songs.isDigitLine_of_mem_lines hsongs hl)

theorem nodup_sections (c : Cart) (code : List Bytes) :
    ((c.sections code).map fun s => s.1.name).Nodup := by
  rw [sections, pictureSections, regionSections]
  cases c.label with
  | none => simp only [cons_append, nil_append, map_cons, map_nil]; decide
  | some l => simp only [cons_append, nil_append, map_cons, map_nil]; decide

/-! ### The round trip -/

theorem sections_cleared (hc : c.Fitting) (q : Program) (code : List Bytes) :
    sections
        { version := 8, program := q, sprites := c.sprites, flags := c.flags, tiles := c.tiles,
          sounds := c.sounds, songs := Songs.cleared c.songs, label := c.label } code =
      c.sections code := by
  rw [sections, sections, regionSections, regionSections, Songs.lines_cleared hc.songs]
  rfl

theorem ofTextFile_sections (hsounds : c.sounds.size = 4352) (hsongs : 4 ∣ c.songs.size)
    (hcode : ∀ l ∈ code, IsLine l ∧ sectionName? l = none) :
    ofTextFile (titleLine ++ ofText "version 8\n" ++
        (TextFile.sectionLines (c.sections code)).flatten) =
      (Program.ofLines 8 code).map fun q =>
        { version := 8, program := q, sprites := wholeRows c.sprites,
          flags := c.flags, tiles := c.tiles, sounds := c.sounds, songs := Songs.cleared c.songs,
          label := c.label.map wholeRows } := by
  have hbytes := ofBytes_text (sections_lines hsounds hsongs hcode) (nodup_sections c code)
  rw [ofTextFile, hbytes]
  exact readSections_sections hsounds hsongs code rfl

theorem ofTextFile_textOf (hc : c.Fitting) (hls : Lexed s ls) (hs : StartsNoSection s)
    (hq : Program.ofLines 8 (Bytes.lines (closed ((echoed ls).map Prod.fst).flatten)) = .ok q) :
    ofTextFile (c.textOf ls) =
      .ok { version := 8, program := q, sprites := c.sprites, flags := c.flags, tiles := c.tiles,
            sounds := c.sounds, songs := Songs.cleared c.songs, label := c.label } := by
  have hcode : ∀ l ∈ Bytes.lines (closed ((echoed ls).map Prod.fst).flatten),
      IsLine l ∧ sectionName? l = none := fun l hl =>
    ⟨isLine_of_mem_lines_closed hl, sectionName?_of_mem_lines hls hs hl⟩
  rw [textOf, ofTextFile_sections hc.sounds hc.songs hcode, hq, hc.wholeRows.1, hc.wholeRows.2]
  rfl

/-- **The text of a cart is read as the cart.**

Let the program of a cart have been read from a source without carriage returns, none of whose lines
has the form of a section's first line when it is closed by a newline.  Let its pictures be whole rows
of pixels, its songs whole parts, and its sounds 64 patterns.  Then the cart is written without
failure, and its text is read as a cart with the same pictures, flags, map and sounds, with the same
songs but for the top bit of every fourth byte, and with the same tokens up to places, and at most one
newline more.  The cart that was read is written as the same text. -/
theorem ofTextFile_writeText {c : Cart} {v : Int} {pieces : List Bytes} (hcut : LineCut pieces)
    (hprogram : Program.ofLines v pieces = .ok c.program) (hreturn : 13 ∉ pieces.flatten)
    (hlines : StartsNoSection pieces.flatten) (hc : c.Fitting) (file : Option String) :
    (c.writeText .echo file).failure = none ∧
      ∃ c', ofTextFile (c.writeText .echo file).text = .ok c' ∧
        c'.sprites = c.sprites ∧ c'.flags = c.flags ∧ c'.tiles = c.tiles ∧ c'.sounds = c.sounds ∧
        c'.label = c.label ∧
        c'.songs = c.songs.mapIdx (fun i b => if i % 4 = 3 then b &&& 0x7f else b) ∧
        (c'.program.tokens.toList.map Token.unplaced = c.program.tokens.toList.map Token.unplaced ∨
          c'.program.tokens.toList.map Token.unplaced =
            c.program.tokens.toList.map Token.unplaced ++ [newlineToken]) ∧
        ∀ file', (c'.writeText .echo file').failure = none ∧
          (c'.writeText .echo file').text = (c.writeText .echo file).text := by
  obtain ⟨ls, hls, hp⟩ := Program.holds_of_ofLines hcut hprogram
  have hends := hls.plainLineEnds hreturn
  obtain ⟨hfailure, htext⟩ := writeText_eq hc hls hp hends file
  obtain ⟨q, hq, hholds⟩ := hp.exists_ofLines_closed hls hends 8
  have hread := ofTextFile_textOf hc hls hlines hq
  rw [← htext] at hread
  refine ⟨hfailure, _, hread, rfl, rfl, rfl, rfl, rfl, rfl, ?_, fun file' => ?_⟩
  · rw [hholds.tokens_eq, hp.tokens_eq]
    exact map_snd_closedEcho ls
  · -- what was read fits again, and its lexemes are those of the closed text
    have hc' : Fitting
        { version := 8, program := q, sprites := c.sprites, flags := c.flags, tiles := c.tiles,
          sounds := c.sounds, songs := Songs.cleared c.songs, label := c.label } :=
      ⟨hc.sprites, hc.label, hc.sounds, by rw [Songs.size_cleared]; exact hc.songs⟩
    obtain ⟨hfailure', htext'⟩ := writeText_eq hc' (lexed_closedEcho hls hends) hholds
      (plainLineEnds_closedEcho hends) file'
    refine ⟨hfailure', ?_⟩
    rw [htext, htext', textOf, textOf, flatten_echoed_closedEcho, Bytes.closed_closed,
      sections_cleared hc]

def sampleSource : List Bytes := ["s='\\9'\n", "?s..[[\n", "]]"].map ofText

def sampleCart (p : Program) : Cart where
  version := 8
  program := p
  sprites := Array.replicate 64 0x12
  flags := #[1, 2, 3]
  tiles := #[]
  sounds := Sounds.blank
  songs := #[0x81, 0x02, 0x83, 0x84]
  label := none

theorem ofTextFile_writeText_sample :
    ∃ p, Program.ofLines 8 sampleSource = .ok p ∧ (sampleCart p).Fitting ∧
      ((sampleCart p).writeText .echo none).failure = none ∧
        ∃ c', ofTextFile ((sampleCart p).writeText .echo none).text = .ok c' ∧
          c'.sprites = Array.replicate 64 0x12 ∧ c'.flags = #[1, 2, 3] ∧
          c'.songs = #[0x81, 0x02, 0x83, 0x04] ∧
          (c'.writeText .echo none).text = ((sampleCart p).writeText .echo none).text := by
  have hok : (Program.ofLines 8 sampleSource).isOk = true := by decide +kernel
  have hcut : LineCut sampleSource := by unfold LineCut; decide
  have hlines : StartsNoSection sampleSource.flatten := by unfold StartsNoSection; decide +kernel
  have hcleared : Songs.cleared #[0x81, 0x02, 0x83, 0x84] = #[0x81, 0x02, 0x83, 0x04] := by
    decide +kernel
  cases hp : Program.ofLines 8 sampleSource with
  | error e => rw [hp] at hok; cases hok
  | ok p =>
    have hfits : (sampleCart p).Fitting := ⟨⟨1, rfl⟩, nofun, Sounds.size_blank, ⟨1, rfl⟩⟩
    obtain ⟨hfailure, c', hread, hsprites, hflags, -, -, -, hsongs, -, hagain⟩ :=
      ofTextFile_writeText (c := sampleCart p) hcut hp (by decide) hlines hfits none
    exact ⟨p, rfl, hfits, hfailure, c', hread, hsprites, hflags,
      hsongs.trans hcleared, (hagain none).2⟩

end Cart
end Cartridge
