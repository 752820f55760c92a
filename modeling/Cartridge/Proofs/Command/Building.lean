import Cartridge.Command.Build
import Cartridge.Proofs.Command.Actions

/-!
# What a build leaves on the disk

A build reads carts, takes the parts of the new cart from them, and writes it only after everything else
has gone well.  So a build that fails or refuses to build leaves all files as they were; and one that is done
has changed the output file alone.

Each region of the new cart comes from the cart that is given for it, or is empty if it is to be, or else is
the one that the output file had.  The text of the new cart is read again if the text of its program is a
program.  It need not be one: what the writer of the program puts down is checked piece by piece, and pieces
that are put together may run into each other.  The regions are read as they were, but for a last row of
sprites that is not full, and for the top bit of every fourth byte of the songs.
-/

namespace Cartridge.Command

open Lua Bytes

variable {c : Cart} {e : Failure} {file source : String} {m : Bool} {p : BuildPart} {w : Writer}

/-! ### The parts of carts -/

namespace BuildPart

variable {c' d : Cart} {content : Content} {ps : List BuildPart} {text : Bytes} {u : Unit}

def Agrees (p : BuildPart) (c d : Cart) : Prop :=
  match p with
  | program => c.program = d.program
  | sprites => c.sprites = d.sprites
  | flags => c.flags = d.flags
  | tiles => c.tiles = d.tiles
  | sounds => c.sounds = d.sounds
  | songs => c.songs = d.songs

theorem Agrees.refl (p : BuildPart) (c : Cart) : p.Agrees c c := by
  cases p <;> rfl

theorem Agrees.trans {a b : Cart} (h : p.Agrees a b) (h' : p.Agrees b c) : p.Agrees a c := by
  cases p <;> exact Eq.trans h h'

theorem agrees_take (p : BuildPart) (source c : Cart) : p.Agrees (p.take source c) source := by
  cases p <;> rfl

theorem agrees_take_of_ne {q : BuildPart} (h : q ≠ p) (source c : Cart) : q.Agrees (p.take source c) c := by
  cases p <;> cases q <;> first | rfl | exact absurd rfl h

theorem take_of_agrees (h : p.Agrees c d) : p.take d c = c := by
  cases p <;> (rw [Agrees] at h; rw [take, ← h])

def region (p : BuildPart) (c : Cart) : Region :=
  match p with
  | program => #[]
  | sprites => c.sprites
  | flags => c.flags
  | tiles => c.tiles
  | sounds => c.sounds
  | songs => c.songs

theorem Agrees.region_eq (h : p.Agrees c d) : p.region c = p.region d := by
  cases p with
  | program => rfl
  | sprites | flags | tiles | sounds | songs => exact h

/-- What a text keeps of the bytes of a part: whole rows of sprites, and no top bits of the last bytes of
parts of songs. -/
def kept (p : BuildPart) (r : Region) : Region :=
  match p with
  | sprites => r.extract 0 (r.size / 64 * 64)
  | songs => r.mapIdx fun i b => if i % 4 = 3 then b &&& 0x7f else b
  | program | flags | tiles | sounds => r

end BuildPart

/-! ### Where the parts come from -/

section Parts

variable {o : BuildOptions} {s s' : Session}

/-- The cart that is there before parts are taken: the one in the output file, or an empty one. -/
inductive Start (o : BuildOptions) (s : Session) : Cart → Prop
  | old {c : Cart} (hthere : s.disk.isThere o.output.toList = true)
      (hload : (loadCart o.output).run s = .ok c s) : Start o s c
  | new (hthere : s.disk.isThere o.output.toList = false) : Start o s (Cart.blank 8)

/-- The cart that a part of the new cart comes from, if there was the cart `start` before. A program
may also come from a file of its own, with all that it requires. -/
inductive TakenFrom (o : BuildOptions) (s : Session) (start : Cart) : BuildPart → Cart → Prop
  | cart {p : BuildPart} {file : String} {c : Cart} (hsource : o.source p = some file)
      (hload : (loadCart file).run s = .ok c s) : TakenFrom o s start p c
  | linked {file : String} {q : Program} (hsource : o.source .program = some file)
      (hname : endsWith file programEnding = true) (hlink : (linkedProgram o file).run s = .ok q s) :
      TakenFrom o s start .program { start with program := q }
  | empty {p : BuildPart} (hsource : o.source p = none) (hempty : o.empty p = true) :
      TakenFrom o s start p (Cart.blank 8)
  | start {p : BuildPart} (hsource : o.source p = none) (hempty : o.empty p = false) :
      TakenFrom o s start p start

theorem leaves_linkedProgram (o : BuildOptions) (file : String) : Leaves id (linkedProgram o file) := by
  refine (leaves_readFile file).bind fun source => (leaves_lift _).bind fun p =>
    leaves_get.bind fun s => (leaves_lift _).bind fun packages => ?_
  split
  · exact (leaves_throw _).bind fun _ => leaves_lift _
  · exact leaves_lift _

theorem leaves_takeFrom (o : BuildOptions) (p : BuildPart) (file : String) (c : Cart) :
    Leaves id (takeFrom o p file c) := by
  refine (leaves_pure _).ite (leaves_get.bind fun s => (leaves_pure _).ite ?_)
  refine (leaves_pure _).ite (Leaves.ite ?_ ?_)
  · exact (leaves_linkedProgram o file).bind fun _ => leaves_pure _
  · exact (leaves_loadCart file).bind fun _ => leaves_pure _

theorem leaves_takeParts (o : BuildOptions) (ps : List BuildPart) (c : Cart) :
    Leaves id (takeParts o ps c) := by
  induction ps generalizing c with
  | nil => exact leaves_pure _
  | cons p rest ih =>
    rw [takeParts]
    split
    · refine (leaves_takeFrom o p _ c).bind fun r => ?_
      cases r with
      | ok c => exact ih c
      | error text => exact leaves_pure _
    · exact ih _

theorem takenFrom_of_takeFrom (hsource : o.source p = some file)
    (h : (takeFrom o p file c).run s = .ok (.ok c') s') (start : Cart) :
    ∃ source, TakenFrom o s start p source ∧ c' = p.take source c := by
  obtain rfl : s' = s := (leaves_takeFrom o p file c s).1 _ _ h
  rw [takeFrom] at h
  split at h
  · cases h
  obtain ⟨_, _, hget, hthere⟩ := run_bind_eq_ok.mp h
  cases hget
  split at hthere
  · cases hthere
  dsimp only at hthere
  split at hthere
  · cases hthere
  split at hthere
  · next hprogram =>
    rw [Bool.and_eq_true, decide_eq_true_eq] at hprogram
    obtain ⟨q, t, hlink, htake⟩ := run_bind_eq_ok.mp hthere
    cases htake
    obtain ⟨rfl, hname⟩ := hprogram
    exact ⟨_, .linked hsource hname hlink, rfl⟩
  · obtain ⟨source, t, hload, htake⟩ := run_bind_eq_ok.mp hthere
    cases htake
    exact ⟨source, .cart hsource hload, rfl⟩

theorem takenFrom_of_takeParts {start : Cart} (hnodup : ps.Nodup)
    (hstart : ∀ p ∈ ps, p.Agrees c start) (h : (takeParts o ps c).run s = .ok (.ok c') s') :
    (∀ p ∈ ps, ∃ source, TakenFrom o s start p source ∧ p.Agrees c' source) ∧
      ∀ p, p ∉ ps → p.Agrees c' c := by
  induction ps generalizing c with
  | nil =>
    cases h
    exact ⟨fun p hp => absurd hp List.not_mem_nil, fun p _ => .refl p _⟩
  | cons p rest ih =>
    obtain ⟨hp, hrest⟩ := List.nodup_cons.mp hnodup
    -- the first part is taken, and what is taken later does not touch it
    have hstep : ∀ source, TakenFrom o s start p source →
        (takeParts o rest (p.take source c)).run s = .ok (.ok c') s' →
        (∀ q ∈ p :: rest, ∃ source, TakenFrom o s start q source ∧ q.Agrees c' source) ∧
          ∀ q, q ∉ p :: rest → q.Agrees c' c := by
      intro source horigin hrun
      have hne : ∀ q ∈ rest, q ≠ p := fun q hq heq => hp (heq ▸ hq)
      obtain ⟨htaken, hkept⟩ := ih hrest (fun q hq => (BuildPart.agrees_take_of_ne (hne q hq) _ _).trans
        (hstart q (List.mem_cons_of_mem p hq))) hrun
      refine ⟨fun q hq => ?_, fun q hq => ?_⟩
      · rcases List.mem_cons.mp hq with rfl | hq
        · exact ⟨source, horigin, (hkept q hp).trans (BuildPart.agrees_take q source c)⟩
        · exact htaken q hq
      · rw [List.mem_cons, not_or] at hq
        exact (hkept q hq.2).trans (BuildPart.agrees_take_of_ne hq.1 source c)
    rw [takeParts] at h
    split at h
    · next file hsource =>
      obtain ⟨r, t, hfrom, h⟩ := run_bind_eq_ok.mp h
      obtain rfl : t = s := (leaves_takeFrom o p file c s).1 _ _ hfrom
      cases r with
      | error text => cases h
      | ok c₁ =>
        obtain ⟨source, horigin, rfl⟩ := takenFrom_of_takeFrom hsource hfrom start
        exact hstep source horigin h
    · next hsource =>
      cases hempty : o.empty p with
      | true =>
        rw [hempty, if_pos rfl] at h
        exact hstep _ (.empty hsource hempty) h
      | false =>
        rw [hempty, if_neg (by decide),
          ← BuildPart.take_of_agrees (hstart p List.mem_cons_self)] at h
        exact hstep _ (.start hsource hempty) h

end Parts

/-! ### Saving carts -/

section Saving

variable {file : String} {c : Cart} {w : Writer} {s s' : Session}

theorem leaves_print (text : String) : Leaves Session.disk (print text) := leaves_modify fun _ => rfl

theorem leaves_warn (text : String) : Leaves Session.disk (warn text) := leaves_modify fun _ => rfl

theorem leaves_explainNames (out : Output) : Leaves Session.disk (explainNames out) := by
  refine Leaves.forM (fun names => ?_) _
  exact leaves_get.bind fun _ => (leaves_print _).ite (leaves_pure ())

def deliver (t : Cart.Written) : Action Bytes :=
  match t.failure with
  | some e => throw e
  | none => pure t.text

theorem leaves_deliver (t : Cart.Written) : Leaves Session.disk (deliver t) := by
  rw [deliver]
  split
  · exact leaves_throw _
  · exact leaves_pure _

theorem run_deliver {t : Cart.Written} (h : (deliver t).run s = .ok text s') :
    t.failure = none ∧ text = t.text := by
  rw [deliver] at h
  split at h
  · cases h
  · next hfailure =>
    cases h
    exact ⟨hfailure, rfl⟩

theorem cartText_eq (c : Cart) (w : Writer) (file : Option String) :
    cartText c w file =
      explainNames (c.program.write w) >>= fun _ =>
        warn (c.writeText w file).warnings >>= fun _ =>
          if 2 < (c.writeText w file).pieces.length then
            explainNames (c.program.write w) >>= fun _ => deliver (c.writeText w file)
          else deliver (c.writeText w file) :=
  rfl

theorem leaves_cartText (c : Cart) (w : Writer) (file : Option String) :
    Leaves Session.disk (cartText c w file) := by
  rw [cartText_eq]
  exact (leaves_explainNames _).bind fun _ => (leaves_warn _).bind fun _ =>
    ((leaves_explainNames _).bind fun _ => leaves_deliver _).ite (leaves_deliver _)

theorem writeText_of_cartText {file : Option String} (h : (cartText c w file).run s = .ok text s') :
    (c.writeText w file).failure = none ∧ text = (c.writeText w file).text := by
  rw [cartText_eq] at h
  obtain ⟨_, _, -, hwarn⟩ := run_bind_eq_ok.mp h
  obtain ⟨_, _, -, hrest⟩ := run_bind_eq_ok.mp hwarn
  split at hrest
  · obtain ⟨_, _, -, hdeliver⟩ := run_bind_eq_ok.mp hrest
    exact run_deliver hdeliver
  · exact run_deliver hrest

theorem disk_of_writeFile (h : (writeFile file content).run s = .ok u s') :
    s.disk.write file.toList content = .ok s'.disk := by
  obtain ⟨_, _, hget, hrest⟩ := run_bind_eq_ok.mp h
  cases hget
  obtain ⟨d, t, hwrite, hset⟩ := run_bind_eq_ok.mp hrest
  cases hset
  exact (run_lift_eq_ok.mp hwrite).1

theorem disk_of_writeFile_error (h : (writeFile file content).run s = .error e s') : s'.disk = s.disk := by
  rcases run_bind_eq_error.mp h with hget | ⟨_, _, hget, hrest⟩
  · cases hget
  cases hget
  rcases run_bind_eq_error.mp hrest with hwrite | ⟨d, t, -, hset⟩
  · exact (leaves_lift _ s).2 e s' hwrite
  · cases hset

theorem disk_of_saveCart_error (h : (saveCart file c w).run s = .error e s') : s'.disk = s.disk := by
  -- only the last action writes a file
  have hlast : ∀ {α : Type} {a : Action α} {f : α → Content} {t t' : Session},
      Leaves Session.disk a → (a >>= fun x => writeFile file (f x)).run t = .error e t' →
      t'.disk = t.disk := by
    intro α a f t t' ha h
    rcases run_bind_eq_error.mp h with herror | ⟨x, u, hx, h⟩
    · exact (ha t).2 e t' herror
    · exact (disk_of_writeFile_error h).trans ((ha t).1 x u hx)
  have hpicture : Leaves Session.disk (readPicture file) := by
    refine (leaves_get.bind fun _ => leaves_lift _).bind fun content => ?_
    cases content with
    | bytes b => exact leaves_throw _
    | picture image => exact leaves_pure _
  have hlabel : Leaves Session.disk (labelFor file) :=
    leaves_get.bind fun _ => hpicture.ite (leaves_pure _)
  rw [saveCart] at h
  split at h
  · rcases run_bind_eq_error.mp h with herror | ⟨label, t, ht, h⟩
    · exact (hlabel s).2 e s' herror
    rcases run_bind_eq_error.mp h with herror | ⟨_, u, hu, h⟩
    · exact ((leaves_explainNames _ t).2 e s' herror).trans ((hlabel s).1 label t ht)
    · exact (hlast (leaves_lift _) h).trans
        (((leaves_explainNames _ t).1 _ u hu).trans ((hlabel s).1 label t ht))
  · exact hlast (leaves_cartText c w none) h

theorem not_endsWith_png (hname : endsWith file textEnding = true) : endsWith file ".png" = false := by
  -- the last letter of a file's name is one only
  cases hpng : endsWith file ".png" with
  | false => rfl
  | true =>
    obtain ⟨x, hx⟩ := List.isSuffixOf_iff_suffix.mp hname
    obtain ⟨y, hy⟩ := List.isSuffixOf_iff_suffix.mp hpng
    have height : textEnding.toList.getLast? = some '8' := by decide
    have hletter : ".png".toList.getLast? = some 'g' := by decide
    have hlast := congrArg List.getLast? (hx.trans hy.symm)
    rw [List.getLast?_append, List.getLast?_append, height, hletter, Option.some_or,
      Option.some_or] at hlast
    exact absurd hlast (by decide)

theorem text_of_saveCart (hname : endsWith file textEnding = true)
    (h : (saveCart file c w).run s = .ok u s') :
    (c.writeText w none).failure = none ∧
      s.disk.write file.toList (.bytes (c.writeText w none).text) = .ok s'.disk := by
  rw [saveCart, not_endsWith_png hname, if_neg (by decide)] at h
  obtain ⟨text, t, htext, h⟩ := run_bind_eq_ok.mp h
  obtain ⟨hfailure, rfl⟩ := writeText_of_cartText htext
  have hdisk : t.disk = s.disk := (leaves_cartText c w none s).1 _ t htext
  rw [← hdisk]
  exact ⟨hfailure, disk_of_writeFile h⟩

end Saving

/-! ### Building -/

def buildOn (o : BuildOptions) (start : Cart) : Action Int := do
  match ← takeParts o BuildPart.all start with
  | .error text =>
    warn text
    return 1
  | .ok c =>
    saveCart o.output c (← lift o.writer)
    return 0

theorem build_eq (o : BuildOptions) :
    build o = if !isCartName o.output then
        warn "Output filename must end with .p8 or .p8.png." >>= fun _ => pure 1
      else get >>= fun s =>
        if s.disk.isThere o.output.toList then loadCart o.output >>= buildOn o
        else buildOn o (Cart.blank Cart.standardVersion) :=
  rfl

section Building

variable {o : BuildOptions} {s s' : Session} {start : Cart}

theorem disk_of_buildOn_error (h : (buildOn o start).run s = .error e s') : s'.disk = s.disk := by
  rcases run_bind_eq_error.mp h with htake | ⟨r, t, htake, hrest⟩
  · exact congrArg Session.disk ((leaves_takeParts o _ start s).2 e s' htake)
  obtain rfl : t = s := (leaves_takeParts o _ start s).1 r t htake
  cases r with
  | error text => exact ((leaves_warn text).bind fun _ => leaves_pure _) t |>.2 e s' hrest
  | ok c =>
    rcases run_bind_eq_error.mp hrest with hwriter | ⟨w, u, hwriter, hsave⟩
    · exact (leaves_lift _ t).2 e s' hwriter
    obtain ⟨-, rfl⟩ := run_lift_eq_ok.mp hwriter
    rcases run_bind_eq_error.mp hsave with hsave | ⟨_, _, -, hdone⟩
    · exact disk_of_saveCart_error hsave
    · cases hdone

/-- A build that ends has refused to build and has written nothing, or has taken all parts and has
saved the cart. -/
theorem buildOn_cases {n : Int} (h : (buildOn o start).run s = .ok n s') :
    n = 1 ∧ s'.disk = s.disk ∨
      n = 0 ∧ ∃ c w, (takeParts o BuildPart.all start).run s = .ok (.ok c) s ∧ o.writer = .ok w ∧
        (saveCart o.output c w).run s = .ok () s' := by
  obtain ⟨r, t, htake, hrest⟩ := run_bind_eq_ok.mp h
  obtain rfl : t = s := (leaves_takeParts o _ start s).1 r t htake
  cases r with
  | error text =>
    obtain ⟨_, u, hwarn, hdone⟩ := run_bind_eq_ok.mp hrest
    cases hdone
    exact .inl ⟨rfl, (leaves_warn text t).1 _ _ hwarn⟩
  | ok c =>
    obtain ⟨w, u, hwriter, hsave⟩ := run_bind_eq_ok.mp hrest
    obtain ⟨hw, rfl⟩ := run_lift_eq_ok.mp hwriter
    obtain ⟨_, v, hsaved, hdone⟩ := run_bind_eq_ok.mp hsave
    cases hdone
    exact .inr ⟨rfl, c, w, htake, hw, hsaved⟩

theorem run_build (hname : isCartName o.output = true) :
    (∃ e, (build o).run s = .error e s) ∨
      ∃ start, Start o s start ∧ (build o).run s = (buildOn o start).run s := by
  rw [build_eq, hname]
  cases hthere : s.disk.isThere o.output.toList with
  | false => exact .inr ⟨_, .new hthere, by simp [hthere]; rfl⟩
  | true =>
    cases hload : (loadCart o.output).run s with
    | error e t =>
      obtain rfl : t = s := (leaves_loadCart o.output s).2 e t hload
      exact .inl ⟨e, by simp [hthere, hload]⟩
    | ok start t =>
      obtain rfl : t = s := (leaves_loadCart o.output s).1 start t hload
      exact .inr ⟨start, .old hthere hload, by simp [hthere, hload]⟩

theorem size_sounds_of_takenFrom (hstart : Start o s start) (h : TakenFrom o s start p c) :
    c.sounds.size ≤ 4352 := by
  have hblank : (Cart.blank 8).sounds.size ≤ 4352 := Nat.le_of_eq (Cart.fullSize_blank 8).sounds
  have hfirst : start.sounds.size ≤ 4352 := by
    cases hstart with
    | old hthere hload => exact size_sounds_of_cartIn (run_loadCart_eq_ok.mp hload).2.1
    | new hthere => exact hblank
  cases h with
  | cart hsource hload => exact size_sounds_of_cartIn (run_loadCart_eq_ok.mp hload).2.1
  | linked hsource hname hlink => exact hfirst
  | empty hsource hempty => exact hblank
  | start hsource hempty => exact hfirst

theorem exists_of_map_eq_ok {α β : Type} {x : Except Failure α} {f : α → β} {b : β}
    (h : x.map f = .ok b) : ∃ a, x = .ok a ∧ f a = b := by
  cases x with
  | error e => cases h
  | ok a =>
    cases h
    exact ⟨a, rfl, rfl⟩

def readBack (c : Cart) (q : Program) : Cart where
  version := 8
  program := q
  sprites := SpriteSheet.wholeRows c.sprites
  flags := c.flags
  tiles := c.tiles
  sounds := c.sounds
  songs := Songs.cleared c.songs
  label := c.label.map SpriteSheet.wholeRows

theorem region_readBack (hp : p ≠ .program) (c : Cart) (q : Program) :
    p.region (readBack c q) = p.kept (p.region c) := by
  cases p with
  | program => exact absurd rfl hp
  | sprites | flags | tiles | sounds | songs => rfl

theorem cartIn_of_writeText {d : Disk} (hname : endsWith file textEnding = true)
    (hfailure : (c.writeText w none).failure = none) (hsounds : c.sounds.size ≤ 4352)
    (hcode : ∀ l ∈ lines (Cart.programText (c.program.write w).lines),
      TextFile.sectionName? l = none) (hread : d.read file.toList = .ok (.bytes (c.writeText w none).text)) :
    cartIn d file =
      (Program.ofLines 8 (lines (Cart.programText (c.program.write w).lines))).map
        (readBack c) := by
  have hcart : isCartName file = true := by rw [isCartName, hname, Bool.or_true]
  obtain ⟨hfull, hwhole, htext⟩ := Cart.text_of_writeText hfailure hsounds
  have hlines : ∀ l ∈ lines (Cart.programText (c.program.write w).lines),
      IsLine l ∧ TextFile.sectionName? l = none := by
    intro l hl
    refine ⟨?_, hcode l hl⟩
    rw [← Cart.closed_programText] at hl
    exact isLine_of_mem_lines_closed hl
  rw [cartIn, hcart, hread]
  change (if endsWith file textEnding then Cart.ofTextFile (c.writeText w none).text else _) = _
  rw [if_pos hname, htext, Cart.ofTextFile_sections hfull hwhole hlines]
  rfl

theorem writer_of_not_minify (hminify : o.minify = false) (hw : o.writer = .ok w) : w = .echo := by
  rw [BuildOptions.writer, hminify] at hw
  split at hw
  · cases hw
  · cases hw
    rfl

theorem exists_ofLines_echo {v : Int} {pieces : List Bytes} {p : Program} (hcut : LineCut pieces)
    (hreturn : 13 ∉ pieces.flatten) (hp : Program.ofLines v pieces = .ok p) :
    ∃ q, Program.ofLines 8 (lines (Cart.programText (p.write .echo).lines)) = .ok q := by
  obtain ⟨ls, hls, hholds⟩ := Program.holds_of_ofLines hcut hp
  obtain ⟨q, hq, -⟩ := hholds.exists_ofLines_closed hls (hls.plainLineEnds hreturn) 8
  have hlines : (p.write .echo).lines = Stream.echo p.tokens.toList := rfl
  rw [hlines, Cart.programText_eq_closed (hholds.echo_ne_nil hls), hholds.flatten_echo]
  exact ⟨q, hq⟩

/-- **What a build leaves on the disk.**

A build for a text that fails, or ends with the number one, leaves the disk as it was; it ends with no other
number but zero.  If it ends with zero, it has written the output file and nothing else.  Let no line of
the text of the new program start a section.  Then the output file is read as a cart if and only if the
text of the program is read as a program; and the cart has that program, and in each region the bytes of the
region's origin, but for a last row of sprites that is not full, and for the top bit of every fourth byte
of the songs.  The text of a program that was read without carriage returns, and is not made short, is
always read. -/
theorem build_outcome (o : BuildOptions) (s : Session) (hname : endsWith o.output textEnding = true) :
    (∀ e s', (build o).run s = .error e s' → s'.disk = s.disk) ∧
      (∀ n s', (build o).run s = .ok n s' → n = 0 ∨ n = 1 ∧ s'.disk = s.disk) ∧
      ∀ s', (build o).run s = .ok 0 s' →
        ∃ start source w text, Start o s start ∧ TakenFrom o s start .program source ∧
          o.writer = .ok w ∧ s.disk.write o.output.toList (.bytes text) = .ok s'.disk ∧
          let code := Bytes.lines (Cart.programText (source.program.write w).lines)
          ((∀ l ∈ code, TextFile.sectionName? l = none) →
            ∀ t : Session, t.disk = s'.disk → t.stopped = false →
              ((∃ c, (loadCart o.output).run t = .ok c t) ↔ ∃ q, Program.ofLines 8 code = .ok q) ∧
              ∀ c, (loadCart o.output).run t = .ok c t →
                Program.ofLines 8 code = .ok c.program ∧
                ∀ p, p ≠ .program → ∃ source, TakenFrom o s start p source ∧
                  p.region c = p.kept (p.region source)) ∧
          (o.minify = false → ∀ v pieces, LineCut pieces → 13 ∉ pieces.flatten →
            Program.ofLines v pieces = .ok source.program → ∃ q, Program.ofLines 8 code = .ok q) := by
  have hcart : isCartName o.output = true := by rw [isCartName, hname, Bool.or_true]
  refine ⟨fun e s' h => ?_, fun n s' h => ?_, fun s' h => ?_⟩
  · rcases run_build (s := s) hcart with ⟨f, hrun⟩ | ⟨start, -, hrun⟩
    · rw [hrun] at h
      cases h
      rfl
    · rw [hrun] at h
      exact disk_of_buildOn_error h
  · rcases run_build (s := s) hcart with ⟨f, hrun⟩ | ⟨start, -, hrun⟩
    · rw [hrun] at h
      cases h
    · rw [hrun] at h
      rcases buildOn_cases h with hrefused | ⟨hdone, -⟩
      · exact .inr hrefused
      · exact .inl hdone
  · rcases run_build (s := s) hcart with ⟨f, hrun⟩ | ⟨start, hstart, hrun⟩
    · rw [hrun] at h
      cases h
    rw [hrun] at h
    rcases buildOn_cases h with ⟨hone, -⟩ | ⟨-, c, w, htake, hw, hsave⟩
    · cases hone
    obtain ⟨horigins, -⟩ :=
      takenFrom_of_takeParts (by decide) (fun p _ => BuildPart.Agrees.refl p start) htake
    obtain ⟨hfailure, hwrite⟩ := text_of_saveCart hname hsave
    obtain ⟨source, hsource, hprogram⟩ := horigins .program (by decide)
    obtain ⟨sounding, hsounding, hsounds⟩ := horigins .sounds (by decide)
    have hsize : c.sounds.size ≤ 4352 := by
      rw [show c.sounds = sounding.sounds from hsounds]
      exact size_sounds_of_takenFrom hstart hsounding
    refine ⟨start, source, w, _, hstart, hsource, hw, hwrite, ?_⟩
    rw [← show c.program = source.program from hprogram]
    refine ⟨fun hcode t hdisk hrunning => ?_, fun hminify v pieces hcut hreturn hp => ?_⟩
    · have hread : t.disk.read o.output.toList = _ := hdisk ▸ Disk.read_of_write hwrite
      have hload := cartIn_of_writeText hname hfailure hsize hcode hread
      refine ⟨⟨?_, ?_⟩, fun d hd => ?_⟩
      · rintro ⟨d, hd⟩
        have hin := (run_loadCart_eq_ok.mp hd).2.1
        rw [hload] at hin
        obtain ⟨q, hq, -⟩ := exists_of_map_eq_ok hin
        exact ⟨q, hq⟩
      · rintro ⟨q, hq⟩
        refine ⟨readBack c q, run_loadCart_eq_ok.mpr ⟨hrunning, ?_, rfl⟩⟩
        rw [hload, hq]
        rfl
      · have hin := (run_loadCart_eq_ok.mp hd).2.1
        rw [hload] at hin
        obtain ⟨q, hq, rfl⟩ := exists_of_map_eq_ok hin
        refine ⟨hq, fun p hp => ?_⟩
        obtain ⟨source, horigin, hagrees⟩ := horigins p (by cases p <;> decide)
        exact ⟨source, horigin, by rw [region_readBack hp, hagrees.region_eq]⟩
    · rw [writer_of_not_minify hminify hw]
      exact exists_ofLines_echo hcut hreturn hp

end Building

/-! ### Builds of a single program -/

def programSession (source : String) : Session :=
  { disk := { files := [(["m.lua".toList], .bytes (ofText source))] } }

def programOptions (minify : Bool) : BuildOptions where
  output := "o.p8"
  source := fun p => if p = .program then some "m.lua" else none
  minify := minify

def programCart (p : Program) : Cart := { Cart.blank 8 with program := p }

theorem takeParts_of_none {o : BuildOptions}
    (h : ∀ p ∈ ps, o.source p = none ∧ o.empty p = false) (c : Cart) : takeParts o ps c = pure (.ok c) := by
  induction ps with
  | nil => rfl
  | cons p rest ih =>
    obtain ⟨hsource, hempty⟩ := h p List.mem_cons_self
    rw [takeParts, hsource, hempty]
    exact ih fun q hq => h q (List.mem_cons_of_mem p hq)

theorem run_linkedProgram_program {p : Program}
    (hp : Program.ofLines 8 (lines (ofText source)) = .ok p)
    (hcalls : p.root.calls.any Linking.isRequire = false) :
    (linkedProgram (programOptions m) "m.lua").run (programSession source) =
      .ok p (programSession source) := by
  have hread : (programSession source).disk.read "m.lua".toList =
      .ok (.bytes (ofText source)) := rfl
  have hpackages : Linking.packages (programSession source).disk {} p "m.lua".toList = .ok [] := by
    rw [Linking.packages, hcalls]
  refine run_bind_eq_ok.mpr
    ⟨_, _, run_bind_eq_ok.mpr ⟨_, _, rfl, run_lift_eq_ok.mpr ⟨hread, rfl⟩⟩, ?_⟩
  refine run_bind_eq_ok.mpr ⟨p, _, run_lift_eq_ok.mpr ⟨hp, rfl⟩, ?_⟩
  refine run_bind_eq_ok.mpr ⟨_, _, rfl, ?_⟩
  exact run_bind_eq_ok.mpr ⟨[], _, run_lift_eq_ok.mpr ⟨hpackages, rfl⟩, rfl⟩

theorem run_takeParts_program {p : Program}
    (hp : Program.ofLines 8 (lines (ofText source)) = .ok p)
    (hcalls : p.root.calls.any Linking.isRequire = false) :
    (takeParts (programOptions m) BuildPart.all (Cart.blank 8)).run (programSession source) =
      .ok (.ok (programCart p)) (programSession source) := by
  have hfrom : (takeFrom (programOptions m) .program "m.lua" (Cart.blank 8)).run
      (programSession source) = .ok (.ok (programCart p)) (programSession source) := by
    refine run_bind_eq_ok.mpr ⟨_, _, rfl, ?_⟩
    exact run_bind_eq_ok.mpr ⟨p, _, run_linkedProgram_program hp hcalls, rfl⟩
  refine run_bind_eq_ok.mpr ⟨_, _, hfrom, ?_⟩
  have hnone : ∀ p ∈ [BuildPart.sprites, .flags, .tiles, .sounds, .songs],
      (programOptions m).source p = none ∧ (programOptions m).empty p = false := by
    cases m <;> decide
  have hrest := takeParts_of_none hnone (programCart p)
  exact congrArg (fun a => EStateM.run a (programSession source)) hrest

theorem exists_run_explainNames (out : Output) (s : Session) :
    ∃ s', (explainNames out).run s = .ok () s' := by
  rw [explainNames]
  induction out.renamed generalizing s with
  | nil => exact ⟨s, rfl⟩
  | cons names rest ih =>
    have hexplain : ∀ text, ∃ t, (explain text).run s = .ok () t := by
      intro text
      by_cases hdebug : s.verbosity = .debug
      · exact ⟨_, run_bind_eq_ok.mpr ⟨_, _, rfl, by rw [if_pos hdebug]; rfl⟩⟩
      · exact ⟨_, run_bind_eq_ok.mpr ⟨_, _, rfl, by rw [if_neg hdebug]; rfl⟩⟩
    obtain ⟨t, ht⟩ := hexplain _
    obtain ⟨s', hs'⟩ := ih t
    exact ⟨s', run_bind_eq_ok.mpr ⟨(), t, ht, hs'⟩⟩

theorem exists_run_saveCart {s : Session} {d : Disk} (hname : endsWith file textEnding = true)
    (hfailure : (c.writeText w none).failure = none)
    (hwrite : s.disk.write file.toList (.bytes (c.writeText w none).text) = .ok d) :
    ∃ s', (saveCart file c w).run s = .ok () s' ∧ s'.disk = d := by
  have htext : ∃ t, (cartText c w none).run s = .ok (c.writeText w none).text t := by
    have hdeliver : ∀ t, (deliver (c.writeText w none)).run t = .ok (c.writeText w none).text t := by
      intro t
      rw [deliver, hfailure]
      rfl
    obtain ⟨t, ht⟩ := exists_run_explainNames (c.program.write w) s
    rw [cartText_eq]
    by_cases hlong : 2 < (c.writeText w none).pieces.length
    · rw [if_pos hlong]
      obtain ⟨v, hv⟩ := exists_run_explainNames (c.program.write w)
        { t with err := t.err ++ (c.writeText w none).warnings }
      exact ⟨v, run_bind_eq_ok.mpr ⟨(), t, ht, run_bind_eq_ok.mpr ⟨(), _, rfl,
        run_bind_eq_ok.mpr ⟨(), v, hv, hdeliver v⟩⟩⟩⟩
    · rw [if_neg hlong]
      exact ⟨_, run_bind_eq_ok.mpr ⟨(), t, ht, run_bind_eq_ok.mpr ⟨(), _, rfl, hdeliver _⟩⟩⟩
  obtain ⟨t, ht⟩ := htext
  have hdisk : t.disk = s.disk := (leaves_cartText c w none s).1 _ t ht
  rw [← hdisk] at hwrite
  rw [saveCart, not_endsWith_png hname, if_neg (by decide)]
  exact ⟨_, run_bind_eq_ok.mpr ⟨_, t, ht, run_bind_eq_ok.mpr ⟨_, _, rfl,
    run_bind_eq_ok.mpr ⟨d, t, run_lift_eq_ok.mpr ⟨hwrite, rfl⟩, rfl⟩⟩⟩, rfl⟩

theorem run_build_program {p q : Program} (hp : Program.ofLines 8 (lines (ofText source)) = .ok p)
    (hcalls : p.root.calls.any Linking.isRequire = false) (hw : (programOptions m).writer = .ok w)
    (hq : Program.ofSource 8 (p.write w).lines (p.write w).failure = .ok q) :
    ∃ s', (build (programOptions m)).run (programSession source) = .ok 0 s' ∧
      ((programCart p).writeText w none).failure = none ∧
      s'.disk.read "o.p8".toList = .ok (.bytes ((programCart p).writeText w none).text) := by
  have hfull := Cart.fullSize_blank 8
  have hsongs : (programCart p).songs.size = 256 := hfull.songs
  have hfailure : ((programCart p).writeText w none).failure = none :=
    Cart.failure_writeText hq hfull.sounds (by rw [hsongs]; decide)
  obtain ⟨d, hwrite⟩ : ∃ d, (programSession source).disk.write "o.p8".toList
      (.bytes ((programCart p).writeText w none).text) = .ok d := ⟨_, rfl⟩
  obtain ⟨s', hsave, hdisk⟩ := exists_run_saveCart (by decide) hfailure hwrite
  refine ⟨s', ?_, hfailure, by rw [hdisk]; exact Disk.read_of_write hwrite⟩
  have hon : (buildOn (programOptions m) (Cart.blank 8)).run (programSession source) = .ok 0 s' := by
    refine run_bind_eq_ok.mpr ⟨_, _, run_takeParts_program hp hcalls, ?_⟩
    refine run_bind_eq_ok.mpr ⟨w, _, run_lift_eq_ok.mpr ⟨hw, rfl⟩, ?_⟩
    exact run_bind_eq_ok.mpr ⟨(), s', hsave, rfl⟩
  have hthere : (programSession source).disk.isThere "o.p8".toList = false := rfl
  have houtput : (programOptions m).output = "o.p8" := rfl
  rw [build_eq, if_neg (by cases m <;> decide)]
  refine run_bind_eq_ok.mpr ⟨_, _, rfl, ?_⟩
  rw [houtput, if_neg (by rw [hthere]; decide)]
  exact hon

theorem exists_of_isOk (source : String) (w : Writer) (code : List Bytes)
    (h : (Program.ofLines 8 (lines (ofText source))).toOption.map (fun p =>
      (p.root.calls.any Linking.isRequire,
        (Program.ofSource 8 (p.write w).lines (p.write w).failure).isOk,
        lines (Cart.programText (p.write w).lines))) = some (false, true, code)) :
    ∃ p q, Program.ofLines 8 (lines (ofText source)) = .ok p ∧
      p.root.calls.any Linking.isRequire = false ∧
      Program.ofSource 8 (p.write w).lines (p.write w).failure = .ok q ∧
      lines (Cart.programText (p.write w).lines) = code := by
  obtain ⟨p, hp, hfacts⟩ := Option.map_eq_some_iff.mp h
  simp only [Prod.mk.injEq] at hfacts
  cases hq : Program.ofSource 8 (p.write w).lines (p.write w).failure with
  | error e =>
    rw [hq] at hfacts
    cases hfacts.2.1
  | ok q => exact ⟨p, q, eq_ok_of_toOption hp, hfacts.1, hq, hfacts.2.2⟩

theorem build_outcome_program :
    ∃ s', (build (programOptions false)).run (programSession "x=1\n") = .ok 0 s' ∧
      ∃ c, (loadCart "o.p8").run { disk := s'.disk } = .ok c { disk := s'.disk } ∧
        c.flags = SpriteFlags.blank ∧ c.sounds = Sounds.blank := by
  obtain ⟨p, q, hp, hcalls, hq, hcode⟩ := exists_of_isOk "x=1\n" .echo [Bytes.ofText "x=1\n"]
    (by decide +kernel)
  obtain ⟨s', hbuild, -, -⟩ := run_build_program (m := false) hp hcalls rfl hq
  obtain ⟨start, source, w, text, hstart, hsource, hw, -, hloads, hparses⟩ :=
    (build_outcome (programOptions false) (programSession "x=1\n") (by decide)).2.2 s' hbuild
  cases hw
  obtain rfl : start = Cart.blank 8 := by
    cases hstart with
    | old hthere hload => cases hthere
    | new hthere => rfl
  have hprogram : source.program = p := by
    cases hsource with
    | cart hfile hload =>
      cases hfile
      cases (run_loadCart_eq_ok.mp hload).2.1
    | linked hfile hname hlink =>
      cases hfile
      rw [run_linkedProgram_program hp hcalls] at hlink
      cases hlink
      rfl
    | empty hnone hempty => cases hnone
    | start hnone hempty => cases hnone
  rw [hprogram, hcode] at hloads hparses
  have hcut : LineCut (Bytes.lines (Bytes.ofText "x=1\n")) := by unfold LineCut; decide
  obtain ⟨hiff, hregions⟩ := hloads (by decide) { disk := s'.disk } rfl rfl
  obtain ⟨c, hc⟩ := hiff.mpr (hparses rfl 8 _ hcut (by decide) hp)
  refine ⟨s', hbuild, c, hc, ?_, ?_⟩
  · obtain ⟨source, horigin, hflags⟩ := (hregions c hc).2 .flags (by decide)
    cases horigin with
    | cart hfile hload => cases hfile
    | empty hnone hempty => cases hempty
    | start hnone hempty => exact hflags
  · obtain ⟨source, horigin, hsounds⟩ := (hregions c hc).2 .sounds (by decide)
    cases horigin with
    | cart hfile hload => cases hfile
    | empty hnone hempty => cases hempty
    | start hnone hempty => exact hsounds

/-- **A new cart that cannot be loaded**: two dashes of its program run together. -/
theorem build_minified_unreadable :
    ∃ s', (build (programOptions true)).run (programSession "x=- -b\n") = .ok 0 s' ∧
      ∀ t c, t.disk = s'.disk → (loadCart "o.p8").run t ≠ .ok c t := by
  obtain ⟨p, q, hp, hcalls, hq, hcode⟩ := exists_of_isOk "x=- -b\n" .minifyTokens
    [Bytes.ofText "a=--b\n"] (by decide +kernel)
  obtain ⟨s', hbuild, hfailure, hread⟩ := run_build_program (m := true) hp hcalls rfl hq
  refine ⟨s', hbuild, fun t c hdisk hload => ?_⟩
  have hlines : Bytes.lines (Cart.programText ((programCart p).program.write .minifyTokens).lines) =
      [Bytes.ofText "a=--b\n"] := hcode
  rw [← hdisk] at hread
  have hcart := cartIn_of_writeText (by decide) hfailure
    (Nat.le_of_eq (Cart.fullSize_blank 8).sounds) (by rw [hlines]; decide) hread
  rw [hlines, (run_loadCart_eq_ok.mp hload).2.1] at hcart
  obtain ⟨q, hq, -⟩ := exists_of_map_eq_ok hcart.symm
  have hbad : (Program.ofLines 8 [Bytes.ofText "a=--b\n"]).isOk = false := by decide +kernel
  rw [hq] at hbad
  cases hbad

end Cartridge.Command
