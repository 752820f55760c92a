import Cartridge.Memory.Sounds
import Cartridge.Proofs.Memory.RegionText

/-!
# Sounds as text

A pattern has a line: two digits for each of its four settings, and five for each
of its 32 notes.  The digits of a note are its pitch, waveform, volume and effect,
whose bits are scattered over two bytes.  Reading stores the settings and the notes
of line after line in a region that is there already.

What is stored does not depend on what was there: the parts of a note fill all bits
of its two bytes.  So each store of a line's reading brings bytes of the region that
was written, and after all lines there are no others left.
-/

namespace Cartridge

open List Region Hex

/-! ### Edits that bring bytes to their places -/

theorem run_seq {σ : Type} {e e' : EStateM Failure σ Unit} {s s₁ s₂ : σ} (h : e.run s = .ok () s₁)
    (h' : e'.run s₁ = .ok () s₂) : (do e; e').run s = .ok () s₂ := by
  rw [EStateM.run_bind, h]
  exact h'

namespace Region

/-- The edit succeeds and brings the positions `new` to their bytes in `target`,
while other bytes that are those of `target` stay. -/
def Fills (target : Region) (e : Edit Unit) (new : Nat → Prop) : Prop :=
  ∀ r : Region, r.size = target.size →
    ∃ r', e.run r = .ok () r' ∧ r'.size = target.size ∧
      ∀ i, new i ∨ r[i]? = target[i]? → r'[i]? = target[i]?

variable {target : Region}

theorem fills_pure : Fills target (pure ()) fun _ => False := by
  intro r hr
  exact ⟨r, rfl, hr, fun i hi => hi.resolve_left id⟩

theorem Fills.seq {e e' : Edit Unit} {new new' : Nat → Prop} (h : Fills target e new)
    (h' : Fills target e' new') : Fills target (do e; e') fun i => new i ∨ new' i := by
  intro r hr
  obtain ⟨r₁, hrun, hsize, hnew⟩ := h r hr
  obtain ⟨r₂, hrun', hsize', hnew'⟩ := h' r₁ hsize
  refine ⟨r₂, run_seq hrun hrun', hsize', fun i hi => hnew' i ?_⟩
  rcases hi with (hi | hi) | hi
  · exact .inr (hnew i (.inl hi))
  · exact .inl hi
  · exact .inr (hnew i (.inr hi))

theorem Fills.mono {e : Edit Unit} {new new' : Nat → Prop} (h : Fills target e new)
    (hnew : ∀ i, new' i → new i) : Fills target e new' := by
  intro r hr
  obtain ⟨r', hrun, hsize, hfill⟩ := h r hr
  exact ⟨r', hrun, hsize, fun i hi => hfill i (hi.imp_left (hnew i))⟩

theorem Fills.forM {α : Type} {f : α → Edit Unit} {new : α → Nat → Prop} {l : List α}
    (h : ∀ a ∈ l, Fills target (f a) (new a)) :
    Fills target (l.forM f) fun i => ∃ a ∈ l, new a i := by
  induction l with
  | nil =>
    refine fills_pure.mono ?_
    rintro i ⟨a, ha, -⟩
    cases ha
  | cons a l ih =>
    have htail := ih fun b hb => h b (mem_cons_of_mem a hb)
    refine ((h a mem_cons_self).seq htail).mono ?_
    rintro i ⟨b, hb, hi⟩
    rcases mem_cons.mp hb with rfl | hb
    · exact .inl hi
    · exact .inr ⟨b, hb, hi⟩

theorem position?_of_lt {n i : Nat} (h : i < n) : Slice.position? n (i : Int) = some i := by
  rw [Slice.position?, if_pos (by omega), if_pos (by omega), Int.toNat_natCast]

theorem byte?_toNat (b : UInt8) : byte? (b.toNat : Int) = some b := by
  have hlt := b.toNat_lt
  rw [byte?, if_pos ⟨by omega, by omega⟩, Int.toNat_natCast]
  simp

theorem exists_byte {v : Int} {most : Nat} (hv : 0 ≤ v ∧ v ≤ most) (hmost : most < 256) :
    ∃ b : UInt8, v = (b.toNat : Int) := by
  refine ⟨v.toNat.toUInt8, ?_⟩
  rw [UInt8.toNat_ofNat_of_lt' (show v.toNat < 256 by omega)]
  omega

theorem run_read (r : Region) {i : Nat} (h : i < r.size) :
    (read (i : Int)).run r = .ok r[i] r := by
  rw [read, EStateM.run_bind, EStateM.run_get]
  dsimp only
  rw [fetch_of_lt h]
  rfl

theorem run_store (r : Region) {i : Nat} (h : i < r.size) (b : UInt8) :
    (store (i : Int) (b.toNat : Int)).run r = .ok () (r.setIfInBounds i b) := by
  rw [store, byte?_toNat]
  dsimp only
  rw [EStateM.run_bind, EStateM.run_get]
  dsimp only
  rw [position?_of_lt h]
  rfl

theorem getD_setIfInBounds {r : Region} {n : Nat} (hn : n < r.size) (b : UInt8) (k : Nat) :
    (r.setIfInBounds n b).getD k 0 = if k = n then b else r.getD k 0 := by
  rw [Array.getD_eq_getD_getElem?, Array.getD_eq_getD_getElem?, Array.getElem?_setIfInBounds]
  by_cases hk : k = n
  · subst hk
    simp [hn]
  · simp [hk, Ne.symm hk]

theorem fills_store {i : Nat} (h : i < target.size) :
    Fills target (store (i : Int) (target[i].toNat : Int)) (· = i) := by
  intro r hr
  refine ⟨r.setIfInBounds i target[i], run_store r (hr ▸ h) _, by simpa using hr, fun j hj => ?_⟩
  by_cases hij : j = i
  · subst hij
    rw [Array.getElem?_setIfInBounds_self_of_lt (hr ▸ h), Array.getElem?_eq_getElem h]
  · rw [Array.getElem?_setIfInBounds_ne (Ne.symm hij)]
    exact hj.resolve_left hij

theorem size_foldl_replicate (p : Region) (n : Nat) (start : Region) :
    ((replicate n p).foldl (· ++ ·) start).size = start.size + n * p.size := by
  induction n generalizing start with
  | zero => simp
  | succ n ih =>
    rw [replicate_succ, foldl_cons, ih, Array.size_append, Nat.succ_mul]
    omega

end Region

/-! ### The bits of a note -/

theorem eq_of_bits {a b : UInt8}
    (h : ∀ i ∈ [0, 1, 2, 3, 4, 5, 6, 7], a.toBitVec.getLsbD i = b.toBitVec.getLsbD i) : a = b := by
  refine UInt8.eq_of_toBitVec_eq (BitVec.eq_of_getLsbD_eq fun i hi => h i ?_)
  simp only [mem_cons, not_mem_nil, or_false]
  omega

def Note.change (n : Note) : NoteChange where
  pitch := some n.pitch.toNat
  waveform := some n.waveform.toNat
  volume := some n.volume.toNat
  effect := some n.effect.toNat

namespace NoteBytes

theorem merge_low (old low : UInt8) :
    (((old &&& (0xc0 : UInt8)) ||| (low &&& (0x3f : UInt8))) &&& (0x3f : UInt8)) |||
      ((low >>> 6) <<< 6) = low := by
  refine eq_of_bits ?_
  simp

theorem merge_high (old high : UInt8) :
    ((((old &&& (0x7e : UInt8)) ||| (high &&& 0x01) ||| (high &&& 0x80)) &&& (0xf1 : UInt8)) |||
      (high &&& 0x0e)) &&& (0x8f : UInt8) ||| (high &&& 0x70) = high := by
  refine eq_of_bits ?_
  simp

theorem waveform_bits (b : NoteBytes) :
    b.note.waveform &&& (3 : UInt8) = b.low >>> 6 ∧
      (b.note.waveform &&& (4 : UInt8)) >>> 2 = b.high &&& (0x01 : UInt8) ∧
      (b.note.waveform &&& (8 : UInt8)) <<< 4 = b.high &&& (0x80 : UInt8) := by
  unfold note
  refine ⟨eq_of_bits ?_, eq_of_bits ?_, eq_of_bits ?_⟩
  · simp
  · simp
  · simp

theorem volume_bits (high : UInt8) : ((high &&& (0x0e : UInt8)) >>> 1) <<< 1 = high &&& 0x0e := by
  refine eq_of_bits ?_
  simp

theorem effect_bits (high : UInt8) : ((high &&& (0x70 : UInt8)) >>> 4) <<< 4 = high &&& 0x70 := by
  refine eq_of_bits ?_
  simp

theorem effect_and (high : UInt8) :
    ((high &&& (0x70 : UInt8)) >>> 4) &&& (15 : UInt8) = (high &&& (0x70 : UInt8)) >>> 4 := by
  refine eq_of_bits ?_
  simp

theorem masked_le (a most : UInt8) : (a &&& most).toNat ≤ most.toNat := by
  rw [UInt8.toNat_and]
  exact Nat.and_le_right

theorem volume_le (high : UInt8) : ((high &&& (0x0e : UInt8)) >>> 1).toNat ≤ 7 := by
  have hmask := masked_le high 0x0e
  rw [UInt8.toNat_shiftRight, Nat.shiftRight_eq_div_pow]
  exact Nat.div_le_div_right hmask

theorem effect_le (high : UInt8) : ((high &&& (0x70 : UInt8)) >>> 4).toNat ≤ 7 := by
  have hmask := masked_le high 0x70
  rw [UInt8.toNat_shiftRight, Nat.shiftRight_eq_div_pow]
  exact Nat.div_le_div_right hmask

theorem waveform_le (b : NoteBytes) : b.note.waveform.toNat ≤ 15 := by
  have hmask : b.note.waveform &&& 15 = b.note.waveform := by
    unfold note
    refine eq_of_bits ?_
    simp
  rw [← hmask]
  exact masked_le _ 15

theorem within_toNat {most : Nat} {v : UInt8} (h : v.toNat ≤ most) :
    within (most : Int) (v.toNat : Int) = .ok v := by
  rw [within, if_pos ⟨by omega, by omega⟩, Int.toNat_natCast]
  simp

theorem apply_note (b old : NoteBytes) : old.apply b.note.change = .ok b := by
  have hpitch : within 63 (b.note.pitch.toNat : Int) = .ok b.note.pitch :=
    within_toNat (masked_le b.low 0x3f)
  have hwaveform : within 15 (b.note.waveform.toNat : Int) = .ok b.note.waveform :=
    within_toNat (waveform_le b)
  have hvolume : within 7 (b.note.volume.toNat : Int) = .ok b.note.volume :=
    within_toNat (volume_le b.high)
  have heffect : within 7 (b.note.effect.toNat : Int) = .ok b.note.effect :=
    within_toNat (effect_le b.high)
  have happly : old.apply b.note.change = .ok
      ((((old.setPitch b.note.pitch).setWaveform b.note.waveform).setVolume b.note.volume).setEffect
        b.note.effect) := by
    simp only [apply, change, Note.change, hpitch, hwaveform, hvolume, heffect]
    rfl
  obtain ⟨h3, h4, h8⟩ := waveform_bits b
  have hlow := merge_low old.low b.low
  have hhigh := merge_high old.high b.high
  have hvolume' : b.note.volume <<< 1 = b.high &&& (0x0e : UInt8) := volume_bits b.high
  have heffect' : b.note.effect <<< 4 = b.high &&& (0x70 : UInt8) := effect_bits b.high
  rw [happly, Except.ok.injEq]
  simp only [setPitch, setWaveform, setVolume, setEffect, h3, h4, h8, hvolume', heffect']
  exact congr (congrArg NoteBytes.mk hlow) hhigh

end NoteBytes

namespace Sounds

/-! ### Storing a note and the settings -/

def byteAt (r : Region) (i : Nat) : UInt8 := r.getD i 0

theorem byteAt_of_lt {r : Region} {i : Nat} (h : i < r.size) : byteAt r i = r[i] := by
  simp [byteAt, h]

def noteBytesAt (r : Region) (id n : Nat) : NoteBytes :=
  ⟨byteAt r (68 * id + 2 * n), byteAt r (68 * id + 2 * n + 1)⟩

theorem notePosition_eq (id n : Nat) :
    notePosition id n = ((68 * id + 2 * n : Nat) : Int) := by
  unfold notePosition
  omega

theorem settingsPosition_eq (id : Nat) : settingsPosition id = ((68 * id + 64 : Nat) : Int) := by
  unfold settingsPosition
  omega

variable {target : Region}

theorem run_setNote {r : Region} {id n : Nat} (h : 68 * id + 2 * n + 1 < r.size) {c : NoteChange}
    {b : NoteBytes} (hb : (noteBytesAt r id n).apply c = .ok b) :
    (setNote id n c).run r = (do
      store (68 * id + 2 * n : Nat) (b.low.toNat : Int)
      store (68 * id + 2 * n + 1 : Nat) (b.high.toNat : Int)).run r := by
  have hlow : 68 * id + 2 * n < r.size := by omega
  have hsucc : ((68 * id + 2 * n : Nat) : Int) + 1 = ((68 * id + 2 * n + 1 : Nat) : Int) := by omega
  rw [noteBytesAt, byteAt_of_lt h, byteAt_of_lt hlow] at hb
  rw [setNote, notePosition_eq, hsucc, EStateM.run_bind, run_read r hlow]
  dsimp only
  rw [EStateM.run_bind, run_read r h]
  dsimp only
  rw [hb]

theorem fills_setNote {id n : Nat} (h : 68 * id + 2 * n + 1 < target.size) :
    Fills target (setNote id n (noteBytesAt target id n).note.change)
      fun i => i = 68 * id + 2 * n ∨ i = 68 * id + 2 * n + 1 := by
  intro r hr
  have hlow : 68 * id + 2 * n < target.size := by omega
  have hstores := (fills_store hlow).seq (fills_store h)
  rw [run_setNote (hr ▸ h) (NoteBytes.apply_note _ _), noteBytesAt, byteAt_of_lt h, byteAt_of_lt hlow]
  exact hstores r hr

def settingsAt (r : Region) (id : Nat) : SettingsChange where
  editorMode := some (byteAt r (68 * id + 64)).toNat
  noteDuration := some (byteAt r (68 * id + 65)).toNat
  loopStart := some (byteAt r (68 * id + 66)).toNat
  loopEnd := some (byteAt r (68 * id + 67)).toNat

theorem fills_setSettings {id : Nat} (h : 68 * id + 67 < target.size) :
    Fills target (setSettings id (settingsAt target id))
      fun i => 68 * id + 64 ≤ i ∧ i < 68 * id + 68 := by
  have hstore : ∀ k, k < 4 → Fills target
      (storeGiven (settingsPosition id + (k : Nat)) (some (byteAt target (68 * id + 64 + k)).toNat))
      (· = 68 * id + 64 + k) := by
    intro k hk
    have hposition : settingsPosition id + (k : Nat) = ((68 * id + 64 + k : Nat) : Int) := by
      rw [settingsPosition_eq]
      omega
    rw [hposition, storeGiven, byteAt_of_lt (show 68 * id + 64 + k < target.size by omega)]
    exact fills_store _
  have hall := (hstore 0 (by omega)).seq ((hstore 1 (by omega)).seq
    ((hstore 2 (by omega)).seq (hstore 3 (by omega))))
  have hzero : settingsPosition id + ((0 : Nat) : Int) = settingsPosition id := Int.add_zero _
  rw [hzero] at hall
  refine Fills.mono hall fun i hi => ?_
  omega

/-! ### The line of a pattern -/

def settingsDigits (r : Region) (id : Nat) : Bytes :=
  encode [byteAt r (68 * id + 64), byteAt r (68 * id + 65), byteAt r (68 * id + 66),
    byteAt r (68 * id + 67)]

def patternLine (r : Region) (id : Nat) : Bytes :=
  settingsDigits r id ++
    (range 32).flatMap (fun n => noteDigits (noteBytesAt r id n).note) ++ [Bytes.newline]

theorem note_eq {id n : Nat} (h : 68 * id + 2 * n + 1 < target.size) :
    note target id n = .ok (noteBytesAt target id n).note := by
  have hlow : 68 * id + 2 * n < target.size := by omega
  have hsucc : ((68 * id + 2 * n : Nat) : Int) + 1 = ((68 * id + 2 * n + 1 : Nat) : Int) := by omega
  rw [note, notePosition_eq, hsucc, fetch_of_lt hlow, fetch_of_lt h, noteBytesAt,
    byteAt_of_lt hlow, byteAt_of_lt h]
  rfl

theorem settings_eq {id : Nat} (h : 68 * id + 67 < target.size) :
    settings target id = .ok ⟨byteAt target (68 * id + 64), byteAt target (68 * id + 65),
      byteAt target (68 * id + 66), byteAt target (68 * id + 67)⟩ := by
  have hbyte : ∀ k, k < 4 → target.fetch (settingsPosition id + (k : Nat)) =
      .ok (byteAt target (68 * id + 64 + k)) := by
    intro k hk
    have hposition : settingsPosition id + (k : Nat) = ((68 * id + 64 + k : Nat) : Int) := by
      rw [settingsPosition_eq]
      omega
    rw [hposition, fetch_of_lt (show 68 * id + 64 + k < target.size by omega),
      byteAt_of_lt]
  have h0 : target.fetch (settingsPosition id) = .ok (byteAt target (68 * id + 64)) := by
    have := hbyte 0 (by omega)
    rwa [show ((0 : Nat) : Int) = 0 from rfl, Int.add_zero] at this
  have h1 : target.fetch (settingsPosition id + 1) = .ok (byteAt target (68 * id + 65)) :=
    hbyte 1 (by omega)
  have h2 : target.fetch (settingsPosition id + 2) = .ok (byteAt target (68 * id + 66)) :=
    hbyte 2 (by omega)
  have h3 : target.fetch (settingsPosition id + 3) = .ok (byteAt target (68 * id + 67)) :=
    hbyte 3 (by omega)
  rw [settings, h0, h1, h2, h3]
  rfl

theorem notes_eq {id : Nat} (h : 68 * id + 67 < target.size) :
    (range 32).mapM (fun (n : Nat) => note target id n) =
      .ok ((range 32).map fun n => (noteBytesAt target id n).note) := by
  refine mapM_eq_ok fun n hn => note_eq ?_
  rw [mem_range] at hn
  omega

theorem line_eq {id : Nat} (h : 68 * id + 67 < target.size) :
    line target id = .ok (patternLine target id) := by
  have hdigits : ((range 32).map fun n => (noteBytesAt target id n).note).flatMap noteDigits =
      (range 32).flatMap fun n => noteDigits (noteBytesAt target id n).note :=
    flatMap_map ..
  rw [line, notes_eq h, settings_eq h, patternLine, ← hdigits]
  rfl

theorem noteDigits_eq (b : NoteBytes) :
    noteDigits b.note = pair b.note.pitch ++
      [digit b.note.waveform, digit b.note.volume, digit b.note.effect] := by
  have hvolume := NoteBytes.volume_le b.high
  have heffect : b.note.effect &&& 15 = b.note.effect := NoteBytes.effect_and b.high
  have hpair : pair ((b.note.waveform <<< 4) ||| b.note.volume) =
      [digit b.note.waveform, digit b.note.volume] :=
    pair_halves (NoteBytes.waveform_le b) (Nat.le_trans hvolume (by decide))
  rw [noteDigits, heffect, encode, flatMap_cons, flatMap_cons, hpair]
  simp

theorem slice_append (a x : Bytes) (j k : Nat) :
    (a ++ x).slice (a.length + j) (a.length + k) = x.slice j k := by
  rw [Bytes.slice, take_length_add_append, drop_length_add_append, Bytes.slice]

theorem length_flatMap_noteDigits (r : Region) (id n : Nat) :
    ((range n).flatMap fun n => noteDigits (noteBytesAt r id n).note).length = 5 * n := by
  induction n with
  | zero => rfl
  | succ n ih =>
    rw [range_succ, flatMap_append, length_append, ih, flatMap_singleton,
      noteDigits_eq]
    simp only [pair, length_append, length_cons, length_nil]
    omega

theorem length_patternLine (r : Region) (id : Nat) : (patternLine r id).length = 169 := by
  rw [patternLine, length_append, length_append, length_flatMap_noteDigits,
    settingsDigits, length_encode]
  rfl

theorem exists_patternLine_eq (r : Region) (id : Nat) {n : Nat} (h : n < 32) :
    ∃ a z, a.length = 8 + 5 * n ∧
      patternLine r id = a ++ (noteDigits (noteBytesAt r id n).note ++ z) := by
  have hrange : range 32 = range n ++ (range (31 - n + 1)).map (n + ·) := by
    rw [← range_add, show n + (31 - n + 1) = 32 by omega]
  have hhead : range (31 - n + 1) = 0 :: (range (31 - n)).map Nat.succ :=
    range_succ_eq_map
  rw [hhead, map_cons, Nat.add_zero] at hrange
  refine ⟨settingsDigits r id ++ (range n).flatMap (fun n => noteDigits (noteBytesAt r id n).note),
    ((range (31 - n)).map Nat.succ |>.map (n + ·)).flatMap
      (fun n => noteDigits (noteBytesAt r id n).note) ++ [Bytes.newline], ?_, ?_⟩
  · rw [length_append, length_flatMap_noteDigits, settingsDigits, length_encode]
    rfl
  · rw [patternLine, hrange, flatMap_append, flatMap_cons]
    simp only [append_assoc]

theorem digitsAt_append (a x : Bytes) (j count : Nat) :
    digitsAt (a ++ x) (a.length + j) count = digitsAt x j count := by
  rw [digitsAt, digitsAt, Nat.add_assoc, slice_append]

theorem lineNote_patternLine (r : Region) (id : Nat) {n : Nat} (h : n < 32) :
    lineNote (patternLine r id) n = .ok (noteBytesAt r id n).note.change := by
  obtain ⟨a, z, hlength, hline⟩ := exists_patternLine_eq r id h
  generalize noteBytesAt r id n = b at hline ⊢
  rw [noteDigits_eq] at hline
  have hdigits : ∀ j count, digitsAt (patternLine r id) (8 + 5 * n + j) count = digitsAt
      (pair b.note.pitch ++
        [digit b.note.waveform, digit b.note.volume, digit b.note.effect] ++ z)
      j count := by
    intro j count
    rw [hline, ← hlength, digitsAt_append]
  have hone : ∀ {c : UInt8}, c.toNat ≤ 15 → ∀ {l : Bytes} {j : Nat},
      l.slice j (j + 1) = [digit c] → digitsAt l j 1 = .ok (c.toNat : Int) := by
    intro c hc l j hslice
    rw [digitsAt, hslice, integer?_digit c hc]
  have hpitch : digitsAt (patternLine r id) (8 + 5 * n) 2 = .ok (b.note.pitch.toNat : Int) := by
    have hslice : ∀ y, (pair b.note.pitch ++ y).slice 0 2 = pair b.note.pitch :=
      fun y => rfl
    rw [← Nat.add_zero (8 + 5 * n), hdigits, digitsAt, append_assoc, hslice,
      integer?_pair]
  have hwaveform : digitsAt (patternLine r id) (10 + 5 * n) 1 =
      .ok (b.note.waveform.toNat : Int) := by
    rw [show 10 + 5 * n = 8 + 5 * n + 2 by omega, hdigits]
    exact hone (NoteBytes.waveform_le b) rfl
  have hvolume : digitsAt (patternLine r id) (11 + 5 * n) 1 = .ok (b.note.volume.toNat : Int) := by
    rw [show 11 + 5 * n = 8 + 5 * n + 3 by omega, hdigits]
    exact hone (Nat.le_trans (NoteBytes.volume_le b.high) (by decide)) rfl
  have heffect : digitsAt (patternLine r id) (12 + 5 * n) 1 = .ok (b.note.effect.toNat : Int) := by
    rw [show 12 + 5 * n = 8 + 5 * n + 4 by omega, hdigits]
    exact hone (Nat.le_trans (NoteBytes.effect_le b.high) (by decide)) rfl
  rw [lineNote, hpitch, hwaveform, hvolume, heffect]
  rfl

theorem lineSettings_patternLine (r : Region) (id : Nat) :
    lineSettings (patternLine r id) = .ok (settingsAt r id) := by
  have hpair : ∀ {c : UInt8} {l : Bytes} {j : Nat}, l.slice j (j + 2) = pair c →
      digitsAt l j 2 = .ok (c.toNat : Int) := by
    intro c l j hslice
    rw [digitsAt, hslice, integer?_pair]
  have h0 : digitsAt (patternLine r id) 0 2 = .ok ((byteAt r (68 * id + 64)).toNat : Int) :=
    hpair rfl
  have h1 : digitsAt (patternLine r id) 2 2 = .ok ((byteAt r (68 * id + 65)).toNat : Int) :=
    hpair rfl
  have h2 : digitsAt (patternLine r id) 4 2 = .ok ((byteAt r (68 * id + 66)).toNat : Int) :=
    hpair rfl
  have h3 : digitsAt (patternLine r id) 6 2 = .ok ((byteAt r (68 * id + 67)).toNat : Int) :=
    hpair rfl
  rw [lineSettings, h0, h1, h2, h3]
  rfl

/-! ### All patterns -/

theorem fills_storeLine {id : Nat} (h : 68 * id + 67 < target.size) :
    Fills target (storeLine id (patternLine target id))
      fun i => 68 * id ≤ i ∧ i < 68 * id + 68 := by
  have hnotes : Fills target ((range 32).forM fun (n : Nat) =>
      editFrom (lineNote (patternLine target id) n) (setNote id n)) fun i =>
        ∃ n ∈ range 32, i = 68 * id + 2 * n ∨ i = 68 * id + 2 * n + 1 := by
    refine Fills.forM fun n hn => ?_
    rw [mem_range] at hn
    rw [lineNote_patternLine target id hn]
    exact fills_setNote (by omega)
  have hsettings : Fills target
      (editFrom (lineSettings (patternLine target id)) (setSettings id)) fun i =>
        68 * id + 64 ≤ i ∧ i < 68 * id + 68 := by
    rw [lineSettings_patternLine]
    exact fills_setSettings h
  refine (hsettings.seq hnotes).mono fun i hi => ?_
  by_cases hlow : 68 * id + 64 ≤ i
  · exact .inl ⟨hlow, hi.2⟩
  · refine .inr ⟨(i - 68 * id) / 2, mem_range.mpr (by omega), by omega⟩

theorem fills_storeLines {count first : Nat} (h : 68 * (first + count) ≤ target.size) :
    Fills target
      (storeLines first ((range count).map fun k => patternLine target (first + k)))
      fun i => 68 * first ≤ i ∧ i < 68 * (first + count) := by
  induction count generalizing first with
  | zero =>
    refine fills_pure.mono fun i hi => ?_
    omega
  | succ count ih =>
    have hlines : (range (count + 1)).map (fun k => patternLine target (first + k)) =
        patternLine target first ::
          (range count).map fun k => patternLine target (first + 1 + k) := by
      rw [range_succ_eq_map, map_cons, map_map, Nat.add_zero]
      refine congrArg (_ :: ·) (map_congr_left fun k _ => ?_)
      rw [Function.comp_apply, Nat.succ_eq_add_one, Nat.add_right_comm, Nat.add_assoc]
    have hfirst : Fills target (storeLine first (patternLine target first)) _ :=
      fills_storeLine (by omega)
    have hrest : Fills target (storeLines (first + 1) _) _ := ih (by omega)
    rw [hlines, storeLines]
    refine (hfirst.seq hrest).mono fun i hi => ?_
    omega

theorem lines_eq (h : target.size = 4352) :
    lines target = ((range 64).map (patternLine target), none) := by
  refine linesUntil_eq fun id hid => line_eq ?_
  rw [mem_range] at hid
  omega

theorem size_blank : blank.size = 4352 := by
  have hpattern : ∀ duration, (blankPattern duration).size = 68 := by simp [blankPattern]
  rw [blank, size_foldl_replicate, hpattern, hpattern]

theorem ofLines_lines (h : target.size = 4352) : ofLines (lines target).1 = .ok target := by
  have hkept : ((range 64).map (patternLine target)).filter (fun l => l.length == 169) =
      (range 64).map (patternLine target) := by
    rw [filter_eq_self]
    intro l hl
    obtain ⟨id, -, rfl⟩ := mem_map.mp hl
    rw [length_patternLine]
    rfl
  have hfills : Fills target
      (storeLines 0 ((range 64).map fun k => patternLine target (0 + k))) _ :=
    fills_storeLines (by omega)
  simp only [Nat.zero_add] at hfills
  obtain ⟨r, hrun, hsize, hr⟩ := hfills blank (size_blank.trans h.symm)
  have hr' : r = target := by
    refine Array.ext hsize fun i hi hi' => ?_
    have hget := hr i (.inl (by omega))
    rw [Array.getElem?_eq_getElem hi, Array.getElem?_eq_getElem hi'] at hget
    exact Option.some.inj hget
  rw [lines_eq h, ofLines, hkept, edited, hrun, hr']

theorem isDigitLine_of_mem_lines (h : target.size = 4352) {l : Bytes} (hl : l ∈ (lines target).1) :
    IsDigitLine l := by
  rw [lines_eq h] at hl
  obtain ⟨id, -, rfl⟩ := mem_map.mp hl
  refine ⟨_, fun d hd => .inl ?_, rfl⟩
  rw [mem_append] at hd
  rcases hd with hd | hd
  · exact isDigit_encode hd
  · obtain ⟨n, -, hd⟩ := mem_flatMap.mp hd
    rw [noteDigits, mem_append, mem_singleton] at hd
    rcases hd with hd | rfl
    · exact isDigit_encode hd
    · rw [isDigit, value?_digit_low]
      rfl

end Sounds
end Cartridge
