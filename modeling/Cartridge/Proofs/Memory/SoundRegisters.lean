import Cartridge.Proofs.Memory.SoundText

/-!
# The registers of sounds

A pattern has four registers for each of its notes, whose bits share two bytes, and four bytes of settings.
A call gives values to some registers of one note, or to some settings of one pattern.  It changes no other
register, so that after any number of calls a register holds what it was given last.
-/

namespace Cartridge

inductive NotePart where
  | pitch
  | waveform
  | volume
  | effect
deriving DecidableEq

inductive Setting where
  | editorMode
  | noteDuration
  | loopStart
  | loopEnd
deriving DecidableEq

/-! ### The parts of a note -/

namespace NotePart

def ofNote : NotePart → Note → UInt8
  | pitch => Note.pitch
  | waveform => Note.waveform
  | volume => Note.volume
  | effect => Note.effect

def given : NotePart → NoteChange → Option Int
  | pitch => NoteChange.pitch
  | waveform => NoteChange.waveform
  | volume => NoteChange.volume
  | effect => NoteChange.effect

def most : NotePart → UInt8
  | pitch => 63
  | waveform => 15
  | volume => 7
  | effect => 7

def put : NotePart → NoteBytes → UInt8 → NoteBytes
  | pitch => NoteBytes.setPitch
  | waveform => NoteBytes.setWaveform
  | volume => NoteBytes.setVolume
  | effect => NoteBytes.setEffect

section

variable (q : NotePart) (b : NoteBytes) (v : UInt8)

theorem ofNote_setPitch : q.ofNote (b.setPitch (v &&& most .pitch)).note =
    if q = .pitch then v &&& most .pitch else q.ofNote b.note := by
  cases q <;> refine eq_of_bits ?_ <;> simp [ofNote, most, NoteBytes.note, NoteBytes.setPitch]

theorem ofNote_setWaveform : q.ofNote (b.setWaveform (v &&& most .waveform)).note =
    if q = .waveform then v &&& most .waveform else q.ofNote b.note := by
  cases q <;> refine eq_of_bits ?_ <;> simp [ofNote, most, NoteBytes.note, NoteBytes.setWaveform]

theorem ofNote_setVolume : q.ofNote (b.setVolume (v &&& most .volume)).note =
    if q = .volume then v &&& most .volume else q.ofNote b.note := by
  cases q <;> refine eq_of_bits ?_ <;> simp [ofNote, most, NoteBytes.note, NoteBytes.setVolume]

theorem ofNote_setEffect : q.ofNote (b.setEffect (v &&& most .effect)).note =
    if q = .effect then v &&& most .effect else q.ofNote b.note := by
  cases q <;> refine eq_of_bits ?_ <;> simp [ofNote, most, NoteBytes.note, NoteBytes.setEffect]

end

theorem ofNote_put (p q : NotePart) (b : NoteBytes) {v : UInt8} (hv : v &&& p.most = v) :
    q.ofNote (p.put b v).note = if q = p then v else q.ofNote b.note := by
  rw [← hv]
  cases p with
  | pitch => exact ofNote_setPitch q b v
  | waveform => exact ofNote_setWaveform q b v
  | volume => exact ofNote_setVolume q b v
  | effect => exact ofNote_setEffect q b v

theorem and_most {p : NotePart} {v : UInt8} (hv : v.toNat ≤ p.most.toNat) : v &&& p.most = v := by
  have hbits : ∃ k, p.most.toNat = 2 ^ k - 1 := by
    cases p with
    | pitch => exact ⟨6, rfl⟩
    | waveform => exact ⟨4, rfl⟩
    | volume => exact ⟨3, rfl⟩
    | effect => exact ⟨3, rfl⟩
  obtain ⟨k, hk⟩ := hbits
  have hpos := Nat.two_pow_pos k
  refine UInt8.toNat_inj.mp ?_
  rw [UInt8.toNat_and, hk, Nat.and_two_pow_sub_one_eq_mod]
  exact Nat.mod_eq_of_lt (by omega)

theorem ofNote_le (p : NotePart) (b : NoteBytes) : (p.ofNote b.note).toNat ≤ p.most.toNat := by
  cases p with
  | pitch => exact NoteBytes.masked_le b.low 0x3f
  | waveform => exact NoteBytes.waveform_le b
  | volume => exact NoteBytes.volume_le b.high
  | effect => exact NoteBytes.effect_le b.high

theorem eq_of_parts {a a' : Note} (h : ∀ p : NotePart, p.ofNote a' = p.ofNote a) : a' = a := by
  obtain ⟨p, w, v, e⟩ := a
  obtain ⟨p', w', v', e'⟩ := a'
  exact congr (congr (congr (congrArg Note.mk (h pitch)) (h waveform)) (h volume)) (h effect)

theorem exists_change (p : NotePart) (b : NoteBytes) {v : Option Int}
    (hv : ∀ x ∈ v, 0 ≤ x ∧ x ≤ p.most.toNat) :
    ∃ b', b.change p.put p.most.toNat v = .ok b' ∧ ∀ q : NotePart,
      ((q.ofNote b'.note).toNat : Int) = (if q = p then v else none).getD (q.ofNote b.note).toNat := by
  cases v with
  | none => exact ⟨b, rfl, fun q => by rw [ite_self]; rfl⟩
  | some x =>
    obtain ⟨c, rfl⟩ : ∃ c : UInt8, x = (c.toNat : Int) := Region.exists_byte (hv x rfl) p.most.toNat_lt
    have hc : c.toNat ≤ p.most.toNat := Int.ofNat_le.mp (hv _ rfl).2
    refine ⟨p.put b c, ?_, fun q => ?_⟩
    · rw [NoteBytes.change, NoteBytes.within_toNat hc]
      rfl
    · rw [ofNote_put p q b (and_most hc)]
      split <;> rfl

theorem exists_apply (b : NoteBytes) {c : NoteChange}
    (hc : ∀ p : NotePart, ∀ x ∈ p.given c, 0 ≤ x ∧ x ≤ p.most.toNat) :
    ∃ b', b.apply c = .ok b' ∧
      ∀ q : NotePart, ((q.ofNote b'.note).toNat : Int) = (q.given c).getD (q.ofNote b.note).toNat := by
  obtain ⟨b₁, h₁, hparts₁⟩ := exists_change pitch b (hc pitch)
  obtain ⟨b₂, h₂, hparts₂⟩ := exists_change waveform b₁ (hc waveform)
  obtain ⟨b₃, h₃, hparts₃⟩ := exists_change volume b₂ (hc volume)
  obtain ⟨b₄, h₄, hparts₄⟩ := exists_change effect b₃ (hc effect)
  have hthen : ∀ {e : Except Failure NoteBytes} {f : NoteBytes → Except Failure NoteBytes} {a a' : NoteBytes},
      e = .ok a → f a = .ok a' → e >>= f = .ok a' := by
    rintro _ f a a' rfl h
    exact h
  refine ⟨b₄, hthen h₁ (hthen h₂ (hthen h₃ h₄)), fun q => ?_⟩
  rw [hparts₄, hparts₃, hparts₂, hparts₁]
  cases q <;> rfl

end NotePart

namespace Setting

def ofSettings : Setting → SoundSettings → UInt8
  | editorMode => SoundSettings.editorMode
  | noteDuration => SoundSettings.noteDuration
  | loopStart => SoundSettings.loopStart
  | loopEnd => SoundSettings.loopEnd

def given : Setting → SettingsChange → Option Int
  | editorMode => SettingsChange.editorMode
  | noteDuration => SettingsChange.noteDuration
  | loopStart => SettingsChange.loopStart
  | loopEnd => SettingsChange.loopEnd

def place : Setting → Nat
  | editorMode => 64
  | noteDuration => 65
  | loopStart => 66
  | loopEnd => 67

theorem place_lt (p : Setting) : 64 ≤ p.place ∧ p.place < 68 := by
  cases p <;> decide

end Setting

/-! ### Registers and calls -/

namespace Sounds

inductive Register where
  | note (id n : Nat) (part : NotePart)
  | setting (id : Nat) (part : Setting)

namespace Register

def InRange : Register → Prop
  | note id n _ => id < 64 ∧ n < 32
  | setting id _ => id < 64

def read (r : Region) : Register → Except Failure UInt8
  | note id n p => (Sounds.note r id n).map p.ofNote
  | setting id p => (settings r id).map p.ofSettings

def value (r : Region) : Register → UInt8
  | note id n p => p.ofNote (noteBytesAt r id n).note
  | setting id p => byteAt r (68 * id + p.place)

theorem read_eq {r : Region} (hr : r.size = 4352) {g : Register} (hg : g.InRange) :
    g.read r = .ok (g.value r) := by
  cases g with
  | note id n p =>
    obtain ⟨hid, hn⟩ := hg
    rw [read, note_eq (by omega)]
    rfl
  | setting id p =>
    have hid : id < 64 := hg
    rw [read, settings_eq (by omega)]
    cases p <;> rfl

end Register

inductive Call where
  | note (id n : Nat) (change : NoteChange)
  | settings (id : Nat) (change : SettingsChange)

namespace Call

def edit : Call → Region.Edit Unit
  | note id n c => setNote id n c
  | settings id c => setSettings id c

def given : Call → Register → Option Int
  | note id n c, .note id' n' p => if id' = id ∧ n' = n then p.given c else none
  | settings id c, .setting id' p => if id' = id then p.given c else none
  | _, _ => none

/-- The call is about a note or a pattern that exists, and its values fit into their registers. -/
def Fits : Call → Prop
  | note id n c => (id < 64 ∧ n < 32) ∧ ∀ p : NotePart, ∀ v ∈ p.given c, 0 ≤ v ∧ v ≤ p.most.toNat
  | settings id c => id < 64 ∧ ∀ p : Setting, ∀ v ∈ p.given c, 0 ≤ v ∧ v ≤ 255

end Call

theorem exists_storeGiven {r : Region} {i : Nat} (hi : i < r.size) {v : Option Int}
    (hv : ∀ x ∈ v, 0 ≤ x ∧ x ≤ 255) :
    ∃ r', (storeGiven i v).run r = .ok () r' ∧ r'.size = r.size ∧
      ∀ k, ((byteAt r' k).toNat : Int) = (if k = i then v else none).getD (byteAt r k).toNat := by
  cases v with
  | none => exact ⟨r, rfl, rfl, fun k => by rw [ite_self]; rfl⟩
  | some x =>
    obtain ⟨c, rfl⟩ : ∃ c : UInt8, x = (c.toNat : Int) := Region.exists_byte (hv x rfl) (by decide)
    refine ⟨_, Region.run_store r hi c, Array.size_setIfInBounds, fun k => ?_⟩
    rw [byteAt, Region.getD_setIfInBounds hi]
    split <;> rfl

theorem byte_inj {b c : UInt8} (h : (b.toNat : Int) = c.toNat) : b = c :=
  UInt8.toNat_inj.mp (Int.ofNat_inj.mp h)

theorem exists_setNote {r : Region} (hr : r.size = 4352) {id n : Nat} {c : NoteChange}
    (hc : (Call.note id n c).Fits) :
    ∃ r', (setNote id n c).run r = .ok () r' ∧ r'.size = 4352 ∧
      ∀ g : Register, g.InRange →
        ((g.value r').toNat : Int) = ((Call.note id n c).given g).getD (g.value r).toNat := by
  obtain ⟨⟨hid, hn⟩, hvalues⟩ := hc
  obtain ⟨b, hb, hparts⟩ := NotePart.exists_apply (noteBytesAt r id n) hvalues
  have hlow : 68 * id + 2 * n < r.size := by omega
  have hhigh : 68 * id + 2 * n + 1 < (r.setIfInBounds (68 * id + 2 * n) b.low).size := by
    rw [Array.size_setIfInBounds]
    omega
  refine ⟨(r.setIfInBounds (68 * id + 2 * n) b.low).setIfInBounds (68 * id + 2 * n + 1) b.high, ?_,
    by simpa using hr, fun g hg => ?_⟩
  · rw [run_setNote (by omega) hb]
    exact run_seq (Region.run_store r hlow _) (Region.run_store _ hhigh _)
  have hbyte : ∀ k, byteAt _ k = _ := fun k =>
    (Region.getD_setIfInBounds hhigh b.high k).trans
      (congrArg (ite _ _) (Region.getD_setIfInBounds hlow b.low k))
  cases g with
  | note id' n' p =>
    obtain ⟨-, hn'⟩ := hg
    rw [Register.value, noteBytesAt, hbyte, hbyte, Call.given]
    by_cases hsame : id' = id ∧ n' = n
    · obtain ⟨rfl, rfl⟩ := hsame
      rw [if_neg (by omega), if_pos rfl, if_pos rfl, if_pos ⟨rfl, rfl⟩]
      exact hparts p
    · rw [if_neg (by omega), if_neg (by omega), if_neg (by omega), if_neg (by omega), if_neg hsame]
      rfl
  | setting id' p =>
    have hplace := p.place_lt
    rw [Register.value, hbyte, if_neg (by omega), if_neg (by omega)]
    rfl

theorem exists_setSettings {r : Region} (hr : r.size = 4352) {id : Nat} {c : SettingsChange}
    (hc : (Call.settings id c).Fits) :
    ∃ r', (setSettings id c).run r = .ok () r' ∧ r'.size = 4352 ∧
      ∀ g : Register, g.InRange →
        ((g.value r').toNat : Int) = ((Call.settings id c).given g).getD (g.value r).toNat := by
  obtain ⟨hid, hvalues⟩ := hc
  obtain ⟨r₁, h₁, hsize₁, hbyte₁⟩ :=
    exists_storeGiven (show 68 * id + 64 < r.size by omega) (hvalues .editorMode)
  obtain ⟨r₂, h₂, hsize₂, hbyte₂⟩ :=
    exists_storeGiven (show 68 * id + 65 < r₁.size by omega) (hvalues .noteDuration)
  obtain ⟨r₃, h₃, hsize₃, hbyte₃⟩ :=
    exists_storeGiven (show 68 * id + 66 < r₂.size by omega) (hvalues .loopStart)
  obtain ⟨r₄, h₄, hsize₄, hbyte₄⟩ :=
    exists_storeGiven (show 68 * id + 67 < r₃.size by omega) (hvalues .loopEnd)
  refine ⟨r₄, ?_, by omega, fun g hg => ?_⟩
  · have hposition : ∀ k : Nat, settingsPosition id + k = ((68 * id + 64 + k : Nat) : Int) := by
      intro k
      rw [settingsPosition_eq]
      omega
    rw [← hposition 1] at h₂
    rw [← hposition 2] at h₃
    rw [← hposition 3] at h₄
    rw [← settingsPosition_eq] at h₁
    exact run_seq h₁ (run_seq h₂ (run_seq h₃ h₄))
  cases g with
  | note id' n' p =>
    obtain ⟨-, hn'⟩ := hg
    have hsame : ∀ k, k < 68 * id + 64 ∨ 68 * id + 67 < k → byteAt r₄ k = byteAt r k := by
      intro k hk
      have hk₄ := hbyte₄ k
      rw [hbyte₃, hbyte₂, hbyte₁, if_neg (by omega), if_neg (by omega), if_neg (by omega),
        if_neg (by omega)] at hk₄
      exact byte_inj hk₄
    rw [Register.value, noteBytesAt, hsame _ (by omega), hsame _ (by omega)]
    rfl
  | setting id' p =>
    have hplace := p.place_lt
    rw [Register.value, hbyte₄, hbyte₃, hbyte₂, hbyte₁, Call.given]
    by_cases hsame : id' = id
    · subst hsame
      cases p <;> simp [Register.value, Setting.place, Setting.given]
    · rw [if_neg hsame, if_neg (by omega), if_neg (by omega), if_neg (by omega), if_neg (by omega)]
      rfl

namespace Call

theorem exists_edit {r : Region} (hr : r.size = 4352) {c : Call} (hc : c.Fits) :
    ∃ r', c.edit.run r = .ok () r' ∧ r'.size = 4352 ∧
      ∀ g : Register, g.InRange → ((g.value r').toNat : Int) = (c.given g).getD (g.value r).toNat := by
  cases c with
  | note id n c => exact exists_setNote hr hc
  | settings id c => exact exists_setSettings hr hc

def lastGiven (calls : List Call) (g : Register) : Option Int := calls.reverse.findSome? fun c => c.given g

theorem lastGiven_cons (c : Call) (calls : List Call) (g : Register) :
    lastGiven (c :: calls) g = (lastGiven calls g).or (c.given g) := by
  rw [lastGiven, List.reverse_cons, List.findSome?_append, lastGiven]
  simp

end Call

/-- **A register holds the value that it was given last**, or else the one that it had at first. -/
theorem exists_run_calls {r : Region} (hr : r.size = 4352) {calls : List Call} (hcalls : ∀ c ∈ calls, c.Fits) :
    ∃ r', (calls.forM Call.edit).run r = .ok () r' ∧ r'.size = 4352 ∧
      ∀ g : Register, g.InRange → ∃ old new, g.read r = .ok old ∧ g.read r' = .ok new ∧
        (new.toNat : Int) = (Call.lastGiven calls g).getD old.toNat := by
  suffices h : ∃ r', (calls.forM Call.edit).run r = .ok () r' ∧ r'.size = 4352 ∧
      ∀ g : Register, g.InRange → ((g.value r').toNat : Int) = (Call.lastGiven calls g).getD (g.value r).toNat by
    obtain ⟨r', hrun, hsize, hvalue⟩ := h
    exact ⟨r', hrun, hsize, fun g hg =>
      ⟨g.value r, g.value r', Register.read_eq hr hg, Register.read_eq hsize hg, hvalue g hg⟩⟩
  induction calls generalizing r with
  | nil => exact ⟨r, rfl, hr, fun g _ => rfl⟩
  | cons c calls ih =>
    obtain ⟨r₁, hrun₁, hsize₁, hvalue₁⟩ := c.exists_edit hr (hcalls c List.mem_cons_self)
    obtain ⟨r₂, hrun₂, hsize₂, hvalue₂⟩ := ih hsize₁ fun d hd => hcalls d (List.mem_cons_of_mem c hd)
    refine ⟨r₂, run_seq hrun₁ hrun₂, hsize₂, fun g hg => ?_⟩
    rw [hvalue₂ g hg, hvalue₁ g hg, Call.lastGiven_cons]
    cases Call.lastGiven calls g <;> rfl

/-- Two calls about one note of the empty sounds: the volume is given twice, and the pitch once. -/
theorem exists_run_calls_blank :
    let calls := [Call.note 3 1 { pitch := some 40, volume := some 5 }, Call.note 3 1 { volume := some 2 }]
    (blank.size = 4352 ∧ ∀ c ∈ calls, c.Fits) ∧ ∃ r', (calls.forM Call.edit).run blank = .ok () r' ∧
      (Register.note 3 1 .pitch).read r' = .ok 40 ∧ (Register.note 3 1 .volume).read r' = .ok 2 := by
  intro calls
  have hfits : ∀ c ∈ calls, c.Fits := by
    intro c hc
    rcases List.mem_cons.mp hc with rfl | hc
    · refine ⟨by decide, fun p v hv => ?_⟩
      cases p <;> cases hv <;> decide
    · obtain rfl := List.mem_singleton.mp hc
      refine ⟨by decide, fun p v hv => ?_⟩
      cases p <;> cases hv <;> decide
  obtain ⟨r', hrun, -, hvalue⟩ := exists_run_calls size_blank hfits
  obtain ⟨_, p, -, hp, hpitch⟩ := hvalue (.note 3 1 .pitch) ⟨by decide, by decide⟩
  obtain ⟨_, v, -, hv, hvolume⟩ := hvalue (.note 3 1 .volume) ⟨by decide, by decide⟩
  obtain rfl : p = 40 := byte_inj hpitch
  obtain rfl : v = 2 := byte_inj hvolume
  exact ⟨⟨size_blank, hfits⟩, r', hrun, hp, hv⟩

end Sounds
end Cartridge
