import Cartridge.Memory.Region
import Cartridge.Numeral.Integer

/-!
# Sounds

64 sound patterns of 68 bytes. A pattern has 32 notes of two bytes and four bytes of settings. A
note's two bytes hold, from the lowest bit: six bits of pitch, three of waveform, three of volume,
three of effect, and the waveform's fourth bit.
-/

namespace Cartridge

structure Note where
  pitch : UInt8
  waveform : UInt8
  volume : UInt8
  effect : UInt8
deriving DecidableEq, Repr, Inhabited

/-- New values for those parts of a note that are to change. -/
structure NoteChange where
  pitch : Option Int := none
  waveform : Option Int := none
  volume : Option Int := none
  effect : Option Int := none
deriving DecidableEq, Repr, Inhabited

structure SoundSettings where
  editorMode : UInt8
  noteDuration : UInt8
  loopStart : UInt8
  loopEnd : UInt8
deriving DecidableEq, Repr, Inhabited

/-- New values for those settings that are to change. -/
structure SettingsChange where
  editorMode : Option Int := none
  noteDuration : Option Int := none
  loopStart : Option Int := none
  loopEnd : Option Int := none
deriving DecidableEq, Repr, Inhabited

def within (most : Int) (v : Int) : Except Failure UInt8 :=
  if 0 ≤ v ∧ v ≤ most then .ok v.toNat.toUInt8 else .error .unmetCondition

structure NoteBytes where
  low : UInt8
  high : UInt8
deriving DecidableEq, Repr, Inhabited

namespace NoteBytes

def note (b : NoteBytes) : Note where
  pitch := b.low &&& 0x3f
  waveform := ((b.high &&& 0x80) >>> 4) ||| ((b.high &&& 0x01) <<< 2) ||| (b.low >>> 6)
  volume := (b.high &&& 0x0e) >>> 1
  effect := (b.high &&& 0x70) >>> 4

def setPitch (b : NoteBytes) (p : UInt8) : NoteBytes := { b with low := (b.low &&& 0xc0) ||| p }

def setWaveform (b : NoteBytes) (w : UInt8) : NoteBytes where
  low := (b.low &&& (0x3f : UInt8)) ||| (w &&& 3) <<< 6
  high := (b.high &&& (0x7e : UInt8)) ||| (w &&& 4) >>> 2 ||| (w &&& 8) <<< 4

def setVolume (b : NoteBytes) (v : UInt8) : NoteBytes :=
  { b with high := (b.high &&& (0xf1 : UInt8)) ||| v <<< 1 }

def setEffect (b : NoteBytes) (e : UInt8) : NoteBytes :=
  { b with high := (b.high &&& (0x8f : UInt8)) ||| e <<< 4 }

def change (b : NoteBytes) (put : NoteBytes → UInt8 → NoteBytes) (most : Int) :
    Option Int → Except Failure NoteBytes
  | none => .ok b
  | some v => (within most v).map (put b)

def apply (b : NoteBytes) (c : NoteChange) : Except Failure NoteBytes := do
  let b ← b.change setPitch 63 c.pitch
  let b ← b.change setWaveform 15 c.waveform
  let b ← b.change setVolume 7 c.volume
  b.change setEffect 7 c.effect

end NoteBytes

namespace Sounds

def notePosition (id n : Int) : Int := id * 68 + n * 2

def settingsPosition (id : Int) : Int := id * 68 + 64

def note (sounds : Region) (id n : Int) : Except Failure Note := do
  let low ← sounds.fetch (notePosition id n)
  let high ← sounds.fetch (notePosition id n + 1)
  return NoteBytes.note ⟨low, high⟩

def setNote (id n : Int) (change : NoteChange) : Region.Edit Unit := do
  let low ← Region.read (notePosition id n)
  let high ← Region.read (notePosition id n + 1)
  match NoteBytes.apply ⟨low, high⟩ change with
  | .error e => throw e
  | .ok b =>
    Region.store (notePosition id n) b.low.toNat
    Region.store (notePosition id n + 1) b.high.toNat

def settings (sounds : Region) (id : Int) : Except Failure SoundSettings := do
  return {
    editorMode := ← sounds.fetch (settingsPosition id)
    noteDuration := ← sounds.fetch (settingsPosition id + 1)
    loopStart := ← sounds.fetch (settingsPosition id + 2)
    loopEnd := ← sounds.fetch (settingsPosition id + 3) }

def storeGiven (i : Int) : Option Int → Region.Edit Unit
  | none => pure ()
  | some v => Region.store i v

def setSettings (id : Int) (change : SettingsChange) : Region.Edit Unit := do
  storeGiven (settingsPosition id) change.editorMode
  storeGiven (settingsPosition id + 1) change.noteDuration
  storeGiven (settingsPosition id + 2) change.loopStart
  storeGiven (settingsPosition id + 3) change.loopEnd

def blankPattern (duration : UInt8) : Region :=
  (Array.replicate 65 0).push duration ++ #[0, 0]

def blank : Region :=
  (List.replicate 63 (blankPattern 16)).foldl (· ++ ·) (blankPattern 1)

def noteDigits (n : Note) : Bytes :=
  Hex.encode [n.pitch, (n.waveform <<< 4) ||| n.volume] ++ [Hex.digit (n.effect &&& 15)]

def line (sounds : Region) (id : Nat) : Except Failure Bytes := do
  let s ← settings sounds id
  let notes ← (List.range 32).mapM fun (n : Nat) => note sounds id n
  return Hex.encode [s.editorMode, s.noteDuration, s.loopStart, s.loopEnd]
    ++ notes.flatMap noteDigits ++ [Bytes.newline]

def lines (sounds : Region) : List Bytes × Option Failure :=
  linesUntil (line sounds) (List.range 64)

def digitsAt (l : Bytes) (start count : Nat) : Except Failure Int :=
  match Numeral.integer? 16 120 (l.slice start (start + count)) with
  | some v => .ok v
  | none => .error .unfitValue

def editFrom {α : Type} (value : Except Failure α) (edit : α → Region.Edit Unit) :
    Region.Edit Unit :=
  match value with
  | .ok a => edit a
  | .error e => throw e

def lineSettings (l : Bytes) : Except Failure SettingsChange := do
  return {
    editorMode := some (← digitsAt l 0 2)
    noteDuration := some (← digitsAt l 2 2)
    loopStart := some (← digitsAt l 4 2)
    loopEnd := some (← digitsAt l 6 2) }

def lineNote (l : Bytes) (n : Nat) : Except Failure NoteChange := do
  return {
    pitch := some (← digitsAt l (8 + 5 * n) 2)
    waveform := some (← digitsAt l (10 + 5 * n) 1)
    volume := some (← digitsAt l (11 + 5 * n) 1)
    effect := some (← digitsAt l (12 + 5 * n) 1) }

def storeLine (id : Nat) (l : Bytes) : Region.Edit Unit := do
  editFrom (lineSettings l) (setSettings id)
  (List.range 32).forM fun (n : Nat) => editFrom (lineNote l n) (setNote id n)

def storeLines (id : Nat) : List Bytes → Region.Edit Unit
  | [] => pure ()
  | l :: rest => do
    storeLine id l
    storeLines (id + 1) rest

/-- The patterns that lines of text give. A line that has not the length of a pattern is none. -/
def ofLines (ls : List Bytes) : Except Failure Region :=
  blank.edited (storeLines 0 (ls.filter fun l => l.length == 169))

end Sounds

end Cartridge
