import Cartridge.Memory.Region

/-!
# Songs

64 parts of songs of four bytes: the sound pattern that each of four channels plays. The top bits of
the first three bytes are the part's marks: the loop begins, the loop ends, the song stops. As text,
the marks are a byte of their own in front.
-/

namespace Cartridge

structure SongMarks where
  begins : Bool
  ends : Bool
  stops : Bool
deriving DecidableEq, Repr, Inhabited

/-- New values for those marks that are to change. -/
structure MarksChange where
  begins : Option Bool := none
  ends : Option Bool := none
  stops : Option Bool := none
deriving DecidableEq, Repr, Inhabited

namespace Songs

def blank : Region := (List.replicate 64 #[0x41, 0x42, 0x43, 0x44]).foldl (· ++ ·) #[]

def mark : UInt8 := 0x80

def channel (songs : Region) (id ch : Int) : Except Failure (Option UInt8) := do
  demand (0 ≤ id && id ≤ 63)
  demand (0 ≤ ch && ch ≤ 3)
  let p := (← songs.fetch (id * 4 + ch)) &&& 0x7f
  return if 63 < p then none else some p

def setChannel (id ch : Int) (pattern : Option Int) : Region.Edit Unit := do
  demand (0 ≤ id && id ≤ 63)
  demand (0 ≤ ch && ch ≤ 3)
  demand (pattern.all fun p => 0 ≤ p && p ≤ 63)
  let p := (pattern.getD (0x41 + ch)).toNat.toUInt8
  let b ← Region.read (id * 4 + ch)
  Region.store (id * 4 + ch) ((b &&& mark) ||| p).toNat

def marks (songs : Region) (id : Int) : Except Failure SongMarks := do
  demand (0 ≤ id && id ≤ 63)
  return {
    begins := mark ≤ (← songs.fetch (id * 4))
    ends := mark ≤ (← songs.fetch (id * 4 + 1))
    stops := mark ≤ (← songs.fetch (id * 4 + 2)) }

def setMark (i : Int) : Option Bool → Region.Edit Unit
  | none => pure ()
  | some on => do
    let b ← Region.read i
    Region.store i ((b &&& 0x7f) ||| if on then mark else 0).toNat

def setMarks (id : Int) (change : MarksChange) : Region.Edit Unit := do
  setMark (id * 4) change.begins
  setMark (id * 4 + 1) change.ends
  setMark (id * 4 + 2) change.stops

def line (songs : Region) (k : Nat) : Except Failure Bytes := do
  let a ← songs.fetch (4 * k : Nat)
  let b ← songs.fetch (4 * k + 1 : Nat)
  let c ← songs.fetch (4 * k + 2 : Nat)
  let d ← songs.fetch (4 * k + 3 : Nat)
  let flags := ((c >>> 7) <<< 2) ||| ((b >>> 7) <<< 1) ||| (a >>> 7)
  return Hex.pair flags ++ [32] ++ Hex.encode ([a, b, c, d].map (· &&& 0x7f)) ++ [Bytes.newline]

def lines (songs : Region) : List Bytes × Option Failure :=
  linesUntil (line songs) (List.range ((songs.size + 3) / 4))

def first : Bytes → Except Failure UInt8
  | [] => .error .outOfRange
  | b :: _ => .ok b

def ofLine (l : Bytes) : Except Failure Bytes :=
  match Bytes.split 32 l with
  | [flagDigits, channelDigits] => do
    let flags ← first (← Region.ofHex flagDigits)
    let one ← Region.ofHex (channelDigits.slice 0 2)
    let two ← Region.ofHex (channelDigits.slice 2 4)
    let three ← Region.ofHex (channelDigits.slice 4 6)
    let four ← Region.ofHex (channelDigits.slice 6 8)
    let marked := fun (b bit : UInt8) => if flags &&& bit = 0 then b else b ||| mark
    return [marked (← first one) 1, marked (← first two) 2, marked (← first three) 4, ← first four]
  | _ => .error .unfitValue

def ofLines (ls : List Bytes) : Except Failure Region := do
  let rows ← (ls.filter fun l => l.contains 32).mapM ofLine
  return rows.flatten.toArray

end Songs

end Cartridge
