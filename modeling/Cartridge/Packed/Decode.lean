import Cartridge.Failure
import Cartridge.Packed.Encode
import Cartridge.Text.Slice

/-!
# Unpacking text

Packed text has a header with the length of the text. A tape of that many zeros is filled from the
front by the operations. A copy takes whatever is on the tape, zeros not filled yet included, and
counts places from the back when it reaches before the front. So a copy may give fewer bytes than
it says; the tape then gets shorter, and longer when a copy reaches over its end.
-/

namespace Cartridge.Packed

/-- A tape that is filled from the front. -/
structure Tape where
  done : Array UInt8 := #[]
  left : Nat
  /-- How many places were passed. These are the filled ones, and those past the end of the tape. -/
  pos : Nat := 0
deriving DecidableEq, Repr, Inhabited

namespace Tape

def size (t : Tape) : Nat := t.done.size + t.left

def contents (t : Tape) : Bytes := t.done.toList ++ List.replicate t.left 0

/-- The bytes on the tape from one place up to another, counted as in `Slice.slice`. -/
def slice (t : Tape) (start stop : Int) : Array UInt8 :=
  let i := Slice.clip t.size start
  let j := Slice.clip t.size stop
  t.done.extract i j ++ Array.replicate (j - max i t.done.size) 0

def put (t : Tape) (b : UInt8) : Except Failure Tape :=
  match t.left with
  | 0 => .error .outOfRange
  | n + 1 => .ok { done := t.done.push b, left := n, pos := t.pos + 1 }

/-- Fills the next places with bytes from the tape, and passes over `length` places. -/
def copy (t : Tape) (offset length : Nat) : Tape :=
  let source := t.slice (t.pos - offset) (t.pos - offset + length)
  let left := t.left - length
  let passed := min left (length - source.size)
  { done := t.done ++ source ++ Array.replicate passed 0
    left := left - passed
    pos := t.pos + length }

end Tape

/-- Carries out packed operations until `goal` places are passed or there are no more. What is left
of the bytes is returned as well. -/
def run (goal : Nat) (t : Tape) : Bytes → Except Failure (Tape × Bytes)
  | [] => .ok (t, [])
  | c :: rest =>
    if goal ≤ t.pos then .ok (t, c :: rest)
    else if c = 0 then
      match rest with
      | [] => .error .outOfRange
      | b :: rest => do run goal (← t.put b) rest
    else if c ≤ 0x3b then do run goal (← t.put (table.getD c.toNat 0)) rest
    else
      match rest with
      | [] => .error .outOfRange
      | d :: rest =>
        run goal (t.copy ((c.toNat - 0x3c) * 16 + (d &&& 0xf).toNat) ((d >>> 4).toNat + 2)) rest

/-- The text without a line at its end, and without the line break before that. -/
def dropEnd (line text : Bytes) : Except Failure Bytes :=
  if line.isSuffixOf text then
    let text := text.take (text.length - line.length)
    match text.getLast? with
    | none => .error .outOfRange
    | some c => .ok (if c = Bytes.newline then text.dropLast else text)
  else .ok text

/-- Text out of memory, with the numbers known about it. -/
structure Unpacked where
  length : Nat
  text : Bytes
  /-- How many bytes it takes packed, or none if it is not packed. -/
  packedSize : Option Nat
deriving DecidableEq, Repr, Inhabited

/-- The text that packed bytes hold, header included: four bytes, the text's length in two, two
zeros, then the operations. -/
def unpack (bytes : Bytes) : Except Failure Unpacked :=
  match bytes.drop 4 with
  | high :: low :: rest =>
    if rest.take 2 = [0, 0] then do
      let goal := high.toNat * 256 + low.toNat
      let ops := rest.drop 2
      let (tape, unread) ← run goal { left := goal } ops
      let text ← dropEnd earlyFallback (tape.contents.trimByte 0)
      let text ← dropEnd fallback text
      return { length := goal, text := text, packedSize := some (8 + (ops.length - unread.length)) }
    else .error .unmetCondition
  | _ => .error .outOfRange

end Cartridge.Packed
