import Cartridge.Text.Bytes

/-!
# Operations of packed text

Packed text is a run of operations, each of which adds bytes to the end of the text: a character of
a table of common ones, any byte, or a copy of bytes that are already there. An operation takes one
byte or two.
-/

namespace Cartridge.Packed

/-- The characters that take one byte, by that byte. Byte 0 stands for none of them. -/
def table : Array UInt8 :=
  (Bytes.ofText "#\n 0123456789abcdefghijklmnopqrstuvwxyz!#%()\x7b\x7d[]<>+=/*:;.,~_").toArray

def code (c : UInt8) : UInt8 :=
  match (List.range' 1 59).find? fun i => table.getD i 0 == c with
  | some i => i.toUInt8
  | none => 0

/-- What is added to the end of the text. -/
inductive Op where
  | char (code : UInt8)
  | escaped (byte : UInt8)
  /-- As many bytes as `length` says, from those that begin `offset` before the end. -/
  | copy (offset length : Nat)
deriving DecidableEq, Repr, Inhabited

def Op.encode : Op → Bytes
  | .char c => [c]
  | .escaped b => [0, b]
  | .copy offset length =>
    [(offset / 16 + 60).toUInt8, (offset % 16 + (length - 2) * 16).toUInt8]

def Op.ofByte (b : UInt8) : Op := if code b = 0 then .escaped b else .char (code b)

end Cartridge.Packed
