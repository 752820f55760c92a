import Cartridge.Text.Bytes

/-!
# Byte strings in messages

A byte string is shown as a literal that starts with `b` and a quote.  The quote
is the single one, unless the string holds a single quote and no double one.
-/

namespace Cartridge

def hexPair (c : UInt8) : String :=
  String.ofList [Nat.digitChar (c.toNat / 16), Nat.digitChar (c.toNat % 16)]

namespace Bytes

/-- One byte inside a literal whose quote is `mark`: the quote, the backslash and
the three common control bytes are escaped with a backslash, other bytes outside
the printable ASCII range are written in hexadecimal. -/
def quotedByte (mark c : UInt8) : String :=
  if c == mark || c == backslash then "\\" ++ toText [c]
  else if c == 9 then "\\t"
  else if c == 10 then "\\n"
  else if c == 13 then "\\r"
  else if c < 32 || 127 ≤ c then "\\x" ++ hexPair c
  else toText [c]

def quoteMark (b : Bytes) : UInt8 :=
  if b.contains 39 && !b.contains 34 then 34 else 39

def quoted (b : Bytes) : String :=
  let mark := quoteMark b
  "b" ++ toText [mark] ++ String.join (b.map (quotedByte mark)) ++ toText [mark]

end Bytes
end Cartridge
