import Cartridge.Text.Bytes

/-!
# Hexadecimal text
-/

namespace Cartridge.Hex

def value? (c : UInt8) : Option UInt8 :=
  if 48 ≤ c && c ≤ 57 then some (c - 48)
  else if 97 ≤ c && c ≤ 102 then some (c - 87)
  else if 65 ≤ c && c ≤ 70 then some (c - 55)
  else none

def isDigit (c : UInt8) : Bool := (value? c).isSome

def digit (n : UInt8) : UInt8 := if n < 10 then n + 48 else n + 87

def pair (c : UInt8) : Bytes := [digit (c >>> 4), digit (c &&& 15)]

def encode (b : Bytes) : Bytes := b.flatMap pair

def decodeFrom (read : Bytes) : Bytes → Option Bytes
  | [] => some read.reverse
  | c :: rest =>
      if Bytes.isBlank c then decodeFrom read rest
      else match rest with
        | [] => none
        | d :: rest' =>
            match value? c, value? d with
            | some h, some l => decodeFrom ((h * 16 + l) :: read) rest'
            | _, _ => none

def decode? (b : Bytes) : Option Bytes := decodeFrom [] b

end Cartridge.Hex
