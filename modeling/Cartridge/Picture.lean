import Cartridge.Failure

/-!
# Bytes hidden in a picture

A pixel has four or more planes of one byte: red, green, blue, opacity. The low two bits of these four
hold one byte: from the lowest bits of it, blue, green, red, opacity.
-/

namespace Cartridge.Picture

def low (plane : UInt8) : UInt8 := plane &&& 3

def hidden (row : Array UInt8) (i : Nat) : Except Failure UInt8 :=
  match row[i]?, row[i + 1]?, row[i + 2]?, row[i + 3]? with
  | some r, some g, some b, some a =>
    .ok (low b ||| low g <<< 2 ||| low r <<< 4 ||| low a <<< 6)
  | _, _, _, _ => .error .outOfRange

def revealRow (planes width : Nat) (row : Array UInt8) : Except Failure (List UInt8) :=
  (List.range width).mapM fun col => hidden row (col * planes)

/-- The bytes in a picture. There may be no more rows than its height; missing ones hold zeros. -/
def reveal (planes width height : Nat) (rows : List (Array UInt8)) : Except Failure Bytes :=
  if height < rows.length ∧ 0 < width then .error .outOfRange
  else do
    let bytes := (← rows.mapM (revealRow planes width)).flatten
    return bytes ++ List.replicate (width * height - bytes.length) 0

def withLow (plane bits : UInt8) : UInt8 := (plane &&& 0xfc) ||| low bits

/-- The planes of a pixel, with a byte put in if there is one. Planes above four are zero. -/
def pixel (planes : Nat) (row : Array UInt8) (i : Nat) (byte : Option UInt8) : List UInt8 :=
  let p := fun k => row.getD (i + k) 0
  (match byte with
    | some b => [withLow (p 0) (b >>> 4), withLow (p 1) (b >>> 2), withLow (p 2) b,
      withLow (p 3) (b >>> 6)]
    | none => [p 0, p 1, p 2, p 3]) ++ List.replicate (planes - 4) 0

/-- A row of pixels with bytes put in, that of the row of number `k`. Pixels need four planes or more. -/
def hideRow (data : Array UInt8) (planes : Nat) (row : Array UInt8) (k : Nat) :
    Except Failure (List UInt8) :=
  let width := row.size / planes
  if planes = 0 then .error .dividedByZero
  else if planes < 4 ∧ 0 < width then .error .outOfRange
  else .ok ((List.range width).flatMap fun col =>
    pixel planes row (col * planes) (data[k * width + col]?))

/-- The rows of a picture with bytes put in, starting with the row of number `k`. -/
def hideFrom (data : Array UInt8) (planes : Nat) (k : Nat) :
    List (Array UInt8) → Except Failure (List (List UInt8))
  | [] => .ok []
  | row :: rest => do
    let new ← hideRow data planes row k
    return new :: (← hideFrom data planes (k + 1) rest)

/-- The rows of a picture with bytes put in. Pixels past the last byte stay as they are. -/
def hide (data : Array UInt8) (planes : Nat) (rows : List (Array UInt8)) :
    Except Failure (List (List UInt8)) :=
  hideFrom data planes 0 rows

def overlay (data old : Array UInt8) : Array UInt8 :=
  data.extract 0 old.size ++ old.extract data.size old.size

end Cartridge.Picture
