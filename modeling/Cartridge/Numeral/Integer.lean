import Cartridge.Text.Hex

/-!
# Reading integers

An integer may have blanks around it, one sign, and a single underscore between
two digits.  Base sixteen and base two also allow a zero and the base's letter in
front, with an underscore after them.
-/

namespace Cartridge.Numeral

def digit? (base : Nat) (c : UInt8) : Option Nat :=
  match Hex.value? c with
  | some d => if d.toNat < base then some d.toNat else none
  | none => none

/-- The number written by digits with single underscores between them, after a
digit and with the value `n` so far. -/
def afterDigit (base : Nat) (n : Nat) : Bytes → Option Nat
  | [] => some n
  | 95 :: c :: rest =>
      match digit? base c with
      | some d => afterDigit base (n * base + d) rest
      | none => none
  | c :: rest =>
      match digit? base c with
      | some d => afterDigit base (n * base + d) rest
      | none => none

/-- The number written by one or more digits with single underscores between
them. -/
def natural? (base : Nat) : Bytes → Option Nat
  | [] => none
  | c :: rest =>
      match digit? base c with
      | some d => afterDigit base d rest
      | none => none

def takeSign : Bytes → Bool × Bytes
  | 45 :: rest => (true, rest)
  | 43 :: rest => (false, rest)
  | s => (false, s)

/-- Without a zero and the base's letter, and without an underscore after them. -/
def dropMark (letter : UInt8) : Bytes → Bytes
  | 48 :: x :: rest =>
      if Bytes.lowerByte x = letter then
        match rest with
        | 95 :: rest' => rest'
        | _ => rest
      else 48 :: x :: rest
  | s => s

/-- The integer that a byte string denotes in base sixteen (mark `x`) or two (mark
`b`). -/
def integer? (base : Nat) (letter : UInt8) (s : Bytes) : Option Int :=
  let (negative, body) := takeSign (Bytes.trim s)
  (natural? base (dropMark letter body)).map fun n =>
    if negative then -(n : Int) else (n : Int)

end Cartridge.Numeral
