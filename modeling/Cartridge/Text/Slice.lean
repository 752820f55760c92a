/-!
# Signed positions in a sequence

Positions into cart data are integers.  A position below zero counts back from
the end; a range is clipped to the sequence, so that every range is valid and
only single positions can miss.
-/

namespace Cartridge.Slice

def position? (n : Nat) (i : Int) : Option Nat :=
  if 0 ≤ i then
    if i < n then some i.toNat else none
  else if 0 ≤ i + n then some (i + n).toNat else none

def clip (n : Nat) (i : Int) : Nat :=
  if 0 ≤ i then min i.toNat n else (i + n).toNat

variable {α : Type}

def slice (a : Array α) (start stop : Int) : Array α :=
  a.extract (clip a.size start) (clip a.size stop)

end Cartridge.Slice
