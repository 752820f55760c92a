/-!
# Binary floating point of 64 bits

A finite non-negative double is `m · 2 ^ (e - 1074)` for whole numbers `m < 2 ^ 53`
and `e`; with the least possible `e` its bits, read as a number, are
`e · 2 ^ 52 + m`.  So the bits of non-negative doubles have the order of their
values, and rounding a ratio is a division.
-/

namespace Cartridge.Binary64

def roundDiv (num den : Nat) : Nat :=
  let q := num / den
  let r := num % den
  if 2 * r < den then q
  else if den < 2 * r then q + 1
  else if q % 2 = 0 then q else q + 1

def infinity : Nat := 2047 * Nat.pow 2 52

/-- The scale `e` of the double nearest to `num / den`: the least one for which the
ratio in units of `2 ^ (e - 1074)` is below `2 ^ 53`. -/
def scale (num den : Nat) : Nat :=
  -- `2 ^ (a - b - 1) < num / den < 2 ^ (a - b + 1)`
  let a := Nat.log2 num
  let b := Nat.log2 den
  let top := a + 1074 - b
  let guess := top - 53
  if num * Nat.pow 2 1074 < den * Nat.pow 2 (guess + 53) then guess else guess + 1

/-- The bits of the double nearest to `num / den`, infinity if there is none. -/
def ofRatio (num den : Nat) : Nat :=
  if num = 0 then 0
  else
    let e := scale num den
    let bits := e * Nat.pow 2 52 + roundDiv (num * Nat.pow 2 1074) (den * Nat.pow 2 e)
    if infinity ≤ bits then infinity else bits

/-- The whole number `m` and the scale `e` of the double with the given bits, which
is `m · 2 ^ (e - 1074)`. -/
def decode (bits : Nat) : Nat × Nat :=
  let e := bits / Nat.pow 2 52
  if e = 0 then (bits, 0) else (bits % Nat.pow 2 52 + Nat.pow 2 52, e - 1)

/-- A double: its sign and the bits of its size. -/
structure Double where
  negative : Bool
  size : Nat
  deriving DecidableEq, Repr, Inhabited

namespace Double

def bits (x : Double) : Nat := (if x.negative then Nat.pow 2 63 else 0) + x.size

def ofInt? (n : Int) : Option Double :=
  let size := ofRatio n.natAbs 1
  if size = infinity then none else some ⟨n < 0, size⟩

/-- The value of a finite double in units of `2 ^ (-1074)`. -/
def units (x : Double) : Int :=
  let (m, e) := decode x.size
  let n : Int := (m * Nat.pow 2 e : Nat)
  if x.negative then -n else n

def ofUnits (n : Int) (den : Nat) : Double :=
  ⟨n < 0, ofRatio n.natAbs (den * Nat.pow 2 1074)⟩

def add (x y : Double) : Double := ofUnits (x.units + y.units) 1

def div (x : Double) (den : Nat) : Double := ofUnits x.units den

end Double
end Cartridge.Binary64
