import Cartridge.Numeral.Value

/-!
# The shortest decimal of a double

Of the decimals that read back as a given double, the one with the fewest digits
is shown, and of those the nearest.  The decimals that read back form an interval
around the value: half way to the neighbours on both sides, with the ends if the
value's whole number is even.
-/

namespace Cartridge.Shortest

open Binary64

/-- An interval of positive ratios over one denominator. -/
structure Interval where
  low : Nat
  mid : Nat
  high : Nat
  den : Nat
  closed : Bool

/-- The interval of what rounds to the positive finite double with the given
bits.  In quarters of its unit the neighbours are four away, or two below a power
of two. -/
def interval (bits : Nat) : Interval :=
  let (m, e) := decode bits
  let below := if m = Nat.pow 2 52 && 0 < e then 1 else 2
  { low := (4 * m - below) * Nat.pow 2 e
    mid := 4 * m * Nat.pow 2 e
    high := (4 * m + 2) * Nat.pow 2 e
    den := 4 * Nat.pow 2 1074
    closed := m % 2 = 0 }

def Interval.holds (i : Interval) (n d : Nat) : Bool :=
  if i.closed then i.low * d ≤ n * i.den && n * i.den ≤ i.high * d
  else i.low * d < n * i.den && n * i.den < i.high * d

def tenPower (p : Int) : Nat × Nat :=
  match p with
  | .ofNat k => (Nat.pow 10 k, 1)
  | .negSucc k => (1, Nat.pow 10 (k + 1))

/-- The multiple of `10 ^ p` in the interval that is nearest to its value, if there
is one among the value's two neighbours; a tie goes to the even one. -/
def onGrid (i : Interval) (p : Int) : Option Nat :=
  let (num, den) := tenPower p
  -- the value is `i.mid * den / (i.den * num)` steps of the grid
  let lower := i.mid * den / (i.den * num)
  let upper := lower + 1
  let twice := 2 * i.mid * den
  let sum := (lower + upper) * (i.den * num)
  let lowerIn := i.holds (lower * num) den
  let upperIn := i.holds (upper * num) den
  if lowerIn && upperIn then
    if twice < sum then some lower
    else if sum < twice then some upper
    else if lower % 2 = 0 then some lower else some upper
  else if lowerIn then some lower
  else if upperIn then some upper
  else none

def search (i : Interval) : Nat → Int → Nat × Int
  | 0, p => (i.mid * (tenPower p).2 / (i.den * (tenPower p).1), p)
  | fuel + 1, p =>
      match onGrid i p with
      | some n => if n = 0 then search i fuel (p - 1) else (n, p)
      | none => search i fuel (p - 1)

/-- The decimal exponent above every digit of the value with the given bits. -/
def topExponent (bits : Nat) : Int :=
  let (m, e) := decode bits
  let twos : Int := (Nat.log2 m + e : Nat) - 1074
  twos * 30103 / 100000 + 2

/-- Removes the zeros at the end of a number and counts them into the exponent. -/
def dropZeros : Nat → Nat → Int → Nat × Int
  | 0, n, p => (n, p)
  | fuel + 1, n, p => if n % 10 = 0 && n ≠ 0 then dropZeros fuel (n / 10) (p + 1) else (n, p)

/-- The shortest decimal `n · 10 ^ p` of the positive finite double with the given
bits.  Seventeen digits are always enough. -/
def digits (bits : Nat) : Nat × Int :=
  let (n, p) := search (interval bits) 21 (topExponent bits)
  dropZeros 20 n p

def zeros (n : Nat) : String := String.ofList (List.replicate n '0')

/-- A decimal in positional notation if its first digit stands between the fourth
place after the point and the sixteenth before it, else with an exponent of at
least two digits. -/
def layout (n : Nat) (p : Int) : String :=
  let ds := toString n
  let point : Int := ds.length + p
  if -4 < point && point ≤ 16 then
    if point ≤ 0 then "0." ++ zeros (-point).toNat ++ ds
    else if ds.length ≤ point then ds ++ zeros (point - ds.length).toNat ++ ".0"
    else
      String.ofList (ds.toList.take point.toNat) ++ "." ++
        String.ofList (ds.toList.drop point.toNat)
  else
    let exponent := point - 1
    let mantissa := match ds.toList with
      | [d] => String.ofList [d]
      | d :: rest => String.ofList (d :: '.' :: rest)
      | [] => ""
    let size := toString exponent.natAbs
    mantissa ++ (if exponent < 0 then "e-" else "e+") ++
      (if size.length < 2 then "0" ++ size else size)

end Cartridge.Shortest

namespace Cartridge.Numeral

open Binary64

def Value.text : Value → String
  | nan _ => "nan"
  | double x =>
      (if x.negative then "-" else "") ++
        (if x.size = infinity then "inf"
        else if x.size = 0 then "0.0"
        else
          let (n, p) := Shortest.digits x.size
          Shortest.layout n p)

end Cartridge.Numeral
