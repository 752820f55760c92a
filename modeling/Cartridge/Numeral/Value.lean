import Cartridge.Failure
import Cartridge.Numeral.Binary64
import Cartridge.Numeral.Integer

/-!
# The value of a numeral

A numeral with an `x` is read in base sixteen, else one with a `b` in base two,
else it is a decimal.  Whole part and fraction of a numeral in base sixteen or two
are read on their own and each is rounded before they are added.
-/

namespace Cartridge.Numeral

open Binary64

/-- The value of a numeral: a double or not a number at all. -/
inductive Value where
  | double (x : Double)
  | nan (negative : Bool)
  deriving DecidableEq, Repr, Inhabited

def Value.bits : Value → Nat
  | double x => x.bits
  | nan negative => (if negative then Nat.pow 2 63 else 0) + infinity + Nat.pow 2 51

/-- Whether every underscore stands between two digits, given whether the byte
before is a digit. -/
def underscoresOk (digitBefore : Bool) : Bytes → Bool
  | [] => true
  | 95 :: rest => digitBefore && (rest.head?.any Bytes.isDigit) && underscoresOk false rest
  | c :: rest => underscoresOk (Bytes.isDigit c) rest

def digitsValue (s : Bytes) : Nat := s.foldl (fun n c => n * 10 + (c.toNat - 48)) 0

/-- The bits of the double nearest to `m · 10 ^ e`.  Outside the range of doubles
the power of ten is not computed. -/
def ofScientific (m : Nat) (e : Int) : Nat :=
  if m = 0 then 0
  else
    let digits : Int := (Nat.log2 m * 30103 / 100000 + 2 : Nat)
    if 311 < e then infinity
    else if digits + e < -325 then 0
    else match e with
      | .ofNat k => ofRatio (m * Nat.pow 10 k) 1
      | .negSucc k => ofRatio m (Nat.pow 10 (k + 1))

/-- The exponent of a decimal: a letter, an optional sign and digits up to the
end.  No exponent counts as zero. -/
def exponent? : Bytes → Option Int
  | [] => some 0
  | c :: s =>
      if c = 101 || c = 69 then
        let (negative, body) := takeSign s
        if body.isEmpty || !body.all Bytes.isDigit then none
        else some (if negative then -(digitsValue body : Int) else (digitsValue body : Int))
      else none

/-- The bits of a decimal without sign: digits with an optional point, and an
optional exponent. -/
def unsigned? (s : Bytes) : Option Nat :=
  let whole := s.takeWhile Bytes.isDigit
  let rest := s.drop whole.length
  let part := match rest with
    | 46 :: rest' => rest'.takeWhile Bytes.isDigit
    | _ => []
  let rest := match rest with
    | 46 :: rest' => rest'.drop part.length
    | _ => rest
  if whole.isEmpty && part.isEmpty then none
  else (exponent? rest).map fun e =>
    ofScientific (digitsValue (whole ++ part)) (e - (part.length : Int))

/-- The value of a decimal, which may have blanks around it, a sign, and single
underscores between digits; or infinity or not a number by name. -/
def decimal? (s : Bytes) : Option Value :=
  let s := Bytes.trim s
  if !underscoresOk false s then none
  else
    let (negative, body) := takeSign (s.filter (· != 95))
    let word := Bytes.lower body
    if word = Bytes.ofText "inf" || word = Bytes.ofText "infinity" then
      some (.double ⟨negative, infinity⟩)
    else if word = Bytes.ofText "nan" then some (.nan negative)
    else (unsigned? body).map fun size => .double ⟨negative, size⟩

def wholeValue (base : Nat) (letter : UInt8) (s : Bytes) : Except Failure Double :=
  match integer? base letter s with
  | none => .error .unfitValue
  | some n =>
      match Double.ofInt? n with
      | none => .error .tooLarge
      | some x => .ok x

def basedValue (base : Nat) (letter : UInt8) (s : Bytes) : Except Failure Double :=
  match Bytes.split 46 s with
  | [whole] => wholeValue base letter whole
  | [whole, part] => do
      let x ← wholeValue base letter whole
      let y ← wholeValue base letter part
      if ofRatio (Nat.pow base part.length) 1 = infinity then .error .tooLarge
      else .ok (x.add (y.div (Nat.pow base part.length)))
  | _ => .error .unfitValue

def value (s : Bytes) : Except Failure Value :=
  if s.contains 120 then (basedValue 16 120 s).map .double
  else if s.contains 98 then (basedValue 2 98 s).map .double
  else match decimal? s with
    | some v => .ok v
    | none => .error .unfitValue

end Cartridge.Numeral
