import Cartridge.Lua.Scan
import Cartridge.Numeral.Binary64

/-!
# Short names

A minified program gives every name of its own a short one: the numbers from zero
on, written with the letters as digits.  Reserved words and the names that the
console defines stay as they are, and are never given to another name.
-/

namespace Cartridge.Lua.ShortName

def builtins : List Bytes :=
  ["_init", "_update", "_update60", "_draw", "setmetatable", "getmetatable", "cocreate",
    "coresume", "costatus", "yield", "load", "save", "folder", "ls", "run", "resume", "reboot",
    "stat", "info", "flip", "printh", "clip", "pget", "pset", "sget", "sset", "fget", "fset",
    "print", "cursor", "color", "cls", "camera", "circ", "circfill", "line", "rect", "rectfill",
    "pal", "palt", "spr", "sspr", "add", "del", "all", "foreach", "pairs", "btn", "btnp", "sfx",
    "music", "mget", "mset", "map", "peek", "poke", "memcpy", "reload", "cstore", "memset", "max",
    "min", "mid", "flr", "cos", "sin", "atan2", "sqrt", "abs", "rnd", "srand", "band", "bor",
    "bxor", "bnot", "shl", "shr", "cartdata", "dget", "dset", "sub", "sgn", "stop", "menuitem",
    "type", "tostr", "tonum", "extcmd", "fillp", "time", "assert", "_update_buttons", "count",
    "mapdraw", "self", "?", "__index"].map Bytes.ofText

def preserved : List Bytes := keywords ++ builtins

/-- The whole part of `n / 26` after rounding to a double, or `none` if the quotient
is too large for one. -/
def quotient? (n : Nat) : Option Nat :=
  let bits := Binary64.ofRatio n 26
  if bits = Binary64.infinity then none
  else
    let (m, e) := Binary64.decode bits
    some (m * Nat.pow 2 e / Nat.pow 2 1074)

def letter (d : Nat) : UInt8 := UInt8.ofNat (97 + d % 26)

def spellWithin : Nat → Nat → Option Bytes
  | 0, _ => none
  | fuel + 1, n =>
      if n < 26 then some [letter n]
      else match quotient? n with
        | none => none
        | some q => (spellWithin fuel q).map (· ++ [letter n])

/-- The name with a given number, or `none` if the number is beyond the range of
doubles.  A letter stands for more than four bits of the number. -/
def spell (n : Nat) : Option Bytes := spellWithin (Nat.log2 n + 2) n

/-- The name with a given number, which is one letter if the number is negative. -/
def spellInt (n : Int) : Option Bytes :=
  if n < 0 then some [letter (n % 26).toNat] else spell n.toNat

/-- The names given so far, in order, and the next number. -/
structure Table where
  given : List (Bytes × Bytes) := []
  next : Nat := 0
  deriving Repr, Inhabited

/-- The first name from the number `n` on that is not preserved, and the number
after it. -/
def draw : Nat → Nat → Bytes × Nat
  | 0, n => ([], n)
  | fuel + 1, n =>
      let candidate := (spell n).getD []
      if preserved.contains candidate then draw fuel (n + 1) else (candidate, n + 1)

namespace Table

def lookup (t : Table) (name : Bytes) : Bytes × Table :=
  if preserved.contains name then (name, t)
  else match t.given.find? fun p => p.1 == name with
    | some p => (p.2, t)
    | none =>
        let (short, next) := draw (preserved.length + 1) t.next
        (short, { given := t.given ++ [(name, short)], next := next })

end Table
end Cartridge.Lua.ShortName
