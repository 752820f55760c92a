import Cartridge.Failure
import Cartridge.Text.Hex
import Cartridge.Text.Slice

/-!
# Regions of cart memory

A cart's memory is cut into regions, each an array of bytes. A position counts from the front when
it is not negative and from the back when it is, and a position outside a region is a failure. An
edit is a run of stores: what was stored before a failure stays stored.
-/

namespace Cartridge

abbrev Region := Array UInt8

def demand {m : Type → Type} [Pure m] [MonadExceptOf Failure m] (ok : Bool) : m Unit :=
  if ok then pure () else throw .unmetCondition

/-- The lines that `make` gives for the items, up to the first item it fails on, with that
failure. -/
def linesUntil {α : Type} (make : α → Except Failure Bytes) :
    List α → List Bytes × Option Failure
  | [] => ([], none)
  | a :: rest =>
    match make a with
    | .error e => ([], some e)
    | .ok line =>
      let (lines, failure) := linesUntil make rest
      (line :: lines, failure)

namespace Region

def byte? (v : Int) : Option UInt8 :=
  if 0 ≤ v ∧ v ≤ 255 then some v.toNat.toUInt8 else none

def fetch (r : Region) (i : Int) : Except Failure UInt8 :=
  match (Slice.position? r.size i).bind (r[·]?) with
  | some b => .ok b
  | none => .error .outOfRange

abbrev Edit := EStateM Failure Region

def read (i : Int) : Edit UInt8 := do
  match (← get).fetch i with
  | .ok b => pure b
  | .error e => throw e

/-- Stores a number at a position. The number has to be a byte, and the position inside. -/
def store (i v : Int) : Edit Unit := do
  match byte? v with
  | none => throw .unfitValue
  | some b =>
    match Slice.position? (← get).size i with
    | none => throw .outOfRange
    | some k => modify fun r => r.setIfInBounds k b

def edited (r : Region) (e : Edit Unit) : Except Failure Region :=
  match e.run r with
  | .ok _ r => .ok r
  | .error f _ => .error f

/-- The lines of `width` bytes each (the last may be shorter), every byte written by `spell`. -/
def linesBy (spell : UInt8 → Bytes) (width : Nat) (r : Region) : List Bytes :=
  (List.range ((r.size + width - 1) / width)).map fun k =>
    (r.extract (k * width) ((k + 1) * width)).toList.flatMap spell ++ [Bytes.newline]

def hexLines (width : Nat) (r : Region) : List Bytes := linesBy Hex.pair width r

def ofHex (s : Bytes) : Except Failure Bytes :=
  if s.any (127 < ·) then .error .badEncoding
  else match Hex.decode? s with
    | some b => .ok b
    | none => .error .unfitValue

/-- The bytes that lines of hexadecimal digits spell, blanks at the end of a line aside. -/
def ofHexLines (lines : List Bytes) : Except Failure Region := do
  let rows ← lines.mapM fun l => ofHex l.trimRight
  return rows.flatten.toArray

end Region

end Cartridge
