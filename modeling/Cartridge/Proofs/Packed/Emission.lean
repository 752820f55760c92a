import Cartridge.Proofs.Memory.RegionText
import Cartridge.Proofs.Packed.Plan
import Cartridge.Proofs.Text.Cut

/-!
# Packing stays inside a byte

Packing compares bytes at places of the text and puts numbers into bytes.  Here it is done once more with
every place and every number checked.  No check ever fails: a run is compared only as far as there is room
for it, and the furthest start and the longest block are such that both numbers of a copy reach 255 and not
more.
-/

namespace Cartridge.Packed

variable {i j n pos : Nat} {text : Array UInt8}

/-! ### Packing with checks -/

namespace Checked

def byte (v : Int) : Except Failure UInt8 :=
  match Region.byte? v with
  | some b => .ok b
  | none => .error .unfitValue

def runLength (text : Region) (i j : Nat) : Nat → Except Failure Nat
  | 0 => .ok 0
  | n + 1 => do
    let a ← text.fetch i
    let b ← text.fetch j
    if a == b then return (← runLength text (i + 1) (j + 1) n) + 1 else return 0

def searchFrom (text : Region) (pos : Nat) : Nat → Nat → Block → Except Failure Block
  | 0, _, best => .ok best
  | n + 1, i, best => do
    let k ← runLength text i pos (blockRoom text pos i)
    searchFrom text pos n (i + 1) (if best.length < k then ⟨k, (pos - i : Nat)⟩ else best)

def bytesFrom (text : Region) : Nat → Nat → Except Failure Bytes
  | 0, _ => .ok []
  | n + 1, pos =>
    if pos < text.size then do
      let b ← searchFrom text pos (min maxOffset pos) (pos - min maxOffset pos) (noBlock pos)
      if 3 ≤ b.length then
        let first ← byte (b.offset / 16 + 60)
        let second ← byte (b.offset % 16 + (b.length - 2) * 16)
        return first :: second :: (← bytesFrom text n (pos + b.length))
      else
        let c ← text.fetch pos
        let rest ← bytesFrom text n (pos + 1)
        return (if code c = 0 then [0, c] else [code c]) ++ rest
    else .ok []

/-- Packing that fails at a place outside the text, and at a number that is no byte.  Before the line for the
sixty-frame update is added, the text's last byte is read. -/
def pack (text : Bytes) : Except Failure Bytes := do
  if Bytes.holds smoothUpdate text && text.length < playerRoom - (fallback.length + 1) then
    discard (Region.fetch text.toArray (-1))
  bytesFrom (withFallback text).toArray (withFallback text).toArray.size 0

theorem byte_of_le {v : Int} {m : Nat} (hv : v = m) (hm : m ≤ 255) : byte v = .ok m.toUInt8 := by
  rw [byte, Region.byte?, if_pos (by omega), hv, Int.toNat_natCast]

theorem runLength_eq (hi : i + n ≤ text.size) (hj : j + n ≤ text.size) :
    runLength text i j n = .ok (Packed.runLength text i j n) := by
  induction n generalizing i j with
  | zero => rfl
  | succ n ih =>
    rw [runLength, Packed.runLength, Region.fetch_of_lt (show i < text.size by omega),
      Region.fetch_of_lt (show j < text.size by omega), ih (by omega) (by omega),
      Array.getD_eq_getD_getElem?, Array.getD_eq_getD_getElem?, Array.getElem?_eq_getElem (by omega),
      Array.getElem?_eq_getElem (by omega)]
    dsimp only [bind, Except.bind, Option.getD_some]
    split <;> rfl

theorem searchFrom_eq (hpos : pos ≤ text.size) (hi : i + n = pos) (best : Block) :
    searchFrom text pos n i best = .ok (Packed.searchFrom text pos n i best) := by
  induction n generalizing i best with
  | zero => rfl
  | succ n ih =>
    have hroom : blockRoom text pos i ≤ text.size - pos ∧ blockRoom text pos i ≤ pos - i := by
      unfold blockRoom
      omega
    rw [searchFrom, Packed.searchFrom, runLength_eq (by omega) (by omega)]
    exact ih (by omega) _

theorem bytesFrom_eq (text : Array UInt8) (n pos : Nat) :
    bytesFrom text n pos = .ok ((planFrom text n pos).flatMap Op.encode) := by
  induction n generalizing pos with
  | zero => rfl
  | succ n ih =>
    rw [bytesFrom, planFrom]
    by_cases hpos : pos < text.size
    · have hsearch : searchFrom text pos (min maxOffset pos) (pos - min maxOffset pos) (noBlock pos)
          = .ok (longestBlock text pos) := searchFrom_eq (by omega) (by omega) _
      rw [if_pos hpos, dif_pos hpos, hsearch]
      dsimp only [bind, Except.bind]
      by_cases hthree : 3 ≤ (longestBlock text pos).length
      · have hcopy := longestBlock_copies (Nat.le_of_lt hpos) (by omega)
        obtain ⟨-, hshort, hbefore, hreach, -⟩ := emitted_copy hcopy hthree []
        have hoffset : (longestBlock text pos).offset = (longestBlock text pos).offset.toNat := by
          have := hcopy.before
          omega
        rw [if_pos hthree, if_pos hthree, List.flatMap_cons, ih,
          byte_of_le (m := (longestBlock text pos).offset.toNat / 16 + 60) (by omega) (by omega),
          byte_of_le (m := (longestBlock text pos).offset.toNat % 16 + ((longestBlock text pos).length - 2) * 16)
            (by omega) (by omega)]
        rfl
      · rw [if_neg hthree, if_neg hthree, List.flatMap_cons, ih, Region.fetch_of_lt hpos, Op.ofByte]
        dsimp only
        split <;> rfl
    · rw [if_neg hpos, dif_neg hpos]
      rfl

theorem pack_eq (text : Bytes) : pack text = .ok (Packed.pack text) := by
  rw [pack, bytesFrom_eq]
  split
  · next hsmooth =>
    rw [Bool.and_eq_true, Bytes.holds_iff] at hsmooth
    have hlength := hsmooth.1.length_le
    have hsome : 0 < text.toArray.size := by
      rw [List.size_toArray]
      exact Nat.lt_of_lt_of_le (by decide) hlength
    have hposition : Slice.position? text.toArray.size (-1) = some (text.toArray.size - 1) := by
      rw [Slice.position?, if_neg (by decide), if_pos (by omega)]
      congr 1
      omega
    rw [Region.fetch, hposition, Option.bind_some, Array.getElem?_eq_getElem (by omega)]
    rfl
  · rfl

end Checked

/-! ### All operations of a plan -/

theorem emitted_of_planFrom {front back : List Op} {op : Op} (hpos : pos ≤ text.size)
    (h : planFrom text n pos = front ++ op :: back) :
    ∃ q < text.size, expand (text.toList.take pos) front = text.toList.take q ∧
      op.Emitted text.toList q := by
  induction n generalizing pos front with
  | zero => simp [planFrom] at h
  | succ n ih =>
    by_cases hlt : pos < text.size
    · obtain ⟨first, k, hplan, -, hroom, hemitted, happly, -⟩ := planFrom_step hlt n
      rw [hplan] at h
      cases front with
      | nil =>
        cases h
        exact ⟨pos, hlt, rfl, hemitted⟩
      | cons f front =>
        rw [List.cons_append, List.cons.injEq] at h
        rw [expand_cons, ← h.1, happly]
        exact ih hroom h.2
    · simp [planFrom_end (Nat.le_of_not_lt hlt)] at h

theorem length_planFrom_le_double (text : Array UInt8) (n pos : Nat) :
    ((planFrom text n pos).flatMap Op.encode).length ≤ 2 * (text.size - pos) := by
  induction n generalizing pos with
  | zero => exact Nat.zero_le _
  | succ n ih =>
    by_cases hlt : pos < text.size
    · obtain ⟨op, k, hplan, -, hroom, -, -, hlength⟩ := planFrom_step hlt n
      have hrest := ih (pos + k)
      rw [hplan, List.flatMap_cons, List.length_append]
      omega
    · rw [planFrom_end (Nat.le_of_not_lt hlt)]
      exact Nat.zero_le _

/-- **Packing stays inside a byte**, for every text: no check fails, every operation fits in the bytes that
encode it, and there are at most two bytes for each one of the text. -/
theorem pack_stays_inside (text : Bytes) :
    Checked.pack text = .ok (pack text) ∧
      (∀ front op back, plan (withFallback text) = front ++ op :: back →
        ∃ pos < (withFallback text).length, expand [] front = (withFallback text).take pos ∧
          op.Emitted (withFallback text) pos) ∧
      (pack text).length ≤ 2 * (withFallback text).length := by
  refine ⟨Checked.pack_eq text, fun front op back h => ?_, ?_⟩
  · exact emitted_of_planFrom (Nat.zero_le (withFallback text).toArray.size) h
  · have h := length_planFrom_le_double (withFallback text).toArray (withFallback text).toArray.size 0
    rwa [List.size_toArray, Nat.sub_zero] at h

end Cartridge.Packed
