import Cartridge.Memory.Songs
import Cartridge.Proofs.Memory.SoundText

/-!
# The sizes of regions that are read from lines

A region that is read from lines has as many bytes as the lines spell: a byte for
two digits, or four bytes for the line of a part of a song.  Nothing is added to it
and nothing is cut off.  The sounds are the exception: their lines are stored in a
region that is there already, and no store changes how long it is.
-/

namespace Cartridge

open List

variable {b s : Bytes} {ls : List Bytes} {r : Region} {α : Type}

theorem exists_of_bind_eq_ok {β : Type} {x : Except Failure α} {f : α → Except Failure β} {b : β}
    (h : x >>= f = .ok b) : ∃ a, x = .ok a ∧ f a = .ok b := by
  cases x with
  | error e => cases h
  | ok a => exact ⟨a, rfl, h⟩

theorem eq_ok_of_toOption {x : Except Failure α} {a : α} (h : x.toOption = some a) : x = .ok a := by
  cases x with
  | error e => cases h
  | ok b =>
    cases h
    rfl

theorem length_flatten_of_mapM {f : α → Except Failure Bytes} {k : Nat} {m : List α → Nat} (hnil : m [] = 0)
    (hcons : ∀ a l b, f a = .ok b → m (a :: l) = k * b.length + m l) {l : List α} {rows : List Bytes}
    (hrows : l.mapM f = .ok rows) : k * rows.flatten.length = m l := by
  induction l generalizing rows with
  | nil =>
    cases hrows
    exact hnil.symm
  | cons a l ih =>
    rw [mapM_cons] at hrows
    obtain ⟨row, hrow, hrest⟩ := exists_of_bind_eq_ok hrows
    obtain ⟨later, hlater, heq⟩ := exists_of_bind_eq_ok hrest
    cases heq
    rw [flatten_cons, length_append, Nat.mul_add, ih hlater, hcons a l row hrow]

/-! ### Digits -/

namespace Hex

def spelled (s : Bytes) : Nat := s.countP fun c => !Bytes.isBlank c

theorem spelled_cons_of_blank {c : UInt8} (h : Bytes.isBlank c = true) (s : Bytes) :
    spelled (c :: s) = spelled s := by
  rw [spelled, countP_cons, h]
  rfl

theorem spelled_cons_of_digit {c : UInt8} {n : UInt8} (h : value? c = some n) (s : Bytes) :
    spelled (c :: s) = spelled s + 1 := by
  have hdigit : isDigit c = true := by
    rw [isDigit, h]
    rfl
  rw [spelled, countP_cons, (facts_of_isDigit c hdigit).1]
  rfl

theorem length_of_decodeFrom {read : Bytes} (h : decodeFrom read s = some b) :
    2 * b.length = 2 * read.length + spelled s := by
  -- the cases are those of the reader: the end, a blank, a lone byte, a pair
  fun_induction decodeFrom read s with
  | case1 read =>
    cases h
    rw [length_reverse]
    rfl
  | case2 read c rest hblank ih => rw [ih h, spelled_cons_of_blank hblank]
  | case3 => cases h
  | case4 read c hblank d rest hi lo hlo hhi ih =>
    rw [ih h, spelled_cons_of_digit hhi, spelled_cons_of_digit hlo, length_cons]
    omega
  | case5 => cases h

theorem spelled_dropWhile (s : Bytes) : spelled (s.dropWhile Bytes.isBlank) = spelled s := by
  induction s with
  | nil => rfl
  | cons c s ih =>
    rw [dropWhile_cons]
    split
    · next hblank => rw [ih, spelled_cons_of_blank hblank]
    · rfl

theorem spelled_trimRight (s : Bytes) : spelled s.trimRight = spelled s := by
  have hreverse : ∀ s : Bytes, spelled s.reverse = spelled s := fun s => countP_reverse
  rw [Bytes.trimRight, hreverse, spelled_dropWhile, hreverse]

theorem spelled_flatten_cons (l : Bytes) (ls : List Bytes) :
    spelled (l :: ls).flatten = spelled l + spelled ls.flatten := by
  rw [flatten_cons, spelled, countP_append]
  rfl

end Hex

/-! ### Lines of digits -/

namespace Region

theorem length_of_ofHex (h : ofHex s = .ok b) : 2 * b.length = Hex.spelled s := by
  rw [ofHex] at h
  split at h
  · cases h
  split at h
  · next b' hdecode =>
    cases h
    have hlength := Hex.length_of_decodeFrom hdecode
    rwa [length_nil, Nat.mul_zero, Nat.zero_add] at hlength
  · cases h

theorem size_of_ofHexLines (h : ofHexLines ls = .ok r) : 2 * r.size = Hex.spelled ls.flatten := by
  obtain ⟨rows, hrows, heq⟩ := exists_of_bind_eq_ok h
  cases heq
  rw [size_toArray]
  apply length_flatten_of_mapM (m := fun ls => Hex.spelled ls.flatten) rfl _ hrows
  intro l ls b hb
  rw [Hex.spelled_flatten_cons, length_of_ofHex hb, Hex.spelled_trimRight]

end Region

/-! ### Pictures -/

namespace SpriteSheet

theorem perm_of_swapPairs {n : Nat} {t : Bytes} (h : swapPairs n s = some t) : t.Perm s := by
  induction n generalizing s t with
  | zero =>
    cases h
    exact .refl s
  | succ n ih =>
    match s, h with
    | a :: b :: s, h =>
      obtain ⟨u, hu, rfl⟩ := Option.map_eq_some_iff.mp h
      exact (Perm.swap a b u).trans (((ih hu).cons b).cons a)

theorem length_of_ofLine {l : Bytes} (h : ofLine l = .ok b) : 2 * b.length = Hex.spelled l := by
  rw [ofLine] at h
  split at h
  · cases h
  · next s hs =>
    have hperm : Hex.spelled s = Hex.spelled l.trimRight := (perm_of_swapPairs hs).countP_eq _
    rw [Region.length_of_ofHex h, hperm, Hex.spelled_trimRight]

theorem size_of_ofLines (h : ofLines ls = .ok r) :
    2 * r.size = Hex.spelled (ls.filter fun l => l.length == 129).flatten := by
  obtain ⟨rows, hrows, heq⟩ := exists_of_bind_eq_ok h
  cases heq
  rw [size_toArray]
  apply length_flatten_of_mapM (m := fun ls => Hex.spelled ls.flatten) rfl _ hrows
  intro l ls b hb
  rw [Hex.spelled_flatten_cons, length_of_ofLine hb]

end SpriteSheet

/-! ### Songs -/

namespace Songs

theorem length_of_ofLine {l : Bytes} (h : ofLine l = .ok b) : b.length = 4 := by
  rw [ofLine] at h
  split at h
  · -- the marks and four channels are read from digits and then picked
    iterate 10 obtain ⟨_, -, h⟩ := exists_of_bind_eq_ok h
    cases h
    rfl
  · cases h

theorem size_of_ofLines (h : ofLines ls = .ok r) : r.size = 4 * ls.countP fun l => l.contains 32 := by
  obtain ⟨rows, hrows, heq⟩ := exists_of_bind_eq_ok h
  cases heq
  rw [size_toArray, countP_eq_length_filter, ← Nat.one_mul (length _)]
  apply length_flatten_of_mapM (m := fun ls => 4 * ls.length) rfl _ hrows
  intro l ls b hb
  rw [length_of_ofLine hb, length_cons]
  omega

end Songs

/-! ### Edits that keep a region's size -/

namespace Region

def KeepsSize {α : Type} (e : Edit α) : Prop := ∀ r a r', e.run r = .ok a r' → r'.size = r.size

variable {α β : Type}

theorem keepsSize_pure (a : α) : KeepsSize (pure a) := by
  intro r a' r' h
  cases h
  rfl

theorem keepsSize_throw (e : Failure) : KeepsSize (throw e : Edit α) := by
  intro r a r' h
  cases h

theorem KeepsSize.bind {e : Edit α} {f : α → Edit β} (he : KeepsSize e)
    (hf : ∀ a, KeepsSize (f a)) : KeepsSize (e >>= f) := by
  intro r b r' h
  rw [EStateM.run_bind] at h
  split at h
  · next a r₁ hrun => rw [hf a r₁ b r' h, he r a r₁ hrun]
  · cases h

theorem keepsSize_get : KeepsSize (get : Edit Region) := by
  intro r a r' h
  cases h
  rfl

theorem keepsSize_read (i : Int) : KeepsSize (read i) := by
  apply keepsSize_get.bind
  intro r
  split
  · exact keepsSize_pure _
  · exact keepsSize_throw _

theorem keepsSize_store (i v : Int) : KeepsSize (store i v) := by
  rw [store]
  split
  · exact keepsSize_throw _
  apply keepsSize_get.bind
  intro r
  split
  · exact keepsSize_throw _
  · intro r a r' h
    cases h
    exact Array.size_setIfInBounds

theorem KeepsSize.forM {f : α → Edit Unit} (h : ∀ a, KeepsSize (f a)) (l : List α) :
    KeepsSize (l.forM f) := by
  induction l with
  | nil => exact keepsSize_pure ()
  | cons a l ih => exact (h a).bind fun _ => ih

theorem KeepsSize.size_of_edited {e : Edit Unit} (he : KeepsSize e) {r' : Region} (h : r.edited e = .ok r') :
    r'.size = r.size := by
  rw [edited] at h
  split at h
  · next hrun =>
    cases h
    exact he _ _ _ hrun
  · cases h

end Region

/-! ### Sounds -/

namespace Sounds

open Region

theorem keepsSize_storeGiven (i : Int) (v : Option Int) : KeepsSize (storeGiven i v) := by
  cases v with
  | none => exact keepsSize_pure ()
  | some v => exact keepsSize_store i v

theorem keepsSize_setSettings (id : Int) (change : SettingsChange) :
    KeepsSize (setSettings id change) :=
  (keepsSize_storeGiven _ _).bind fun _ => (keepsSize_storeGiven _ _).bind fun _ =>
    (keepsSize_storeGiven _ _).bind fun _ => keepsSize_storeGiven _ _

theorem keepsSize_setNote (id n : Int) (change : NoteChange) : KeepsSize (setNote id n change) := by
  apply (keepsSize_read _).bind
  intro low
  apply (keepsSize_read _).bind
  intro high
  split
  · exact keepsSize_throw _
  · exact (keepsSize_store _ _).bind fun _ => keepsSize_store _ _

theorem keepsSize_editFrom (value : Except Failure α) {edit : α → Edit Unit} (h : ∀ a, KeepsSize (edit a)) :
    KeepsSize (editFrom value edit) := by
  cases value with
  | ok a => exact h a
  | error e => exact keepsSize_throw e

theorem keepsSize_storeLine (id : Nat) (l : Bytes) : KeepsSize (storeLine id l) :=
  (keepsSize_editFrom _ (keepsSize_setSettings id)).bind fun _ =>
    KeepsSize.forM (fun n : Nat => keepsSize_editFrom (lineNote l n) (keepsSize_setNote id n)) _

theorem keepsSize_storeLines (id : Nat) (ls : List Bytes) : KeepsSize (storeLines id ls) := by
  induction ls generalizing id with
  | nil => exact keepsSize_pure ()
  | cons l ls ih => exact (keepsSize_storeLine id l).bind fun _ => ih (id + 1)

theorem size_of_ofLines (h : ofLines ls = .ok r) : r.size = 4352 := by
  rw [(keepsSize_storeLines 0 _).size_of_edited h, size_blank]

end Sounds

/-! ### Regions that are written without failure -/

theorem exists_of_linesUntil {make : α → Except Failure Bytes} {l : List α} (h : (linesUntil make l).2 = none)
    {a : α} (ha : a ∈ l) : ∃ x, make a = .ok x := by
  induction l with
  | nil => cases ha
  | cons b l ih =>
    rw [linesUntil] at h
    split at h
    · cases h
    · next x hx =>
      rcases mem_cons.mp ha with rfl | ha
      · exact ⟨x, hx⟩
      · exact ih h ha

theorem Region.lt_of_fetch {i : Nat} {b : UInt8} (h : r.fetch (i : Int) = .ok b) : i < r.size := by
  by_cases hi : i < r.size
  · exact hi
  · have hposition : Slice.position? r.size (i : Int) = none := by
      rw [Slice.position?, if_pos (by omega), if_neg (by omega)]
    rw [fetch, hposition] at h
    cases h

theorem Sounds.size_of_lines (h : (lines r).2 = none) : 4352 ≤ r.size := by
  obtain ⟨x, hx⟩ := exists_of_linesUntil h (mem_range.mpr (by decide : 63 < 64))
  rw [line] at hx
  obtain ⟨s, hs, -⟩ := exists_of_bind_eq_ok hx
  rw [settings] at hs
  obtain ⟨_, -, hs⟩ := exists_of_bind_eq_ok hs
  obtain ⟨_, -, hs⟩ := exists_of_bind_eq_ok hs
  obtain ⟨_, -, hs⟩ := exists_of_bind_eq_ok hs
  obtain ⟨b, hb, -⟩ := exists_of_bind_eq_ok hs
  exact Region.lt_of_fetch (i := 4351) hb

theorem Songs.dvd_of_lines (h : (lines r).2 = none) : 4 ∣ r.size := by
  by_cases hsize : r.size = 0
  · rw [hsize]
    exact Nat.dvd_zero 4
  · obtain ⟨x, hx⟩ := exists_of_linesUntil h
      (mem_range.mpr (show (r.size + 3) / 4 - 1 < (r.size + 3) / 4 by omega))
    rw [line] at hx
    obtain ⟨_, -, hx⟩ := exists_of_bind_eq_ok hx
    obtain ⟨_, -, hx⟩ := exists_of_bind_eq_ok hx
    obtain ⟨_, -, hx⟩ := exists_of_bind_eq_ok hx
    obtain ⟨b, hb, -⟩ := exists_of_bind_eq_ok hx
    have hlast := Region.lt_of_fetch hb
    omega

end Cartridge
