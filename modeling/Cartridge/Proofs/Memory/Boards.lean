import Cartridge.Failure
import Cartridge.Memory.Region

/-!
# Rows of values on a board

The pixels of a sprite sheet and the cells of a map are numbered row by row, 128 to a row.  Rows of values
are written onto such a board value by value, from left to right and from the top down, so that the numbers
of the cells never go back.  A value behind the last cell is a failure; but then all cells that come before
it have been written.

A column too many is the first column of the next row.
-/

namespace Cartridge

variable {rows : List (List Int)} {v : UInt8} {x x₀ y y₀ : Nat}

structure Board (σ : Type) where
  IsBoard : σ → Prop
  cell : σ → Nat → UInt8
  size : Nat
  failure : Failure

namespace Board

variable {σ : Type} {b : Board σ} {e e' : EStateM Failure σ Unit} {first next : Nat}
  {new new' : Nat → Option UInt8}

/-- The edit gives `new` values to cells from `first` on.  It fails exactly if there is one behind the last
cell, and also then the cells have their values. -/
structure Writes (b : Board σ) (first : Nat) (e : EStateM Failure σ Unit) (new : Nat → Option UInt8) :
    Prop where
  first_le : ∀ n v, new n = some v → first ≤ n
  outcome : ∀ s, b.IsBoard s → ∃ s', b.IsBoard s' ∧
    (∀ n < b.size, b.cell s' n = (new n).getD (b.cell s n)) ∧
    ((∀ n v, new n = some v → n < b.size) ∧ e.run s = .ok () s' ∨
      (∃ n v, new n = some v ∧ b.size ≤ n) ∧ e.run s = .error b.failure s')

theorem writes_pure (b : Board σ) (first : Nat) : b.Writes first (pure ()) fun _ => none :=
  ⟨nofun, fun s hs => ⟨s, hs, fun _ _ => rfl, .inl ⟨nofun, rfl⟩⟩⟩

theorem writes_one {n : Nat} (hin : n < b.size → ∀ s, b.IsBoard s → ∃ s', e.run s = .ok () s' ∧ b.IsBoard s' ∧
      ∀ k < b.size, b.cell s' k = if k = n then v else b.cell s k)
    (hout : b.size ≤ n → ∀ s, b.IsBoard s → e.run s = .error b.failure s) :
    b.Writes n e fun k => if k = n then some v else none where
  first_le k u hu := by
    split at hu
    · omega
    · cases hu
  outcome s hs := by
    by_cases hn : n < b.size
    · obtain ⟨s', hrun, hs', hcell⟩ := hin hn s hs
      refine ⟨s', hs', fun k hk => ?_, .inl ⟨fun k u hu => ?_, hrun⟩⟩
      · rw [hcell k hk]
        split <;> rfl
      · split at hu
        · omega
        · cases hu
    · refine ⟨s, hs, fun k hk => ?_, .inr ⟨⟨n, v, if_pos rfl, by omega⟩, hout (by omega) s hs⟩⟩
      rw [if_neg (by omega)]
      rfl

theorem Writes.seq (h : b.Writes first e new) (h' : b.Writes next e' new') (hle : first ≤ next)
    (hnext : ∀ n v, new n = some v → n ≤ next) :
    b.Writes first (do e; e') fun n => (new' n).or (new n) where
  first_le n v hv := by
    rcases Option.or_eq_some_iff.mp hv with hv | ⟨-, hv⟩
    · exact Nat.le_trans hle (h'.first_le n v hv)
    · exact h.first_le n v hv
  outcome s hs := by
    obtain ⟨s₁, hs₁, hcell, ⟨hall, hrun⟩ | ⟨⟨k, v, hk, hsize⟩, hrun⟩⟩ := h.outcome s hs
    · obtain ⟨s₂, hs₂, hcell', hend⟩ := h'.outcome s₁ hs₁
      refine ⟨s₂, hs₂, fun n hn => ?_, ?_⟩
      · rw [hcell' n hn, hcell n hn]
        cases new' n <;> rfl
      · have hrun' : (do e; e').run s = e'.run s₁ := by
          rw [EStateM.run_bind, hrun]
        rw [hrun']
        refine hend.imp (fun ⟨hall', hok⟩ => ⟨fun n v hv => ?_, hok⟩)
          fun ⟨⟨n, v, hv, hn⟩, herror⟩ => ⟨⟨n, v, by rw [hv]; rfl, hn⟩, herror⟩
        rcases Option.or_eq_some_iff.mp hv with hv | ⟨-, hv⟩
        · exact hall' n v hv
        · exact hall n v hv
    · -- the second edit would have given values to cells behind the last one only
      have hnone : ∀ n < b.size, new' n = none := by
        intro n hn
        refine Option.eq_none_iff_forall_ne_some.mpr fun u hu => ?_
        have hfirst := h'.first_le n u hu
        have hlast := hnext k v hk
        omega
      refine ⟨s₁, hs₁, fun n hn => by rw [hcell n hn, hnone n hn]; rfl, .inr ⟨?_, ?_⟩⟩
      · cases hk' : new' k with
        | none => exact ⟨k, v, by rw [hk', hk]; rfl, hsize⟩
        | some u => exact ⟨k, u, by rw [hk']; rfl, hsize⟩
      · rw [EStateM.run_bind, hrun]

end Board

/-- The value that rows of values have for a place, if their upper left corner is at column `x₀` of row
`y₀`. -/
def valueAt (x₀ y₀ : Nat) (rows : List (List Int)) (x y : Nat) : Option Int :=
  if x₀ ≤ x ∧ y₀ ≤ y then rows[y - y₀]?.bind fun row => row[x - x₀]? else none

theorem valueAt_of_lt (h : y < y₀) (rows : List (List Int)) (x : Nat) : valueAt x₀ y₀ rows x y = none :=
  if_neg (by omega)

theorem valueAt_cons (x₀ y₀ : Nat) (row : List Int) (rows : List (List Int)) (x y : Nat) :
    valueAt x₀ y₀ (row :: rows) x y =
      if y = y₀ then valueAt x₀ y₀ [row] x y else valueAt x₀ (y₀ + 1) rows x y := by
  by_cases hy : y = y₀
  · subst hy
    simp [valueAt]
  · rw [if_neg hy, valueAt, valueAt]
    by_cases hle : x₀ ≤ x ∧ y₀ ≤ y
    · have hindex : y - y₀ = y - (y₀ + 1) + 1 := by omega
      rw [if_pos hle, if_pos (by omega), hindex, List.getElem?_cons_succ]
    · rw [if_neg hle, if_neg (by omega)]

structure Scribe {σ : Type} (b : Board σ) where
  step : Int → Int → Int → EStateM Failure σ Unit
  row : Int → Int → List Int → EStateM Failure σ Unit
  rows : Int → Int → List (List Int) → EStateM Failure σ Unit
  code : Int → Option UInt8
  Fits : Int → Prop
  lastColumn : Nat
  lastRow : Nat
  lastColumn_le : lastColumn ≤ 128
  writes_step : ∀ (x y : Nat) (v : Int), Fits v → b.Writes (128 * y + x) (step x y v) fun n =>
    if n = 128 * y + x ∧ x ≤ lastColumn ∧ y ≤ lastRow then code v else none
  row_nil : ∀ x y, row x y [] = pure ()
  row_cons : ∀ x y v vs, row x y (v :: vs) = do step x y v; row (x + 1) y vs
  rows_nil : ∀ x y, rows x y [] = pure ()
  rows_cons : ∀ x y vs rest, rows x y (vs :: rest) = do row x y vs; rows x (y + 1) rest

namespace Scribe

variable {σ : Type} {b : Board σ} (s : Scribe b)

def placed (x₀ y₀ : Nat) (rows : List (List Int)) (x y : Nat) : Option UInt8 :=
  if x ≤ s.lastColumn ∧ y ≤ s.lastRow then (valueAt x₀ y₀ rows x y).bind s.code else none

/-- What is written into a cell: what is written at its place, or else one column too many in the row
above. -/
def written (x₀ y₀ : Nat) (rows : List (List Int)) (n : Nat) : Option UInt8 :=
  (s.placed x₀ y₀ rows (n % 128) (n / 128)).or
    (if n % 128 = 0 ∧ 0 < n / 128 then s.placed x₀ y₀ rows 128 (n / 128 - 1) else none)

theorem placed_eq_some_iff :
    s.placed x₀ y₀ rows x y = some v ↔
      (x ≤ s.lastColumn ∧ y ≤ s.lastRow) ∧ (valueAt x₀ y₀ rows x y).bind s.code = some v :=
  Option.ite_none_right_eq_some

theorem placed_nil (x₀ y₀ x y : Nat) : s.placed x₀ y₀ [] x y = none := by
  simp [placed, valueAt]

theorem placed_of_lt (h : y < y₀) (rows : List (List Int)) (x : Nat) : s.placed x₀ y₀ rows x y = none := by
  rw [placed, valueAt_of_lt h]
  simp

theorem placed_cons (x₀ y₀ : Nat) (row : List Int) (rows : List (List Int)) (x y : Nat) :
    s.placed x₀ y₀ (row :: rows) x y =
      if y = y₀ then s.placed x₀ y₀ [row] x y else s.placed x₀ (y₀ + 1) rows x y := by
  rw [placed, valueAt_cons]
  by_cases hy : y = y₀
  · rw [if_pos hy, if_pos hy, placed]
  · rw [if_neg hy, if_neg hy, placed]

theorem placed_row_cons (x₀ y₀ : Nat) (v : Int) (vs : List Int) (x : Nat) :
    s.placed x₀ y₀ [v :: vs] x y₀ = (s.placed (x₀ + 1) y₀ [vs] x y₀).or
      (if x = x₀ ∧ x₀ ≤ s.lastColumn ∧ y₀ ≤ s.lastRow then s.code v else none) := by
  by_cases hx : x = x₀
  · have hlt : ¬x₀ + 1 ≤ x₀ := by omega
    subst hx
    simp [placed, valueAt, hlt]
  · by_cases hle : x₀ ≤ x
    · have hindex : x - x₀ = x - (x₀ + 1) + 1 := by omega
      have hlt : x₀ + 1 ≤ x := by omega
      simp [placed, valueAt, hx, hle, hlt, hindex]
    · have hlt : ¬x₀ + 1 ≤ x := by omega
      simp [placed, valueAt, hx, hle, hlt]

theorem writes_row {vs : List Int} (hvs : ∀ v ∈ vs, s.Fits v) (x y : Nat) :
    b.Writes (128 * y + x) (s.row x y vs) fun n =>
      if 128 * y ≤ n then s.placed x y [vs] (n - 128 * y) y else none := by
  induction vs generalizing x with
  | nil =>
    rw [s.row_nil]
    have hnone : ∀ n, (if 128 * y ≤ n then s.placed x y [[]] (n - 128 * y) y else none) = none := by
      intro n
      simp [placed, valueAt]
    simp only [hnone]
    exact b.writes_pure _
  | cons v vs ih =>
    have hrest := ih (fun u hu => hvs u (List.mem_cons_of_mem v hu)) (x + 1)
    have hcell : ∀ n u, (if n = 128 * y + x ∧ x ≤ s.lastColumn ∧ y ≤ s.lastRow then s.code v else none) =
        some u → n ≤ 128 * y + (x + 1) := by
      intro n u hu
      split at hu
      · omega
      · cases hu
    have hseq := (s.writes_step x y v (hvs v List.mem_cons_self)).seq hrest (by omega) hcell
    have hvalues : (fun n => if 128 * y ≤ n then s.placed x y [v :: vs] (n - 128 * y) y else none) =
        fun n => (if 128 * y ≤ n then s.placed (x + 1) y [vs] (n - 128 * y) y else none).or
          (if n = 128 * y + x ∧ x ≤ s.lastColumn ∧ y ≤ s.lastRow then s.code v else none) := by
      funext n
      by_cases hn : 128 * y ≤ n
      · have hindex : n = 128 * y + x ↔ n - 128 * y = x := by omega
        rw [if_pos hn, if_pos hn, placed_row_cons]
        simp only [hindex]
      · rw [if_neg hn, if_neg hn, if_neg (by omega)]
        rfl
    rw [s.row_cons, hvalues]
    exact hseq

theorem written_cons (x₀ y₀ : Nat) (row : List Int) (rows : List (List Int)) (n : Nat) :
    s.written x₀ y₀ (row :: rows) n = (s.written x₀ (y₀ + 1) rows n).or
      (if 128 * y₀ ≤ n then s.placed x₀ y₀ [row] (n - 128 * y₀) y₀ else none) := by
  have hbeyond : ∀ {x : Nat}, 128 < x → ∀ y, s.placed x₀ y₀ [row] x y = none := by
    intro x hx y
    have hlast := s.lastColumn_le
    exact if_neg (by omega)
  rw [written, written, s.placed_cons x₀ y₀ row rows (n % 128), s.placed_cons x₀ y₀ row rows 128]
  by_cases hy : n / 128 = y₀
  · -- the cell is in this row
    have hindex : n - 128 * y₀ = n % 128 := by omega
    have habove : ∀ z, z < y₀ + 1 → ∀ x, s.placed x₀ (y₀ + 1) rows x z = none :=
      fun z hz => s.placed_of_lt hz rows
    rw [if_pos hy, habove _ (by omega), habove _ (by omega), if_pos (by omega : 128 * y₀ ≤ n), hindex, hy]
    by_cases hfirst : n % 128 = 0 ∧ 0 < y₀
    · rw [if_pos hfirst, if_neg (by omega), ite_self]
      simp
    · rw [if_neg hfirst, ite_self]
      simp
  rw [if_neg hy]
  by_cases hnext : n % 128 = 0 ∧ n / 128 = y₀ + 1
  · -- the cell is the first one of the next row
    have hindex : n - 128 * y₀ = 128 := by omega
    have habove : n / 128 - 1 = y₀ := by omega
    have hzero : n % 128 = 0 ∧ 0 < n / 128 := by omega
    rw [if_pos hzero, if_pos habove, if_pos hzero, habove, s.placed_of_lt (Nat.lt_succ_self y₀) rows,
      if_pos (by omega : 128 * y₀ ≤ n), hindex]
    simp
  · have hnone : (if 128 * y₀ ≤ n then s.placed x₀ y₀ [row] (n - 128 * y₀) y₀ else none) = none := by
      split
      · exact hbeyond (by omega) _
      · rfl
    rw [hnone, Option.or_none]
    by_cases hzero : n % 128 = 0 ∧ 0 < n / 128
    · rw [if_pos hzero, if_pos hzero, if_neg (by omega)]
    · rw [if_neg hzero, if_neg hzero]

theorem writes_rows (hrows : ∀ row ∈ rows, ∀ v ∈ row, s.Fits v) (x y : Nat) :
    b.Writes (128 * y + x) (s.rows x y rows) (s.written x y rows) := by
  induction rows generalizing y with
  | nil =>
    have hnone : s.written x y [] = fun _ => none := by
      funext n
      simp [written, placed_nil]
    rw [s.rows_nil, hnone]
    exact b.writes_pure _
  | cons row rows ih =>
    have hrest := ih (fun r hr => hrows r (List.mem_cons_of_mem row hr)) (y + 1)
    have hcell : ∀ n u, (if 128 * y ≤ n then s.placed x y [row] (n - 128 * y) y else none) = some u →
        n ≤ 128 * (y + 1) + x := by
      intro n u hu
      have hlast := s.lastColumn_le
      split at hu
      · have hcolumn := (s.placed_eq_some_iff.mp hu).1.1
        omega
      · cases hu
    rw [s.rows_cons, funext (s.written_cons x y row rows)]
    exact (s.writes_row (hrows row List.mem_cons_self) x y).seq hrest (by omega) hcell

theorem written_place (rows : List (List Int)) (hx : x < 128) (y : Nat) :
    s.written x₀ y₀ rows (128 * y + x) = (s.placed x₀ y₀ rows x y).or
      (if x = 0 ∧ 0 < y then s.placed x₀ y₀ rows 128 (y - 1) else none) := by
  have hcolumn : (128 * y + x) % 128 = x := by omega
  have hrow : (128 * y + x) / 128 = y := by omega
  rw [written, hcolumn, hrow]

theorem exists_written_iff (rows : List (List Int)) (m : Nat) :
    (∃ n v, s.written x₀ y₀ rows n = some v ∧ m ≤ n) ↔
      ∃ x y v, s.placed x₀ y₀ rows x y = some v ∧ m ≤ 128 * y + x := by
  constructor
  · rintro ⟨n, v, hv, hm⟩
    rcases Option.or_eq_some_iff.mp hv with hv | ⟨-, hv⟩
    · exact ⟨_, _, v, hv, by omega⟩
    · split at hv
      · exact ⟨_, _, v, hv, by omega⟩
      · cases hv
  · rintro ⟨x, y, v, hv, hm⟩
    have hx : x ≤ 128 := Nat.le_trans (s.placed_eq_some_iff.mp hv).1.1 s.lastColumn_le
    by_cases hlt : x < 128
    · exact ⟨128 * y + x, v, by rw [s.written_place rows hlt, hv]; rfl, hm⟩
    · -- the place is the first one of the next row, which may be written as well
      obtain rfl : x = 128 := by omega
      have hwritten : s.written x₀ y₀ rows (128 * (y + 1) + 0) = _ := s.written_place rows (by decide) (y + 1)
      rw [if_pos ⟨rfl, Nat.succ_pos y⟩, Nat.add_sub_cancel, hv] at hwritten
      cases hplaced : s.placed x₀ y₀ rows 0 (y + 1) with
      | none => exact ⟨_, v, by rw [hwritten, hplaced]; rfl, by omega⟩
      | some u => exact ⟨_, u, by rw [hwritten, hplaced]; rfl, by omega⟩

/-- What writing rows of values comes to: it fails exactly if a value has its place behind the last cell. -/
theorem exists_outcome (hrows : ∀ row ∈ rows, ∀ v ∈ row, s.Fits v) (x₀ y₀ : Nat) {a : σ} (ha : b.IsBoard a) :
    ∃ a', b.IsBoard a' ∧ (∀ n < b.size, b.cell a' n = (s.written x₀ y₀ rows n).getD (b.cell a n)) ∧
      ((¬∃ x y v, s.placed x₀ y₀ rows x y = some v ∧ b.size ≤ 128 * y + x) ∧
          (s.rows x₀ y₀ rows).run a = .ok () a' ∨
        (∃ x y v, s.placed x₀ y₀ rows x y = some v ∧ b.size ≤ 128 * y + x) ∧
          (s.rows x₀ y₀ rows).run a = .error b.failure a') := by
  obtain ⟨a', ha', hcell, hend⟩ := (s.writes_rows hrows x₀ y₀).outcome a ha
  refine ⟨a', ha', hcell, ?_⟩
  rw [← s.exists_written_iff rows]
  refine hend.imp_left fun ⟨hall, hrun⟩ => ⟨?_, hrun⟩
  rintro ⟨n, v, hv, hn⟩
  have hlt := hall n v hv
  omega

end Scribe

end Cartridge
