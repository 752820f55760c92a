import Cartridge.Text.Bytes

/-!
# The lines of a text

Cutting a text after its newlines loses nothing, and cuts at the same places
whatever has been cut off before.  A *line* is a text whose only newline is its
last byte; texts that are put together of lines fall into them again.

A text without a newline at its end is closed by one.  The lines of the closed
text are seen best one byte at a time, from the front: a byte in front of a text
belongs to its first line, or is a line of its own.
-/

namespace Cartridge.Bytes

open List

variable {c : UInt8} {l s : Bytes}

/-! ### Cutting and putting together -/

def prependTo (x : Bytes) : List Bytes → List Bytes
  | [] => if x.isEmpty then [] else [x]
  | l :: ls => (x ++ l) :: ls

theorem linesFrom_eq (s current : Bytes) :
    linesFrom current s = prependTo current.reverse (lines s) := by
  induction s generalizing current with
  | nil => cases current <;> simp [lines, linesFrom, prependTo]
  | cons c s ih =>
    rw [lines, linesFrom, linesFrom]
    split
    · simp [prependTo]
    · rw [ih (c :: current), ih [c]]
      cases lines s <;> simp [prependTo]

theorem lines_newline_cons (s : Bytes) : lines (newline :: s) = [newline] :: lines s := by
  rw [lines, linesFrom, if_pos rfl]
  rfl

theorem lines_cons_of_ne (hc : c ≠ newline) (s : Bytes) : lines (c :: s) = prependTo [c] (lines s) := by
  rw [lines, linesFrom, if_neg hc, linesFrom_eq, reverse_singleton]

theorem flatten_prependTo (x : Bytes) (ls : List Bytes) :
    (prependTo x ls).flatten = x ++ ls.flatten := by
  cases ls with
  | nil => cases x <;> simp [prependTo]
  | cons l ls => simp [prependTo]

theorem flatten_lines (s : Bytes) : (lines s).flatten = s := by
  induction s with
  | nil => rfl
  | cons c s ih =>
    by_cases hc : c = newline
    · rw [hc, lines_newline_cons, flatten_cons, ih, singleton_append]
    · rw [lines_cons_of_ne hc, flatten_prependTo, ih, singleton_append]

def IsLine (l : Bytes) : Prop := ∃ x, newline ∉ x ∧ l = x ++ [newline]

theorem IsLine.getLast? (h : IsLine l) : l.getLast? = some newline := by
  obtain ⟨x, -, rfl⟩ := h
  simp

theorem isLine_singleton : IsLine [newline] := ⟨[], not_mem_nil, rfl⟩

theorem IsLine.cons (hc : c ≠ newline) (h : IsLine l) : IsLine (c :: l) := by
  obtain ⟨x, hx, rfl⟩ := h
  exact ⟨c :: x, by simp [hx, Ne.symm hc], rfl⟩

theorem lines_append_of_isLine (h : IsLine l) (s : Bytes) : lines (l ++ s) = l :: lines s := by
  obtain ⟨x, hx, rfl⟩ := h
  induction x with
  | nil => exact lines_newline_cons s
  | cons c x ih =>
    rw [mem_cons, not_or] at hx
    rw [cons_append, cons_append, lines_cons_of_ne (Ne.symm hx.1), ih hx.2]
    rfl

theorem lines_flatten {ls : List Bytes} (h : ∀ l ∈ ls, IsLine l) (s : Bytes) :
    lines (ls.flatten ++ s) = ls ++ lines s := by
  induction ls with
  | nil => rfl
  | cons l ls ih =>
    rw [flatten_cons, append_assoc, lines_append_of_isLine (h l mem_cons_self),
      ih fun m hm => h m (mem_cons_of_mem l hm), cons_append]

/-! ### Closed texts -/

def closed (s : Bytes) : Bytes := if s.getLast? = some newline then s else s ++ [newline]

theorem getLast?_closed (s : Bytes) : (closed s).getLast? = some newline := by
  unfold closed
  split
  · assumption
  · simp

@[simp] theorem closed_closed (s : Bytes) : closed (closed s) = closed s := by
  rw [closed, if_pos (getLast?_closed s)]

def firstLine : Bytes → Bytes
  | [] => [newline]
  | c :: s => if c = newline then [newline] else c :: firstLine s

def laterLines : Bytes → List Bytes
  | [] => []
  | c :: s => if c = newline then firstLine s :: laterLines s else laterLines s

theorem lines_append_newline (s : Bytes) :
    lines (s ++ [newline]) = firstLine s :: laterLines s := by
  induction s with
  | nil => rfl
  | cons c s ih =>
    rw [cons_append, firstLine, laterLines]
    split
    · next hc => rw [hc, lines_newline_cons, ih]
    · next hc =>
      rw [lines_cons_of_ne hc, ih]
      rfl

theorem isLine_of_mem (h : l ∈ firstLine s :: laterLines s) : IsLine l := by
  induction s generalizing l with
  | nil =>
    rw [mem_singleton.mp h]
    exact isLine_singleton
  | cons c s ih =>
    rw [firstLine, laterLines] at h
    split at h
    · rcases mem_cons.mp h with rfl | h
      · exact isLine_singleton
      · exact ih h
    · next hc =>
      rcases mem_cons.mp h with rfl | h
      · exact (ih mem_cons_self).cons hc
      · exact ih (mem_cons_of_mem _ h)

theorem mem_lines_closed (h : l ∈ lines (closed s)) : l ∈ firstLine s :: laterLines s := by
  rw [← lines_append_newline]
  unfold closed at h
  split at h
  · next hs =>
    obtain ⟨x, rfl⟩ := getLast?_eq_some_iff.mp hs
    have hline : ∀ m ∈ lines (x ++ [newline]), IsLine m := fun m hm =>
      isLine_of_mem (by rwa [lines_append_newline] at hm)
    have hcut := lines_flatten hline [newline]
    rw [flatten_lines] at hcut
    rw [hcut]
    exact mem_append_left _ h
  · exact h

theorem isLine_of_mem_lines_closed (h : l ∈ lines (closed s)) : IsLine l :=
  isLine_of_mem (mem_lines_closed h)

theorem closed_cons_of_ne (hc : c ≠ newline) (s : Bytes) : closed (c :: s) = c :: closed s := by
  cases s with
  | nil => simp [closed, hc]
  | cons d s =>
    rw [closed, closed, getLast?_cons_cons]
    split <;> rfl

theorem firstLine_eq (s : Bytes) : firstLine s = closed ((lines s).headD []) := by
  induction s with
  | nil => rfl
  | cons c s ih =>
    rw [firstLine]
    split
    · next hc =>
      rw [hc, lines_newline_cons]
      rfl
    · next hc =>
      rw [ih, lines_cons_of_ne hc, ← closed_cons_of_ne hc]
      cases lines s <;> rfl

/-- A line of the text with a newline behind it is a line of the text itself, closed
by a newline, or empty. -/
theorem exists_of_mem_lines (h : l ∈ firstLine s :: laterLines s) :
    l = [newline] ∨ ∃ m ∈ lines s, l = closed m := by
  -- the first line is that of the text, and the later ones are among its later ones
  have hfirst : ∀ s, firstLine s = [newline] ∨ ∃ m ∈ lines s, firstLine s = closed m := by
    intro s
    rw [firstLine_eq]
    cases lines s with
    | nil => exact .inl rfl
    | cons m ms => exact .inr ⟨m, mem_cons_self, rfl⟩
  have hlater : ∀ l ∈ laterLines s, l = [newline] ∨ ∃ m ∈ (lines s).tail, l = closed m := by
    clear h
    induction s with
    | nil =>
      intro l hl
      cases hl
    | cons c s ih =>
      rw [laterLines]
      split
      · next hc =>
        rw [hc, lines_newline_cons, tail_cons]
        intro l hl
        rcases mem_cons.mp hl with rfl | hl
        · exact hfirst s
        · rcases ih l hl with hnewline | ⟨m, hm, hl⟩
          · exact .inl hnewline
          · exact .inr ⟨m, mem_of_mem_tail hm, hl⟩
      · next hc =>
        have htail : (lines (c :: s)).tail = (lines s).tail := by
          rw [lines_cons_of_ne hc]
          cases lines s <;> rfl
        rw [htail]
        exact ih
  rcases mem_cons.mp h with rfl | hl
  · exact hfirst s
  · rcases hlater l hl with hnewline | ⟨m, hm, hl⟩
    · exact .inl hnewline
    · exact .inr ⟨m, mem_of_mem_tail hm, hl⟩

end Cartridge.Bytes
