import Cartridge.Lua.Writing.Gap
import Cartridge.Proofs.Lua.GapReading

/-!
# Gaps that are laid out

A gap is laid out in stages, each of which changes blanks only: spaces become others, or go, where a
newline, a comment or the start of the gap is next to them, and newlines go where others stay.  The machine
that reads gaps cannot tell.  At the end of the program blanks become a newline, which the machine notices,
but which belongs to no comment.
-/

namespace Cartridge.Lua.Gap

open Tally List Bytes

variable {atEnd : Bool} {c : UInt8} {p : UInt8 → Bool}

variable {τ : Tally} {s indent : Bytes}

/-! ### Stages -/

theorem read_untab (τ : Tally) (s : Bytes) : τ.read (untab s) = τ.read s := by
  induction s generalizing τ with
  | nil => rfl
  | cons c s ih =>
    have hcons : untab (c :: s) = (if c = 9 then space else c) :: untab s := rfl
    rw [hcons, read_cons, read_cons, ih]
    split
    · next hc =>
      rw [hc, step_tab]
      rfl
    · rfl

theorem return_not_mem_untab (h : (13 : UInt8) ∉ s) : (13 : UInt8) ∉ untab s := by
  intro hmem
  obtain ⟨c, hc, heq⟩ := mem_map.mp hmem
  split at heq
  · cases heq
  · exact h (heq ▸ hc)

theorem joinReturnFirst_of_not_mem (h : (13 : UInt8) ∉ s) : joinReturnFirst s = s := by
  fun_induction joinReturnFirst s with
  | case1 s ih => simp at h
  | case2 c s hne ih =>
    rw [ih fun hmem => h (mem_cons_of_mem c hmem)]
  | case3 => rfl

theorem joinReturnLast_of_not_mem (h : (13 : UInt8) ∉ s) : joinReturnLast s = s := by
  fun_induction joinReturnLast s with
  | case1 s ih => simp at h
  | case2 c s hne ih =>
    rw [ih fun hmem => h (mem_cons_of_mem c hmem)]
  | case3 => rfl

theorem regularNewlines_of_not_mem (h : (13 : UInt8) ∉ s) : regularNewlines s = s := by
  rw [regularNewlines, joinReturnFirst_of_not_mem h, joinReturnLast_of_not_mem h]
  have hsame : ∀ c ∈ s, (if c = carriageReturn then newline else c) = c := by
    intro c hc
    refine if_neg ?_
    rintro rfl
    exact h hc
  rw [map_congr_left hsame, map_id']

theorem exists_spaces (s : Bytes) : ∃ n, s = replicate n space ++ s.dropWhile (· == space) := by
  induction s with
  | nil => exact ⟨0, rfl⟩
  | cons c s ih =>
    rw [dropWhile_cons]
    split
    · next hc =>
      obtain ⟨n, hn⟩ := ih
      refine ⟨n + 1, ?_⟩
      rw [replicate_succ, cons_append, ← hn, beq_iff_eq.mp hc]
    · exact ⟨0, rfl⟩

theorem read_replicate (h : τ.step 32 = τ) (n : Nat) (s : Bytes) :
    τ.read (replicate n space ++ s) = τ.read s := by
  rw [read_append, read_spaces h]
  intro c hc
  rw [eq_of_mem_replicate hc]
  rfl

theorem read_dropWhile (h : τ.step 32 = τ) (s : Bytes) : τ.read (s.dropWhile (· == space)) = τ.read s := by
  obtain ⟨n, hn⟩ := exists_spaces s
  conv => rhs; rw [hn]
  rw [read_replicate h]

theorem read_spaces_newline (τ : Tally) (n : Nat) (s : Bytes) :
    τ.read (replicate n space ++ 10 :: s) = τ.read (10 :: s) := by
  induction n generalizing τ with
  | zero => rfl
  | succ n ih =>
    rw [replicate_succ, cons_append, read_cons, ih, read_cons, read_cons]
    exact congrArg (read · s) (step_space_newline τ)

theorem read_dropTrailing (τ : Tally) (s : Bytes) : τ.read (dropTrailing s) = τ.read s := by
  induction s generalizing τ with
  | nil => rfl
  | cons c s ih =>
    rw [dropTrailing]
    split
    · next h =>
      -- the space and those behind it stand in front of a newline
      rw [Bool.and_eq_true, decide_eq_true_eq, decide_eq_true_eq] at h
      obtain ⟨rfl, hnext⟩ := h
      obtain ⟨n, hn⟩ := exists_spaces s
      obtain ⟨s', hs'⟩ : ∃ s', s.dropWhile (· == space) = 10 :: s' := by
        cases hs : s.dropWhile (· == space) with
        | nil =>
          rw [hs] at hnext
          cases hnext
        | cons d s' =>
          rw [hs] at hnext
          exact ⟨s', by rw [Option.some.inj hnext]; rfl⟩
      rw [hs'] at hn
      have hlonger := read_spaces_newline τ (n + 1) s'
      rw [replicate_succ, cons_append, ← hn] at hlonger
      rw [ih, hlonger, hn, read_spaces_newline]
    · rw [read_cons, read_cons, ih]

theorem read_placeFirstComment {lead : Bytes} (hlead : ∀ c ∈ lead, isSpace c = true)
    (hτ : τ.phase = .outside) (s : Bytes) : τ.read (placeFirstComment lead s) = τ.read s := by
  have hfixed := step_space_of_outside hτ
  rw [placeFirstComment]
  split
  · rw [read_append, read_spaces hfixed hlead, read_dropWhile hfixed]
  · rfl

section Indent

variable (hindent : ∀ c ∈ indent, isSpace c = true)
include hindent

theorem read_placeCommentsFrom {dropping : Bool} (hτ : dropping = true → τ.step 32 = τ) (s : Bytes) :
    τ.read (placeCommentsFrom indent dropping s) = τ.read s := by
  induction s generalizing τ dropping with
  | nil => rfl
  | cons c s ih =>
    rw [placeCommentsFrom]
    split
    · next h =>
      rw [Bool.and_eq_true, decide_eq_true_eq] at h
      obtain ⟨rfl, hdropping⟩ := h
      have hfixed : τ.step space = τ := hτ hdropping
      rw [ih fun _ => hτ hdropping, read_cons, hfixed]
    · split
      · next h =>
        rw [Bool.and_eq_true, decide_eq_true_eq] at h
        obtain ⟨rfl, -⟩ := h
        have hfixed : (τ.step newline).step 32 = τ.step newline := step_newline_space τ
        rw [cons_append, read_cons, read_append, read_spaces hfixed hindent, ih fun _ => hfixed,
          read_cons]
      · have hkept : false = true → (τ.step c).step 32 = τ.step c := nofun
        rw [read_cons, read_cons, ih hkept]

theorem read_placeComments (τ : Tally) (s : Bytes) : τ.read (placeComments indent s) = τ.read s := by
  have hkept : false = true → τ.step 32 = τ := nofun
  exact read_placeCommentsFrom hindent hkept s

theorem read_placeEnd (τ : Tally) (s : Bytes) : τ.read (placeEnd indent s) = τ.read s := by
  induction s generalizing τ with
  | nil => rfl
  | cons c s ih =>
    rw [placeEnd]
    split
    · next hc =>
      subst hc
      have hfixed : (τ.step newline).step 32 = τ.step newline := step_newline_space τ
      have hdrop := read_dropWhile hfixed s
      split
      · next hs =>
        rw [hs, read_nil] at hdrop
        rw [read_cons, read_cons, read_spaces hfixed hindent, ← hdrop]
      · next hs =>
        rw [hs] at hdrop
        have htwo : (τ.step newline).step 10 = τ.step newline := step_newline_newline τ
        rw [cons_append, read_cons, read_append, read_spaces hfixed hindent, read_cons, read_cons,
          ← hdrop, read_cons, read_nil, htwo]
        exact (congrArg (read · indent) htwo).trans (read_spaces hfixed hindent)
      · rw [read_cons, read_cons, ih]
    · rw [read_cons, read_cons, ih]

end Indent

theorem read_clearBlank (hτ : τ.phase = .outside) (s : Bytes) : τ.read (clearBlank s) = τ.read s := by
  have hdrop := read_dropWhile (step_space_of_outside hτ) s
  rw [clearBlank]
  split
  · next hs => rw [← hdrop, hs]
  · next hs => rw [← hdrop, hs]
  · rfl

theorem read_capFrom {before : Nat} (hτ : 0 < before → τ.step 10 = τ) (s : Bytes) :
    τ.read (capFrom newline 2 before s) = τ.read s := by
  induction s generalizing τ before with
  | nil => rfl
  | cons c s ih =>
    rw [capFrom]
    split
    · next hc =>
      subst hc
      split
      · have htwo : (τ.step newline).step 10 = τ.step newline := step_newline_newline τ
        rw [read_cons, read_cons, ih fun _ => htwo]
      · next hbefore =>
        have hfixed : τ.step newline = τ := hτ (by omega)
        rw [ih hτ, read_cons, hfixed]
    · rw [read_cons, read_cons, ih fun h => absurd h (Nat.lt_irrefl 0)]

theorem read_cap (τ : Tally) (s : Bytes) : τ.read (cap newline 2 s) = τ.read s :=
  read_capFrom (fun h => absurd h (Nat.lt_irrefl 0)) s

/-! ### The end of the program -/

theorem isDone_step_blank (hc : c = space ∨ c = newline) (τ : Tally) :
    (τ.step c).phase.isDone = τ.phase.isDone ∧ (τ.step c).comments = τ.comments := by
  obtain ⟨φ, n, b⟩ := τ
  rcases hc with rfl | rfl <;> cases φ <;> exact ⟨rfl, rfl⟩

theorem isDone_read_blank {s : Bytes} (hs : ∀ c ∈ s, c = space ∨ c = newline) (τ : Tally) :
    (τ.read s).phase.isDone = τ.phase.isDone ∧ (τ.read s).comments = τ.comments := by
  induction s generalizing τ with
  | nil => exact ⟨rfl, rfl⟩
  | cons c s ih =>
    obtain ⟨hdone, hcomments⟩ := isDone_step_blank (hs c mem_cons_self) τ
    obtain ⟨hdone', hcomments'⟩ := ih (fun d hd => hs d (mem_cons_of_mem c hd)) (τ.step c)
    exact ⟨hdone'.trans hdone, hcomments'.trans hcomments⟩

theorem exists_trimEnd (s : Bytes) : ∃ x y, s = x ++ y ∧ (∀ c ∈ y, c = space ∨ c = newline) ∧
    trimEnd s = if y = [] then x else x ++ [newline] := by
  have hsplit := takeWhile_append_dropWhile
    (p := fun c => c == space || c == newline) (l := s.reverse)
  refine ⟨(s.reverse.dropWhile fun c => c == space || c == newline).reverse,
    (s.reverse.takeWhile fun c => c == space || c == newline).reverse, ?_, ?_, ?_⟩
  · rw [← reverse_append, hsplit, reverse_reverse]
  · intro c hc
    have hall := all_eq_true.mp all_takeWhile c (mem_reverse.mp hc)
    simpa using hall
  · have hlength := congrArg length hsplit
    rw [length_append, length_reverse] at hlength
    rw [trimEnd]
    simp only [length_reverse, reverse_eq_nil_iff]
    by_cases hnone : (s.reverse.takeWhile fun c => c == space || c == newline) = []
    · rw [hnone, length_nil, Nat.zero_add] at hlength
      rw [hnone, nil_append] at hsplit
      rw [if_pos hlength, if_pos hnone, hsplit, reverse_reverse]
    · have hpos := length_pos_iff.mpr hnone
      rw [if_neg (by omega), if_neg hnone]

theorem read_trimEnd (τ : Tally) (s : Bytes) :
    (τ.read (trimEnd s)).phase.isDone = (τ.read s).phase.isDone ∧
      (τ.read (trimEnd s)).comments = (τ.read s).comments := by
  obtain ⟨x, y, rfl, hy, htrim⟩ := exists_trimEnd s
  obtain ⟨hdone, hcomments⟩ := isDone_read_blank hy (τ.read x)
  rw [htrim, read_append, hdone, hcomments]
  split
  · exact ⟨rfl, rfl⟩
  · rw [read_append]
    exact isDone_read_blank (by simp) (τ.read x)

/-! ### All stages -/

theorem formatted_eq (indent : Bytes) (atStart atEnd : Bool) (s : Bytes) :
    formatted indent atStart atEnd s =
      if atEnd then trimEnd (formatted indent atStart false s) else formatted indent atStart false s := by
  cases atEnd <;> rfl

theorem read_formatted (hindent : ∀ c ∈ indent, isSpace c = true) (atStart : Bool)
    (hreturn : (13 : UInt8) ∉ s) (hτ : τ.phase = .outside) :
    τ.read (formatted indent atStart false s) = τ.read s := by
  have hregular := regularNewlines_of_not_mem (return_not_mem_untab hreturn)
  have hlead : ∀ c ∈ [space, space], isSpace c = true :=
    forall_mem_cons.mpr ⟨rfl, forall_mem_cons.mpr ⟨rfl, nofun⟩⟩
  simp only [formatted, hregular, Bool.false_eq_true, if_false]
  cases atStart with
  | false =>
    simp only [Bool.false_eq_true, if_false]
    rw [read_cap, read_placeEnd hindent, read_placeComments hindent, read_placeFirstComment hlead hτ,
      read_dropTrailing, read_untab]
  | true =>
    simp only [if_true]
    have hnone : ∀ c ∈ ([] : Bytes), isSpace c = true := fun c hc => absurd hc not_mem_nil
    rw [read_cap, read_clearBlank hτ, read_placeEnd hindent, read_placeFirstComment hnone hτ,
      read_placeComments hindent, read_dropTrailing, read_untab]

theorem read_formatted_end (hindent : ∀ c ∈ indent, isSpace c = true) (atStart : Bool)
    (hreturn : (13 : UInt8) ∉ s) (hτ : τ.phase = .outside) :
    (τ.read (formatted indent atStart true s)).phase.isDone = (τ.read s).phase.isDone ∧
      (τ.read (formatted indent atStart true s)).comments = (τ.read s).comments := by
  have htrim := read_trimEnd τ (formatted indent atStart false s)
  rw [read_formatted hindent atStart hreturn hτ] at htrim
  rw [formatted_eq, if_pos rfl]
  exact htrim

/-! ### How a gap starts -/

def isBlank (c : UInt8) : Bool := c == space || c == newline

section FirstLine

variable {x : Bytes} (hx : newline ∉ x)
include hx

theorem placeComments_append (indent s : Bytes) :
    placeComments indent (x ++ s) = x ++ placeComments indent s := by
  induction x with
  | nil => rfl
  | cons c x ih =>
    rw [placeComments] at ih
    rw [cons_append, placeComments, placeCommentsFrom, if_neg (by simp),
      if_neg (by simp [(ne_of_not_mem_cons hx).symm]), ih (not_mem_of_not_mem_cons hx),
      cons_append]

theorem placeEnd_append (indent s : Bytes) : placeEnd indent (x ++ s) = x ++ placeEnd indent s := by
  induction x with
  | nil => rfl
  | cons c x ih =>
    rw [cons_append, placeEnd, if_neg (ne_of_not_mem_cons hx).symm,
      ih (not_mem_of_not_mem_cons hx), cons_append]

theorem cap_append (s : Bytes) : cap newline 2 (x ++ s) = x ++ cap newline 2 s := by
  induction x with
  | nil => rfl
  | cons c x ih =>
    rw [cap] at ih
    rw [cons_append, cap, capFrom, if_neg (ne_of_not_mem_cons hx).symm,
      ih (not_mem_of_not_mem_cons hx), cons_append]

end FirstLine

section Starts

variable {x : Bytes} (hx : ∀ c ∈ x, isBlank c = false)

theorem ne_of_not_isBlank (h : isBlank c = false) : c ≠ space ∧ c ≠ newline := by
  rw [isBlank, Bool.or_eq_false_iff, beq_eq_false_iff_ne, beq_eq_false_iff_ne] at h
  exact h

include hx

theorem dropTrailing_append (s : Bytes) : dropTrailing (x ++ s) = x ++ dropTrailing s := by
  induction x with
  | nil => rfl
  | cons c x ih =>
    obtain ⟨hspace, -⟩ := ne_of_not_isBlank (hx c mem_cons_self)
    rw [cons_append, dropTrailing, if_neg (by simp [hspace]),
      ih fun d hd => hx d (mem_cons_of_mem c hd), cons_append]

theorem trimEnd_append (s : Bytes) : trimEnd (x ++ s) = x ++ trimEnd s := by
  have hreverse : ∀ y : Bytes, (y ++ x.reverse).dropWhile (fun c => c == space || c == newline) =
      y.dropWhile (fun c => c == space || c == newline) ++ x.reverse := by
    intro y
    induction y with
    | nil =>
      cases hr : x.reverse with
      | nil => rfl
      | cons c r =>
        have hc := hx c (mem_reverse.mp (hr ▸ mem_cons_self))
        rw [isBlank] at hc
        simp [hc]
    | cons c y ih =>
      rw [cons_append, dropWhile_cons, dropWhile_cons, ih]
      split <;> rfl
  rw [trimEnd, trimEnd]
  simp only [reverse_append, hreverse, length_append, reverse_reverse,
    Nat.add_left_cancel_iff]
  split
  · rfl
  · rw [append_assoc]

end Starts

theorem head?_placeComments (indent s : Bytes) : (placeComments indent s).head? = s.head? := by
  cases s with
  | nil => rfl
  | cons c s =>
    rw [placeComments, placeCommentsFrom, if_neg (by simp)]
    split <;> rfl

theorem head?_placeEnd (indent s : Bytes) : (placeEnd indent s).head? = s.head? := by
  cases s with
  | nil => rfl
  | cons c s =>
    rw [placeEnd]
    split
    · split <;> rfl
    · rfl

theorem head?_cap (s : Bytes) : (cap newline 2 s).head? = s.head? := by
  cases s with
  | nil => rfl
  | cons c s =>
    rw [cap, capFrom]
    split
    · rw [if_pos (by decide)]
      rfl
    · rfl

theorem startsWith_dropTrailing (h : startsWith isBlank s = true) :
    startsWith isBlank (dropTrailing s) = true := by
  induction s with
  | nil => exact h
  | cons c s ih =>
    rw [dropTrailing]
    split
    · next hc =>
      refine ih ?_
      rw [Bool.and_eq_true, decide_eq_true_eq, decide_eq_true_eq] at hc
      -- a space comes next, or the newline
      cases s with
      | nil => cases hc.2
      | cons d s =>
        rw [startsWith_cons, isBlank]
        cases hd : d == space with
        | true => rfl
        | false =>
          have hdrop : (d :: s).dropWhile (· == space) = d :: s := by
            rw [dropWhile_cons, hd]
            rfl
          rw [hdrop] at hc
          exact beq_iff_eq.mpr (Option.some.inj hc.2)
    · exact h

theorem startsWith_trimEnd (hp : p newline = true) (h : startsWith p s = true) :
    startsWith p (trimEnd s) = true := by
  obtain ⟨x, y, rfl, -, htrim⟩ := exists_trimEnd s
  rw [htrim]
  cases x with
  | nil =>
    have hy : y ≠ [] := by
      rintro rfl
      cases h
    rw [if_neg hy]
    exact hp
  | cons c x =>
    split <;> exact h

def settled (indent : Bytes) (atEnd : Bool) (s : Bytes) : Bytes :=
  let s := cap newline 2 (placeEnd indent (placeComments indent s))
  if atEnd then trimEnd s else s

theorem formatted_eq_settled (indent : Bytes) (atEnd : Bool) (hreturn : (13 : UInt8) ∉ s) :
    formatted indent false atEnd s =
      settled indent atEnd (placeFirstComment [space, space] (dropTrailing (untab s))) := by
  have hregular := regularNewlines_of_not_mem (return_not_mem_untab hreturn)
  simp only [formatted, settled, hregular, Bool.false_eq_true, if_false]

theorem startsWith_settled (hp : p newline = true) (h : startsWith p s = true) :
    startsWith p (settled indent atEnd s) = true := by
  have hhead : startsWith p (cap newline 2 (placeEnd indent (placeComments indent s))) = true := by
    rw [startsWith, head?_cap, head?_placeEnd, head?_placeComments]
    exact h
  cases atEnd with
  | false => exact hhead
  | true => exact startsWith_trimEnd hp hhead

theorem settled_append (hx : ∀ c ∈ x, isBlank c = false) (indent : Bytes) (atEnd : Bool) (s : Bytes) :
    settled indent atEnd (x ++ s) = x ++ settled indent atEnd s := by
  have hline : newline ∉ x := fun hmem => (ne_of_not_isBlank (hx _ hmem)).2 rfl
  rw [settled, settled, placeComments_append hline, placeEnd_append hline, cap_append hline,
    trimEnd_append hx]
  cases atEnd <;> rfl

theorem startsWith_untab (h : startsWith (fun c => isSpace c || c == 10) s = true) :
    startsWith isBlank (untab s) = true := by
  cases s with
  | nil => cases h
  | cons c s =>
    have hcons : untab (c :: s) = (if c = 9 then space else c) :: untab s := rfl
    rw [hcons, startsWith_cons]
    split
    · rfl
    · next hc =>
      rw [startsWith_cons, isSpace, beq_eq_false_iff_ne.mpr hc, Bool.or_false] at h
      exact h

theorem startsWith_formatted (hreturn : (13 : UInt8) ∉ s)
    (h : startsWith (fun c => isSpace c || c == 10) s = true ∨ [45, 45] <+: s) :
    startsWith isBlank (formatted indent false atEnd s) = true := by
  rw [formatted_eq_settled indent atEnd hreturn]
  refine startsWith_settled rfl ?_
  rcases h with h | ⟨s, rfl⟩
  · have hdrop := startsWith_dropTrailing (startsWith_untab h)
    rw [placeFirstComment]
    split
    · rfl
    · exact hdrop
  · have hdashes : ∀ c ∈ ([45, 45] : Bytes), isBlank c = false :=
      forall_mem_cons.mpr ⟨rfl, forall_mem_cons.mpr ⟨rfl, nofun⟩⟩
    have huntab : untab ([45, 45] ++ s) = [45, 45] ++ untab s := rfl
    rw [huntab, dropTrailing_append hdashes]
    rfl

theorem formatted_slash (hx : ∀ c ∈ 47 :: x, isSpace c = false ∧ c ≠ 10) (indent : Bytes)
    (atEnd : Bool) (hreturn : (13 : UInt8) ∉ 47 :: x ++ s) :
    ∃ s', formatted indent false atEnd (47 :: x ++ s) = 47 :: x ++ s' ∧ (s = [] → s' = []) ∧
      (startsWith (fun c => isSpace c || c == 10) s = true → startsWith isBlank s' = true) := by
  have hblank : ∀ c ∈ 47 :: x, isBlank c = false := by
    intro c hc
    obtain ⟨hspace, hnewline⟩ := hx c hc
    rw [isSpace, Bool.or_eq_false_iff] at hspace
    rw [isBlank, Bool.or_eq_false_iff]
    exact ⟨hspace.1, beq_eq_false_iff_ne.mpr hnewline⟩
  have huntab : untab (47 :: x ++ s) = 47 :: x ++ untab s := by
    have hsame : ∀ c ∈ 47 :: x, (if c = 9 then space else c) = c := by
      intro c hc
      refine if_neg ?_
      rintro rfl
      exact absurd (hx 9 hc).1 (by decide)
    rw [untab, map_append, map_congr_left hsame, map_id']
    rfl
  have hfirst : placeFirstComment [space, space] (47 :: x ++ dropTrailing (untab s)) =
      47 :: x ++ dropTrailing (untab s) := rfl
  refine ⟨settled indent atEnd (dropTrailing (untab s)), ?_, ?_, fun hs => ?_⟩
  · rw [formatted_eq_settled indent atEnd hreturn, huntab, dropTrailing_append hblank, hfirst,
      settled_append hblank]
  · rintro rfl
    cases atEnd <;> rfl
  · exact startsWith_settled rfl (startsWith_dropTrailing (startsWith_untab hs))

theorem formatted_newline (indent : Bytes) (atEnd : Bool) (hreturn : (13 : UInt8) ∉ (10 : UInt8) :: s) :
    ∃ s', formatted indent false atEnd (10 :: s) = 10 :: s' := by
  have hstart : startsWith (· == 10) (formatted indent false atEnd (10 :: s)) = true := by
    rw [formatted_eq_settled indent atEnd hreturn]
    exact startsWith_settled rfl rfl
  cases hs : formatted indent false atEnd (10 :: s) with
  | nil =>
    rw [hs] at hstart
    cases hstart
  | cons c s' =>
    rw [hs, startsWith_cons, beq_iff_eq] at hstart
    exact ⟨s', by rw [hstart]⟩

end Cartridge.Lua.Gap
