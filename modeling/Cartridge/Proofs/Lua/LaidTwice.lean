import Cartridge.Lua.Program
import Cartridge.Proofs.Lua.GapLayout

/-!
# Laying out gaps again

Is a program that has been formatted left alone when it is formatted again?  Each stage of laying out a gap
leaves a text that this stage does not change, and the stages behind it keep it so: no space comes before a
newline, each comment at the start of a line stands behind the indent, and so does the word behind the gap.

There is one exception.  If a gap ends in two newlines, the empty line between them is indented as well.  So
there is a space before a newline again, and formatting once more takes it away; but then the text ends in
spaces, and stays as it is.  At the end of the program all this is cut off.
-/

namespace Cartridge.Lua

namespace Gap

open List Bytes

variable {i lead s x : Bytes} {c : UInt8} {f : Bytes → Bytes} {P : Bytes → Prop}

/-! ### The first line -/

structure KeepsLine (f : Bytes → Bytes) : Prop where
  append : ∀ {x}, newline ∉ x → ∀ s, f (x ++ s) = x ++ f s
  head : ∀ s, (f s).head? = s.head?

theorem keepsLine_placeComments (i : Bytes) : KeepsLine (placeComments i) :=
  ⟨fun hx s => placeComments_append hx i s, head?_placeComments i⟩

theorem keepsLine_cap : KeepsLine (cap newline 2) :=
  ⟨cap_append, head?_cap⟩

theorem dropWhile_append_spaces (hx : ∀ c ∈ x, c = space) (s : Bytes) :
    (x ++ s).dropWhile (· == space) = s.dropWhile (· == space) :=
  dropWhile_append_of_pos fun c hc => beq_iff_eq.mpr (hx c hc)

theorem newline_not_mem_of_spaces (hx : ∀ c ∈ x, c = space) : newline ∉ x :=
  fun hmem => absurd (hx _ hmem) (by decide)

theorem startsComment_iff :
    startsComment s = true ↔ ∃ r, s.dropWhile (· == space) = 45 :: 45 :: r := by
  rw [startsComment]
  split
  · next r hr => simp [hr]
  · next hne => simpa using hne

namespace KeepsLine

variable (hf : KeepsLine f)
include hf

theorem eq_nil_iff : f s = [] ↔ s = [] := by
  rw [← head?_eq_none_iff, hf.head, head?_eq_none_iff]

theorem dropWhile_eq (s : Bytes) :
    (f s).dropWhile (· == space) = f (s.dropWhile (· == space)) := by
  obtain ⟨n, hn⟩ := exists_spaces s
  have hspaces : ∀ c ∈ replicate n space, c = space := fun c hc => eq_of_mem_replicate hc
  have hrest := head?_dropWhile_not (· == space) s
  conv => lhs; rw [hn, hf.append (newline_not_mem_of_spaces hspaces), dropWhile_append_spaces hspaces]
  rw [← hf.head] at hrest
  cases hs : f (s.dropWhile (· == space)) with
  | nil => rfl
  | cons c r =>
    rw [hs, head?_cons] at hrest
    rw [dropWhile_cons_of_neg (by simpa using hrest)]

theorem startsComment_eq (s : Bytes) : startsComment (f s) = startsComment s := by
  rw [Bool.eq_iff_iff, startsComment_iff, startsComment_iff, hf.dropWhile_eq]
  generalize s.dropWhile (· == space) = z
  constructor
  · rintro ⟨r, hr⟩
    have hfirst : z.head? = some 45 := by rw [← hf.head, hr]; rfl
    obtain ⟨y, rfl⟩ := head?_eq_some_iff.mp hfirst
    have hone : f ([45] ++ y) = [45] ++ f y := hf.append (by decide) y
    have hsecond : y.head? = some 45 := by
      rw [← hf.head, show f y = 45 :: r from (cons.inj (hone.symm.trans hr)).2]
      rfl
    obtain ⟨r', rfl⟩ := head?_eq_some_iff.mp hsecond
    exact ⟨r', rfl⟩
  · rintro ⟨r, rfl⟩
    exact ⟨f r, hf.append (x := [45, 45]) (by decide) r⟩

theorem placeFirstComment_eq (hlead : ∀ c ∈ lead, c = space) (s : Bytes) :
    placeFirstComment lead (f s) = f (placeFirstComment lead s) := by
  rw [placeFirstComment, placeFirstComment, hf.startsComment_eq, hf.dropWhile_eq]
  split
  · rw [hf.append (newline_not_mem_of_spaces hlead)]
  · rfl

end KeepsLine

theorem placeCommentsFrom_true (i s : Bytes) :
    placeCommentsFrom i true s = placeComments i (s.dropWhile (· == space)) := by
  induction s with
  | nil => rfl
  | cons c s ih =>
    by_cases hc : c = space
    · subst hc
      exact ih
    · rw [dropWhile_cons_of_neg (by simpa using hc), placeComments, placeCommentsFrom,
        placeCommentsFrom]
      simp [hc]

theorem placeComments_cons (i : Bytes) (c : UInt8) (s : Bytes) :
    placeComments i (c :: s) =
      c :: if c = newline then placeFirstComment i (placeComments i s) else placeComments i s := by
  have hkeeps := keepsLine_placeComments i
  rw [placeComments, placeCommentsFrom, if_neg (by simp), placeCommentsFrom_true, placeFirstComment,
    hkeeps.startsComment_eq, hkeeps.dropWhile_eq]
  by_cases hc : c = newline <;> by_cases hs : startsComment s = true <;> simp [hc, hs, placeComments]

theorem placeFirstComment_of_not_mem (h : (45 : UInt8) ∉ placeFirstComment lead s) :
    placeFirstComment lead s = s := by
  by_cases hs : startsComment s = true
  · obtain ⟨r, hr⟩ := startsComment_iff.mp hs
    rw [placeFirstComment, if_pos hs, hr] at h
    simp at h
  · exact if_neg hs

/-! ### Bytes and what follows them -/

def Along (R : UInt8 → Bytes → Prop) : Bytes → Prop
  | [] => True
  | c :: s => R c s ∧ Along R s

theorem Along.of_suffix {R : UInt8 → Bytes → Prop} (h : Along R s) (hx : x <:+ s) : Along R x := by
  induction s with
  | nil =>
    rw [suffix_nil.mp hx]
    trivial
  | cons c s ih =>
    rcases suffix_cons_iff.mp hx with rfl | hx
    · exact h
    · exact ih h.2 hx

theorem Along.mono {R R' : UInt8 → Bytes → Prop} (h : Along R s)
    (hR : ∀ {c x}, c :: x <:+ s → R c x → R' c x) : Along R' s := by
  induction s with
  | nil => trivial
  | cons c s ih =>
    exact ⟨hR suffix_rfl h.1, ih h.2 fun hx => hR (hx.trans (suffix_cons c s))⟩

/-- Neither tabs nor returns are left, no space stands before a newline, and what follows a newline has the
property. -/
abbrev Tidy (P : Bytes → Prop) : Bytes → Prop := Along fun c s =>
  (c ≠ 9 ∧ c ≠ 13) ∧ (c = space → s.head? ≠ some newline) ∧ (c = newline → P s)

theorem tidy_newline (h : P s) (hs : Tidy P s) : Tidy P (newline :: s) :=
  ⟨⟨by decide, fun h => absurd h (by decide), fun _ => h⟩, hs⟩

theorem Tidy.spaces (h : Tidy P s) (hs : s.head? ≠ some newline) (hx : ∀ c ∈ x, c = space) :
    Tidy P (x ++ s) ∧ (x ++ s).head? ≠ some newline := by
  induction x with
  | nil => exact ⟨h, hs⟩
  | cons c x ih =>
    obtain ⟨hc, hx⟩ := forall_mem_cons.mp hx
    obtain ⟨htidy, hnext⟩ := ih hx
    subst hc
    exact ⟨⟨⟨by decide, fun _ => hnext, fun h => absurd h (by decide)⟩, htidy⟩,
      fun h => absurd (Option.some.inj h) (by decide)⟩

theorem Tidy.placeFirstComment (h : Tidy P s) (hlead : ∀ c ∈ lead, c = space) :
    Tidy P (placeFirstComment lead s) := by
  rw [Gap.placeFirstComment]
  split
  · next hs =>
    obtain ⟨r, hr⟩ := startsComment_iff.mp hs
    refine (Tidy.spaces (h.of_suffix (dropWhile_suffix _)) ?_ hlead).1
    rw [hr]
    exact fun h => absurd (Option.some.inj h) (by decide)
  · exact h

/-! ### Spaces before newlines -/

theorem Tidy.head?_dropWhile (h : Tidy P (space :: s)) :
    (s.dropWhile (· == space)).head? ≠ some newline := by
  induction s with
  | nil => exact h.1.2.1 rfl
  | cons c s ih =>
    by_cases hc : c = space
    · subst hc
      exact ih h.2
    · rw [dropWhile_cons_of_neg (by simpa using hc)]
      exact h.1.2.1 rfl

theorem Tidy.dropTrailing_eq (h : Tidy P s) : dropTrailing s = s := by
  induction s with
  | nil => rfl
  | cons c s ih =>
    rw [dropTrailing, if_neg, ih h.2]
    rw [Bool.and_eq_true, decide_eq_true_eq, decide_eq_true_eq]
    rintro ⟨rfl, hnext⟩
    exact h.head?_dropWhile hnext

def Open (i s : Bytes) : Prop := i = [] ∨ s ≠ [newline]

theorem placeComments_eq_self (h : Tidy P s) (hP : ∀ {s}, P s → placeFirstComment i s = s) :
    placeComments i s = s := by
  induction s with
  | nil => rfl
  | cons c s ih =>
    rw [placeComments_cons, ih h.2]
    split
    · next hc => rw [hP (h.1.2.2 hc)]
    · rfl

theorem Open.placeComments (h : Open i s) : Open i (placeFirstComment i (placeComments i s)) := by
  refine h.imp_right fun hs heq => hs ?_
  rw [placeFirstComment_of_not_mem (by rw [heq]; decide)] at heq
  have hkeeps := keepsLine_placeComments i
  obtain ⟨r, rfl⟩ := head?_eq_some_iff.mp ((hkeeps.head s).symm.trans (congrArg head? heq))
  rw [placeComments_cons, if_pos rfl] at heq
  have hrest := (cons.inj heq).2
  rw [placeFirstComment_of_not_mem (by rw [hrest]; exact not_mem_nil), hkeeps.eq_nil_iff] at hrest
  rw [hrest]

section Indent

variable (hi : ∀ c ∈ i, c = space)
include hi

def Indented (i s : Bytes) : Prop :=
  placeFirstComment i s = s ∧ (s.dropWhile (· == space) = [] → s = i)

omit hi in
theorem placeEnd_cons (hs : Tidy P s) (hopen : c = newline → Open i s) :
    placeEnd i (c :: s) =
      if c = newline ∧ s.dropWhile (· == space) = [] then c :: i else c :: placeEnd i s := by
  rw [placeEnd]
  by_cases hc : c = newline
  · subst hc
    rw [if_pos rfl]
    split
    · next hdrop => rw [if_pos ⟨rfl, hdrop⟩]
    · next hdrop =>
      rw [if_neg fun h => cons_ne_nil _ _ (hdrop.symm.trans h.2)]
      obtain rfl : s = [newline] := by
        cases s with
        | nil => cases hdrop
        | cons d s =>
          by_cases hd : d = space
          · subst hd
            exact absurd (congrArg head? hdrop) hs.head?_dropWhile
          · rwa [dropWhile_cons_of_neg (by simpa using hd)] at hdrop
      obtain rfl := (hopen rfl).resolve_right fun h => h rfl
      rfl
    · next hne _ => rw [if_neg fun h => hne h.2]
  · rw [if_neg hc, if_neg fun h => hc h.1]

omit hi in
theorem placeEnd_eq_self (h : Tidy (Indented i) s) : placeEnd i s = s := by
  induction s with
  | nil => rfl
  | cons c s ih =>
    have hopen : Open i s := by
      by_cases hs : s = [newline]
      · subst hs
        exact .inl ((h.2.1.2.2 rfl).2 rfl).symm
      · exact .inr hs
    rw [placeEnd_cons h.2 fun _ => hopen, ih h.2]
    split
    · next hc => rw [← (h.1.2.2 hc.1).2 hc.2]
    · rfl

theorem Indented.cap (h : Indented i s) : Indented i (cap newline 2 s) := by
  refine ⟨by rw [keepsLine_cap.placeFirstComment_eq hi, h.1], fun hdrop => ?_⟩
  rw [keepsLine_cap.dropWhile_eq, keepsLine_cap.eq_nil_iff] at hdrop
  rw [h.2 hdrop, ← append_nil i, cap_append (newline_not_mem_of_spaces hi)]
  rfl

end Indent

section Capped

variable (hcap : ∀ {s}, P s → P (cap newline 2 s)) (hline : ∀ s, P (newline :: s))
include hcap hline

theorem Tidy.property_capFrom (h : P s) (hs : Tidy P s) (k : Nat) : P (capFrom newline 2 k s) := by
  induction s with
  | nil => exact h
  | cons c s ih =>
    rw [Gap.capFrom]
    split
    · next hc =>
      split
      · exact hc ▸ hline _
      · exact ih (hs.1.2.2 hc) hs.2
    · next hc =>
      have hc' := hcap h
      rwa [cap, Gap.capFrom, if_neg hc] at hc'

theorem Tidy.capFrom (h : Tidy P s) (k : Nat) : Tidy P (capFrom newline 2 k s) := by
  induction s generalizing k with
  | nil => trivial
  | cons c s ih =>
    rw [Gap.capFrom]
    split
    · next hc =>
      split
      · subst hc
        exact tidy_newline (Tidy.property_capFrom (P := P) hcap hline (h.1.2.2 rfl) h.2 _) (ih h.2 _)
      · exact ih h.2 k
    · next hc =>
      exact ⟨⟨h.1.1, fun hspace => head?_cap s ▸ h.1.2.1 hspace, fun h => absurd h hc⟩, ih h.2 0⟩

end Capped

def Filled (s : Bytes) : Prop := s.dropWhile (· == space) ≠ [] ∧ s.dropWhile (· == space) ≠ [10]

theorem Filled.placeEnd_cons (h : Filled s) (i : Bytes) (c : UInt8) :
    placeEnd i (c :: s) = c :: placeEnd i s := by
  rw [placeEnd]
  split
  · split
    · next hs => exact absurd hs h.1
    · next hs => exact absurd hs h.2
    · rfl
  · rfl

theorem regular_eq (h : ∀ c ∈ s, c ≠ 9 ∧ c ≠ 13) : regularNewlines (untab s) = s := by
  have huntab : untab s = s := (map_congr_left fun c hc => if_neg (h c hc).1).trans (map_id' s)
  rw [huntab, regularNewlines_of_not_mem fun hmem => (h 13 hmem).2 rfl]

theorem Tidy.forall_mem (h : Tidy P s) : ∀ c ∈ s, c ≠ 9 ∧ c ≠ 13 := by
  intro c hc
  obtain ⟨x, y, rfl⟩ := append_of_mem hc
  exact (h.of_suffix (suffix_append x (c :: y))).1.1

/-! ### All stages -/

def firstIndent (atStart : Bool) : Bytes := if atStart then [] else [space, space]

theorem firstIndent_spaces (atStart : Bool) : ∀ c ∈ firstIndent atStart, c = space := by
  cases atStart <;> simp [firstIndent]

def placed (i : Bytes) (atStart : Bool) (s : Bytes) : Bytes :=
  placeFirstComment (firstIndent atStart) (placeComments i (dropTrailing s))

def arranged (i : Bytes) (atStart : Bool) (s : Bytes) : Bytes :=
  cap newline 2 (if atStart then clearBlank (placeEnd i s) else placeEnd i s)

theorem formatted_eq_arranged (i : Bytes) (atStart : Bool) (s : Bytes) :
    formatted i atStart false s = arranged i atStart (placed i atStart (regularNewlines (untab s))) := by
  cases atStart with
  | true => rfl
  | false =>
    have hcomm := (keepsLine_placeComments i).placeFirstComment_eq (firstIndent_spaces false)
    simp only [placed, hcomm]
    rfl

variable {atStart : Bool}

structure Placed (i : Bytes) (atStart : Bool) (P : Bytes → Prop) (s : Bytes) : Prop where
  tidy : Tidy (fun s => placeFirstComment i s = s ∧ P s) s
  first : placeFirstComment (firstIndent atStart) s = s

theorem Placed.placed_eq (h : Placed i atStart P s) : placed i atStart (regularNewlines (untab s)) = s := by
  rw [placed, regular_eq (Tidy.forall_mem h.tidy), Tidy.dropTrailing_eq h.tidy,
    placeComments_eq_self h.tidy And.left, h.first]

structure Settled (i : Bytes) (atStart : Bool) (s : Bytes) : Prop
    extends Placed i atStart (fun s => s.dropWhile (· == space) = [] → s = i) s where
  clear : atStart = true → clearBlank s = s
  capped : cap newline 2 s = s

theorem Settled.formatted_eq (h : Settled i atStart s) : formatted i atStart false s = s := by
  rw [formatted_eq_arranged, h.placed_eq, arranged, placeEnd_eq_self h.tidy]
  cases atStart with
  | false => exact h.capped
  | true => rw [if_pos rfl, h.clear rfl, h.capped]

inductive Solid : Bytes → Prop
  | last {c : UInt8} (h : isBlank c = false) : Solid [c]
  | cons (c : UInt8) {s : Bytes} (h : Solid s) : Solid (c :: s)

theorem Solid.exists_append (h : Solid s) : ∃ x c, s = x ++ [c] ∧ isBlank c = false := by
  induction h with
  | @last c hc => exact ⟨[], c, rfl, hc⟩
  | cons c _ ih =>
    obtain ⟨x, d, rfl, hd⟩ := ih
    exact ⟨c :: x, d, rfl, hd⟩

theorem filled_of_mem (hc : isBlank c = false) (h : c ∈ s) : Filled s := by
  obtain ⟨n, hn⟩ := exists_spaces s
  rw [hn] at h
  have hmem := (mem_append.mp h).resolve_left fun hmem =>
    (ne_of_not_isBlank hc).1 (eq_of_mem_replicate hmem)
  refine ⟨ne_nil_of_mem hmem, fun hs => ?_⟩
  rw [hs, mem_singleton] at hmem
  exact (ne_of_not_isBlank hc).2 hmem

theorem Solid.filled_append (h : Solid s) (b : Bytes) : Filled (s ++ b) := by
  obtain ⟨x, c, rfl, hc⟩ := h.exists_append
  exact filled_of_mem hc (by simp)

theorem Solid.placeEnd_append (h : Solid s) (i b : Bytes) : placeEnd i (s ++ b) = s ++ placeEnd i b := by
  induction h with
  | @last c hc => simp [placeEnd, (ne_of_not_isBlank hc).2]
  | cons c h ih => rw [cons_append, (h.filled_append b).placeEnd_cons, ih, cons_append]

theorem Solid.capFrom (h : Solid s) (k : Nat) (b : Bytes) :
    Solid (capFrom newline 2 k s) ∧
      capFrom newline 2 k (s ++ b) = capFrom newline 2 k s ++ cap newline 2 b := by
  induction h generalizing k with
  | @last c hc =>
    simp only [singleton_append, Gap.capFrom, if_neg (ne_of_not_isBlank hc).2]
    exact ⟨.last hc, rfl⟩
  | @cons c s _ ih =>
    rw [cons_append, Gap.capFrom, Gap.capFrom]
    split
    · split
      · exact ⟨(ih _).1.cons c, by rw [(ih _).2]; rfl⟩
      · exact ih k
    · exact ⟨(ih 0).1.cons c, by rw [(ih 0).2]; rfl⟩

theorem placeFirstComment_of_append (h : placeFirstComment lead (x ++ s) = x ++ s) :
    placeFirstComment lead x = x := by
  by_cases hx : startsComment x = true
  · obtain ⟨r, hr⟩ := startsComment_iff.mp hx
    have hdrop : (x ++ s).dropWhile (· == space) = 45 :: 45 :: (r ++ s) := by
      rw [dropWhile_append, hr]
      rfl
    rw [placeFirstComment, if_pos (startsComment_iff.mpr ⟨_, hdrop⟩), hdrop] at h
    rw [placeFirstComment, if_pos hx, hr]
    exact append_cancel_right ((append_assoc ..).trans h)
  · exact if_neg hx

theorem placeFirstComment_concat (h : placeFirstComment lead s = s) :
    placeFirstComment lead (s ++ [newline]) = s ++ [newline] := by
  by_cases hs : startsComment s = true
  · obtain ⟨r, hr⟩ := startsComment_iff.mp hs
    have hdrop : (s ++ [newline]).dropWhile (· == space) = s.dropWhile (· == space) ++ [newline] := by
      rw [dropWhile_append, hr]
      rfl
    rw [placeFirstComment, if_pos hs] at h
    rw [placeFirstComment, if_pos (startsComment_iff.mpr ⟨r ++ [newline], by rw [hdrop, hr]; rfl⟩), hdrop,
      ← append_assoc, h]
  · refine if_neg fun hline => hs ?_
    obtain ⟨r, hr⟩ := startsComment_iff.mp hline
    rw [dropWhile_append] at hr
    refine startsComment_iff.mpr ?_
    generalize s.dropWhile (· == space) = z at hr ⊢
    rcases z with - | ⟨c, - | ⟨d, z⟩⟩
    · cases hr
    · cases hr
    · cases hr
      exact ⟨z, rfl⟩

abbrev InPlace (i : Bytes) (atStart : Bool) : Bytes → Prop := Placed i atStart fun _ => True

theorem Placed.of_append (h : Placed i atStart P (x ++ s)) : InPlace i atStart x := by
  refine ⟨?_, placeFirstComment_of_append h.first⟩
  have htidy := h.tidy
  clear h
  induction x with
  | nil => trivial
  | cons c x ih =>
    refine ⟨⟨htidy.1.1, fun hc hx => htidy.1.2.1 hc ?_, fun hc => ⟨?_, trivial⟩⟩, ih htidy.2⟩
    · obtain ⟨y, rfl⟩ := head?_eq_some_iff.mp hx
      rfl
    · exact placeFirstComment_of_append (htidy.1.2.2 hc).1

theorem InPlace.concat (h : InPlace i atStart s) (hs : Solid s) : InPlace i atStart (s ++ [newline]) := by
  refine ⟨?_, placeFirstComment_concat h.first⟩
  have htidy := h.tidy
  clear h
  induction hs with
  | @last c hc =>
    obtain ⟨hspace, hnewline⟩ := ne_of_not_isBlank hc
    exact ⟨⟨htidy.1.1, fun h => absurd h hspace, fun h => absurd h hnewline⟩, tidy_newline ⟨rfl, trivial⟩ trivial⟩
  | @cons c s hs ih =>
    refine ⟨⟨htidy.1.1, fun hc hhead => htidy.1.2.1 hc ?_, fun hc => ⟨?_, trivial⟩⟩, ih htidy.2⟩
    · cases hs <;> exact hhead
    · exact placeFirstComment_concat (htidy.1.2.2 hc).1

section End

variable (hi : ∀ c ∈ i, c = space)
include hi

theorem InPlace.cap (h : InPlace i atStart s) : InPlace i atStart (cap newline 2 s) := by
  refine ⟨Tidy.capFrom (P := fun s => placeFirstComment i s = s ∧ True) ?_ (fun _ => ⟨rfl, trivial⟩) h.tidy 0, ?_⟩
  · rintro s ⟨hs, -⟩
    exact ⟨by rw [keepsLine_cap.placeFirstComment_eq hi, hs], trivial⟩
  · rw [keepsLine_cap.placeFirstComment_eq (firstIndent_spaces atStart), h.first]

end End

end Gap

end Cartridge.Lua
