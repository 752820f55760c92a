import Cartridge.Proofs.Lua.Minifying

/-!
# Jumps in minified programs

A `goto` names the label that it jumps to.  When a program is minified, the name behind a `goto` becomes a
short one like every other name, but a label is one word with its colons and stays as it is.  So a jump
finds its label again only if its name is kept, or is given to itself; and a jump finds a label that it
did not name if it is given the name of that label.
-/

namespace Cartridge.Lua

/-! ### Jumps and labels -/

def firstName : List (TokenKind × Bytes) → Option Bytes
  | (.name, x) :: _ => some x
  | _ => none

def jumpTargets : List (TokenKind × Bytes) → List (Option Bytes)
  | [] => []
  | w :: ws =>
      if w = (.keyword, Bytes.ofText "goto") then firstName ws :: jumpTargets ws else jumpTargets ws

def labelName (x : Bytes) : Bytes := (x.drop 2).dropLast.dropLast

def labelNames : List (TokenKind × Bytes) → List Bytes
  | [] => []
  | (k, x) :: ws => if k = .label then labelName x :: labelNames ws else labelNames ws

def Jumps (ws : List (TokenKind × Bytes)) (i j : Nat) : Prop :=
  ∃ name, (jumpTargets ws)[i]? = some (some name) ∧ (labelNames ws)[j]? = some name

/-! ### One table for all words -/

namespace ShortName.Table

def after (t : Table) : List (TokenKind × Bytes) → Table
  | [] => t
  | (k, x) :: ws => if k = .name then after (t.lookup x).2 ws else after t ws

def renamed (t : Table) (w : TokenKind × Bytes) : TokenKind × Bytes :=
  (w.1, if w.1 = .name then (t.lookup w.2).1 else w.2)

theorem given_lookup (t : Table) (x : Bytes) : t.given <+: (t.lookup x).2.given := by
  rw [lookup]
  split
  · exact List.prefix_refl _
  · split
    · exact List.prefix_refl _
    · exact List.prefix_append _ _

theorem given_after (t : Table) (ws : List (TokenKind × Bytes)) : t.given <+: (t.after ws).given := by
  induction ws generalizing t with
  | nil => exact List.prefix_refl _
  | cons w ws ih =>
    obtain ⟨k, x⟩ := w
    rw [after]
    split
    · exact (t.given_lookup x).trans (ih _)
    · exact ih t

theorem lookup_eq_of_given {t t' : Table} {x : Bytes} (h : (t.lookup x).2.given <+: t'.given) :
    (t'.lookup x).1 = (t.lookup x).1 := by
  obtain ⟨more, hmore⟩ := h
  rw [lookup] at hmore
  rw [lookup, lookup]
  by_cases hkept : preserved.contains x = true
  · rw [if_pos hkept, if_pos hkept]
  · rw [if_neg hkept] at hmore
    rw [if_neg hkept, if_neg hkept, ← hmore, List.find?_append]
    cases hfind : t.given.find? (fun p => p.1 == x) with
    | some p => simp [hfind]
    | none => simp [hfind]

theorem shorten_eq_map {t t' : Table} {ws : List (TokenKind × Bytes)}
    (h : (t.after ws).given <+: t'.given) : t.shorten ws = ws.map t'.renamed := by
  induction ws generalizing t with
  | nil => rfl
  | cons w ws ih =>
    obtain ⟨k, x⟩ := w
    rw [after] at h
    rw [shorten, List.map_cons, renamed]
    split
    · next hk =>
      rw [if_pos hk] at h
      rw [lookup_eq_of_given ((given_after _ ws).trans h), ih h]
    · next hk =>
      rw [if_neg hk] at h
      rw [ih h]

end ShortName.Table

open ShortName (Table)

/-! ### Jumps of renamed words -/

theorem firstName_map_renamed (t : Table) (ws : List (TokenKind × Bytes)) :
    firstName (ws.map t.renamed) = (firstName ws).map fun x => (t.lookup x).1 := by
  cases ws with
  | nil => rfl
  | cons w ws =>
    obtain ⟨k, x⟩ := w
    cases k <;> rfl

theorem renamed_eq_keyword_iff (t : Table) (w : TokenKind × Bytes) (x : Bytes) :
    t.renamed w = (.keyword, x) ↔ w = (.keyword, x) := by
  obtain ⟨k, y⟩ := w
  cases k <;> simp [Table.renamed]

theorem jumpTargets_map_renamed (t : Table) (ws : List (TokenKind × Bytes)) :
    jumpTargets (ws.map t.renamed) =
      (jumpTargets ws).map (Option.map fun x => (t.lookup x).1) := by
  induction ws with
  | nil => rfl
  | cons w ws ih =>
    rw [List.map_cons, jumpTargets, jumpTargets, ih, firstName_map_renamed]
    by_cases hw : w = (.keyword, Bytes.ofText "goto")
    · rw [if_pos hw, if_pos ((renamed_eq_keyword_iff t w _).mpr hw), List.map_cons]
    · rw [if_neg hw, if_neg (mt (renamed_eq_keyword_iff t w _).mp hw)]

theorem labelNames_map_renamed (t : Table) (ws : List (TokenKind × Bytes)) :
    labelNames (ws.map t.renamed) = labelNames ws := by
  induction ws with
  | nil => rfl
  | cons w ws ih =>
    obtain ⟨k, x⟩ := w
    rw [List.map_cons, Table.renamed, labelNames, labelNames, ih]
    by_cases hk : k = .label
    · subst hk
      rfl
    · rw [if_neg hk, if_neg hk]

theorem jumps_map_renamed_iff (t : Table) (ws : List (TokenKind × Bytes)) :
    (∀ i j, Jumps (ws.map t.renamed) i j ↔ Jumps ws i j) ↔
      ∀ x y, some x ∈ jumpTargets ws → y ∈ labelNames ws → ((t.lookup x).1 = y ↔ x = y) := by
  simp only [Jumps, jumpTargets_map_renamed, labelNames_map_renamed, List.getElem?_map]
  constructor
  · intro h x y hx hy
    obtain ⟨i, hi⟩ := List.mem_iff_getElem?.mp hx
    obtain ⟨j, hj⟩ := List.mem_iff_getElem?.mp hy
    simpa [hi, hj, eq_comm] using h i j
  · intro h i j
    cases hj : (labelNames ws)[j]? with
    | none => simp
    | some y =>
      cases hi : (jumpTargets ws)[i]? with
      | none => simp
      | some target =>
        cases target with
        | none => simp
        | some x => simpa [eq_comm] using h x y (List.mem_of_getElem? hi) (List.mem_of_getElem? hj)

/-! ### Jumps of minified programs -/

theorem exists_feed_of_keptApart {pieces pieces' : List Bytes} (hcut : LineCut pieces)
    (hcut' : LineCut pieces') {sc : Scanner} (hsc : Scanner.feed {} pieces = (sc, none))
    (htext : pieces'.flatten = (Stream.minify sc.tokens.toList).lines.flatten)
    (hapart : keptApart (Stream.pressed sc.tokens.toList) = true) :
    ∃ sc', Scanner.feed {} pieces' = (sc', none) ∧
      words sc'.tokens.toList = Table.shorten {} (words sc.tokens.toList) := by
  obtain ⟨ls, hls, rfl⟩ := (Scanner.feed_eq_iff hcut rfl).mp hsc
  generalize hts : (Scanner.passedAll {} ls).tokens.toList = ts at htext hapart ⊢
  have hunplaced : ts.map Token.unplaced = ls.map Prod.snd := hts ▸ Scanner.unplaced_fresh hls
  have hpressed : Pressed false (Stream.pressed ts) := by
    rw [Stream.pressed, ← Stream.pressedFrom_map_unplaced, hunplaced]
    exact Stream.pressed_pressedFrom (fun t ht => hls.exists_lexeme ht) {} (fun _ => rfl)
      Table.sound_empty
  have hlexed := hpressed.lexed hapart
  rw [Stream.written_pressed, ← htext] at hlexed
  refine ⟨_, (Scanner.feed_eq_iff hcut' rfl).mpr ⟨_, hlexed, rfl⟩, ?_⟩
  rw [words_fresh hlexed, List.map_map]
  exact (congrArg words (List.map_id _)).trans (Stream.words_pressedFrom ts {})

/-- **When the jumps of a minified program are those of the program.**

Let a program be read from its source, and its minified text, whose words are kept apart, in any pieces.
The text is read without failure; behind its `goto`s are the short names of the names that were there, and
its labels are those of the program.  So all `goto`s name the labels that they named before, and no
others, if and only if the short name of a name behind a `goto` is the name of a label exactly if the name
itself is. -/
theorem jumps_minify_iff {pieces pieces' : List Bytes} (hcut : LineCut pieces) (hcut' : LineCut pieces')
    {sc : Scanner} (hsc : Scanner.feed {} pieces = (sc, none))
    (htext : pieces'.flatten = (Stream.minify sc.tokens.toList).lines.flatten)
    (hapart : keptApart (Stream.pressed sc.tokens.toList) = true) :
    ∃ sc', Scanner.feed {} pieces' = (sc', none) ∧
      let ws := words sc.tokens.toList
      let ws' := words sc'.tokens.toList
      let short := fun x => ((Table.after {} ws).lookup x).1
      jumpTargets ws' = (jumpTargets ws).map (Option.map short) ∧
      labelNames ws' = labelNames ws ∧
      ((∀ i j, Jumps ws' i j ↔ Jumps ws i j) ↔
        ∀ x y, some x ∈ jumpTargets ws → y ∈ labelNames ws → (short x = y ↔ x = y)) := by
  obtain ⟨sc', hsc', hwords⟩ := exists_feed_of_keptApart hcut hcut' hsc htext hapart
  rw [Table.shorten_eq_map (List.prefix_refl _)] at hwords
  refine ⟨sc', hsc', ?_⟩
  rw [hwords]
  exact ⟨jumpTargets_map_renamed _ _, labelNames_map_renamed _ _, jumps_map_renamed_iff _ _⟩

def jumpSample : List Bytes := ["::a::\n", "goto a\n"].map Bytes.ofText

theorem jumps_minify_sample :
    (Program.ofLines 8 jumpSample).isOk = true ∧
      ∃ sc', Scanner.feed {} [Bytes.ofText "::a::\ngoto a\n"] = (sc', none) ∧
        labelNames (words sc'.tokens.toList) = [[97]] ∧
        ∀ i j, Jumps (words sc'.tokens.toList) i j ↔
          Jumps (words (Scanner.feed {} jumpSample).1.tokens.toList) i j := by
  have hcut : LineCut jumpSample := by unfold LineCut; decide
  have hcut' : LineCut [Bytes.ofText "::a::\ngoto a\n"] := by unfold LineCut; decide
  obtain ⟨hok, hnone, htext, hapart, htargets, hlabels, hshort⟩ :
      (Program.ofLines 8 jumpSample).isOk = true ∧ (Scanner.feed {} jumpSample).2 = none ∧
      (Stream.minify (Scanner.feed {} jumpSample).1.tokens.toList).lines.flatten =
        Bytes.ofText "::a::\ngoto a\n" ∧
      keptApart (Stream.pressed (Scanner.feed {} jumpSample).1.tokens.toList) = true ∧
      jumpTargets (words (Scanner.feed {} jumpSample).1.tokens.toList) = [some [97]] ∧
      labelNames (words (Scanner.feed {} jumpSample).1.tokens.toList) = [[97]] ∧
      ((Table.after {} (words (Scanner.feed {} jumpSample).1.tokens.toList)).lookup [97]).1 = [97] := by
    decide +kernel
  refine ⟨hok, ?_⟩
  generalize hsc : Scanner.feed {} jumpSample = p at hnone htext hapart htargets hlabels hshort ⊢
  obtain ⟨sc, e⟩ := p
  obtain rfl : e = none := hnone
  obtain ⟨sc', hsc', -, hsame, hiff⟩ :=
    jumps_minify_iff hcut hcut' hsc (by rw [htext, List.flatten_singleton]) hapart
  refine ⟨sc', hsc', hsame.trans hlabels, hiff.mpr ?_⟩
  intro x y hx hy
  rw [htargets, List.mem_singleton, Option.some_inj] at hx
  rw [hlabels, List.mem_singleton] at hy
  rw [hx, hy]
  exact iff_of_true hshort rfl

def lostSample : Bytes := Bytes.ofText "goto foo\n::foo::\n"

/-- **A jump loses its label**: the name behind a `goto` is made short, and the label is not. -/
theorem jumps_minify_lost :
    (Program.ofLines 8 [lostSample]).isOk = true ∧
      (Stream.minify (Scanner.feed {} [lostSample]).1.tokens.toList).lines.flatten =
        Bytes.ofText "goto a\n::foo::\n" ∧
      Jumps (words (Scanner.feed {} [lostSample]).1.tokens.toList) 0 0 ∧
      ¬ Jumps (words (Scanner.feed {} [Bytes.ofText "goto a\n::foo::\n"]).1.tokens.toList) 0 0 := by
  obtain ⟨hok, htext, htargets, hlabels, htargets', hlabels'⟩ :
      (Program.ofLines 8 [lostSample]).isOk = true ∧
      (Stream.minify (Scanner.feed {} [lostSample]).1.tokens.toList).lines.flatten =
        Bytes.ofText "goto a\n::foo::\n" ∧
      jumpTargets (words (Scanner.feed {} [lostSample]).1.tokens.toList) = [some (Bytes.ofText "foo")] ∧
      labelNames (words (Scanner.feed {} [lostSample]).1.tokens.toList) = [Bytes.ofText "foo"] ∧
      jumpTargets (words (Scanner.feed {} [Bytes.ofText "goto a\n::foo::\n"]).1.tokens.toList) =
        [some [97]] ∧
      labelNames (words (Scanner.feed {} [Bytes.ofText "goto a\n::foo::\n"]).1.tokens.toList) =
        [Bytes.ofText "foo"] := by
    decide +kernel
  refine ⟨hok, htext, ⟨_, by rw [htargets]; rfl, by rw [hlabels]; rfl⟩, ?_⟩
  rintro ⟨name, htarget, hlabel⟩
  rw [htargets'] at htarget
  rw [hlabels'] at hlabel
  cases htarget
  exact absurd hlabel (by decide)

end Cartridge.Lua
