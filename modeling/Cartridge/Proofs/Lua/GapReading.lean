import Cartridge.Proofs.Lua.Minifying

/-!
# Reading a gap byte by byte

A gap is read by a machine with few phases, which counts the comments and notes whether a line ends
outside of them.  What the machine finds is what the lexemes of the gap are: it ends outside of comments,
or in a comment that the line would end, exactly if the gap has lexemes.  The machine cannot tell one space
from several, nor spaces around a newline from none.
-/

namespace Cartridge.Lua.Gap

open List

variable {c : UInt8} {r s w x : Bytes}

inductive Phase where
  | outside
  | dash
  | slash
  | dashes
  | bracket
  | line
  | long
  | closing
  | lost
  deriving DecidableEq, Repr

namespace Phase

def next (φ : Phase) (c : UInt8) : Phase :=
  match φ with
  | outside =>
      if isSpace c || c == 10 then outside
      else if c == 45 then dash else if c == 47 then slash else lost
  | dash => if c == 45 then dashes else lost
  | slash => if c == 47 then line else lost
  | dashes => if c == 10 then outside else if c == 91 then bracket else line
  | bracket => if c == 10 then outside else if c == 91 then long else line
  | line => if c == 10 then outside else line
  | long => if c == 93 then closing else long
  | closing => if c == 93 then outside else long
  | lost => lost

def opens (φ : Phase) (c : UInt8) : Bool :=
  match φ with
  | dash => c == 45
  | slash => c == 47
  | _ => false

def isDone : Phase → Bool
  | outside | dashes | bracket | line => true
  | _ => false

def inLine : Phase → Bool
  | dashes | bracket | line => true
  | _ => false

theorem isDone_of_inLine {φ : Phase} (h : φ.inLine = true) : φ.isDone = true := by
  cases φ with
  | dashes | bracket | line => rfl
  | outside | dash | slash | long | closing | lost => cases h

end Phase

structure Tally where
  phase : Phase := .outside
  comments : Nat := 0
  broken : Bool := false
  deriving DecidableEq, Repr

namespace Tally

def step (τ : Tally) (c : UInt8) : Tally where
  phase := τ.phase.next c
  comments := if τ.phase.opens c then τ.comments + 1 else τ.comments
  broken := τ.broken || (c == 10 && τ.phase.isDone)

def read (τ : Tally) (s : Bytes) : Tally := s.foldl step τ

variable (τ : Tally)

@[simp] theorem read_nil : τ.read [] = τ := rfl

@[simp] theorem read_cons (c : UInt8) (s : Bytes) : τ.read (c :: s) = (τ.step c).read s := rfl

theorem read_append (s s' : Bytes) : τ.read (s ++ s') = (τ.read s).read s' :=
  foldl_append

/-! ### Blanks -/

theorem step_tab : τ.step 9 = τ.step 32 := by
  obtain ⟨φ, n, b⟩ := τ
  cases φ <;> rfl

theorem step_space_newline : (τ.step 32).step 10 = τ.step 10 := by
  obtain ⟨φ, n, b⟩ := τ
  cases φ <;> simp [step, Phase.next, Phase.opens, Phase.isDone, isSpace]

theorem step_newline_space : (τ.step 10).step 32 = τ.step 10 := by
  obtain ⟨φ, n, b⟩ := τ
  cases φ <;> simp [step, Phase.next, Phase.opens, Phase.isDone, isSpace]

theorem step_newline_newline : (τ.step 10).step 10 = τ.step 10 := by
  obtain ⟨φ, n, b⟩ := τ
  cases φ <;> simp [step, Phase.next, Phase.opens, Phase.isDone]

variable {τ}

theorem read_spaces (hτ : τ.step 32 = τ) (hs : ∀ c ∈ s, isSpace c = true) : τ.read s = τ := by
  induction s with
  | nil => rfl
  | cons c s ih =>
    have hc : τ.step c = τ := by
      have hspace := hs c mem_cons_self
      rw [isSpace, Bool.or_eq_true, beq_iff_eq, beq_iff_eq] at hspace
      rcases hspace with rfl | rfl
      · exact hτ
      · rw [step_tab, hτ]
    rw [read_cons, hc]
    exact ih fun d hd => hs d (mem_cons_of_mem c hd)

theorem step_space_of_outside (h : τ.phase = .outside) : τ.step 32 = τ := by
  obtain ⟨φ, n, b⟩ := τ
  cases h
  simp [step, Phase.next, Phase.opens, isSpace]

theorem step_newline_of_done (h : τ.phase.isDone = true) :
    τ.step 10 = { τ with phase := .outside, broken := true } := by
  obtain ⟨φ, n, b⟩ := τ
  cases φ with
  | outside | dashes | bracket | line => simp [step, Phase.next, Phase.opens, Phase.isDone]
  | dash | slash | long | closing | lost => cases h

theorem read_newline (h : τ.phase.isDone = true) (s : Bytes) :
    τ.read (10 :: s) = ({ τ with phase := .outside } : Tally).read (10 :: s) := by
  rw [read_cons, read_cons, step_newline_of_done h, step_newline_of_done (τ := { τ with phase := .outside }) rfl]

theorem read_of_lost (h : τ.phase = .lost) : (τ.read s).phase = .lost := by
  induction s generalizing τ with
  | nil => exact h
  | cons c s ih =>
    refine ih ?_
    rw [step, h]
    rfl

/-! ### Comments -/

theorem read_line (h : τ.phase = .line) (hx : (10 : UInt8) ∉ x) : τ.read x = τ := by
  induction x with
  | nil => rfl
  | cons c x ih =>
    rw [mem_cons, not_or] at hx
    have hc : (c == 10) = false := beq_eq_false_iff_ne.mpr (Ne.symm hx.1)
    have hstep : τ.step c = τ := by
      obtain ⟨φ, n, b⟩ := τ
      cases h
      simp [step, Phase.next, Phase.opens, hc]
    rw [read_cons, hstep, ih hx.2]

theorem read_line_phase {n : Nat} {b : Bool} (hx : (10 : UInt8) ∉ x) :
    ({ phase := .line, comments := n, broken := b } : Tally).read x =
      { phase := .line, comments := n, broken := b } :=
  read_line rfl hx

theorem read_lineComment (h : τ.phase = .outside) (hline : (10 : UInt8) ∉ w)
    (hmarks : [45, 45] <+: w ∨ [47, 47] <+: w) (hlong : ¬commentOpening <+: w) :
    ∃ φ : Phase, φ.inLine = true ∧ τ.read w = ⟨φ, τ.comments + 1, τ.broken⟩ := by
  obtain ⟨φ, n, b⟩ := τ
  cases h
  rcases hmarks with ⟨x, rfl⟩ | ⟨x, rfl⟩
  · -- two dashes, and no two brackets behind them
    have hx : (10 : UInt8) ∉ x := fun hmem => hline (mem_append_right _ hmem)
    have hmarks : ({ comments := n, broken := b } : Tally).read ([45, 45] ++ x) =
        ({ phase := .dashes, comments := n + 1, broken := b } : Tally).read x := by
      simp [step, Phase.next, Phase.opens, isSpace]
    rw [hmarks]
    cases x with
    | nil => exact ⟨.dashes, rfl, rfl⟩
    | cons c x =>
      simp only [mem_cons, not_or] at hx
      have hc : (c == 10) = false := beq_eq_false_iff_ne.mpr (Ne.symm hx.1)
      by_cases hbracket : c = 91
      · subst hbracket
        cases x with
        | nil => exact ⟨.bracket, rfl, by simp [step, Phase.next, Phase.opens]⟩
        | cons d x =>
          simp only [mem_cons, not_or] at hx
          have hd : (d == 10) = false := beq_eq_false_iff_ne.mpr (Ne.symm hx.2.1)
          have hne : d ≠ 91 := by
            rintro rfl
            exact hlong ⟨x, rfl⟩
          refine ⟨.line, rfl, ?_⟩
          have hsteps : ({ phase := .dashes, comments := n + 1, broken := b } : Tally).read (91 :: d :: x) =
              ({ phase := .line, comments := n + 1, broken := b } : Tally).read x := by
            simp [step, Phase.next, Phase.opens, hd, hne]
          rw [hsteps, read_line_phase hx.2.2]
      · refine ⟨.line, rfl, ?_⟩
        have hsteps : ({ phase := .dashes, comments := n + 1, broken := b } : Tally).read (c :: x) =
            ({ phase := .line, comments := n + 1, broken := b } : Tally).read x := by
          simp [step, Phase.next, Phase.opens, hc, hbracket]
        rw [hsteps, read_line_phase hx.2]
  · have hx : (10 : UInt8) ∉ x := fun hmem => hline (mem_append_right _ hmem)
    have hmarks : ({ comments := n, broken := b } : Tally).read ([47, 47] ++ x) =
        ({ phase := .line, comments := n + 1, broken := b } : Tally).read x := by
      simp [step, Phase.next, Phase.opens, isSpace]
    exact ⟨.line, rfl, by rw [hmarks, read_line_phase hx]⟩

theorem step_long (h : τ.phase = .long) :
    τ.step c = { τ with phase := if c = 93 then .closing else .long } := by
  obtain ⟨φ, n, b⟩ := τ
  cases h
  simp [step, Phase.next, Phase.opens, Phase.isDone]

theorem step_closing (h : τ.phase = .closing) :
    τ.step c = { τ with phase := if c = 93 then .outside else .long } := by
  obtain ⟨φ, n, b⟩ := τ
  cases h
  simp [step, Phase.next, Phase.opens, Phase.isDone]

theorem read_long (h : τ.phase = .long) :
    (∀ x y, Bytes.cut (closingBracket []) s = some (x, y) →
        τ.read s = ({ τ with phase := .outside } : Tally).read y) ∧
      (Bytes.cut (closingBracket []) s = none → (τ.read s).phase.isDone = false) := by
  have hclose : closingBracket [] = [93, 93] := rfl
  rw [hclose]
  induction hn : s.length using Nat.strongRecOn generalizing s τ with
  | _ n ih =>
    cases s with
    | nil =>
      refine ⟨fun x y hcut => ?_, fun _ => ?_⟩
      · cases hcut
      · rw [read_nil, h]
        rfl
    | cons c s =>
      rw [length_cons] at hn
      rw [Bytes.cut_cons, read_cons, step_long h]
      by_cases hc : c = 93
      · subst hc
        rw [if_pos rfl]
        cases s with
        | nil =>
          refine ⟨fun x y hcut => ?_, fun _ => rfl⟩
          cases hcut
        | cons d s =>
          rw [read_cons, step_closing rfl]
          by_cases hd : d = 93
          · subst hd
            rw [if_pos rfl]
            refine ⟨fun x y hcut => ?_, fun hcut => ?_⟩
            · cases hcut
              rfl
            · cases hcut
          · have hprefix : ¬[93, 93].isPrefixOf (93 :: d :: s) = true := by
              simp [Ne.symm hd]
            have hprefix' : ¬[93, 93].isPrefixOf (d :: s) = true := by
              simp [Ne.symm hd]
            rw [if_neg hprefix, if_neg hd, Bytes.cut_cons, if_neg hprefix']
            obtain ⟨hsome, hnone⟩ := ih s.length (by simp at hn; omega)
              (τ := { τ with phase := .long }) rfl rfl
            refine ⟨fun x y hcut => ?_, fun hcut => ?_⟩
            · simp only [Option.map_map, Option.map_eq_some_iff] at hcut
              obtain ⟨⟨x', y'⟩, hcut, heq⟩ := hcut
              cases heq
              exact hsome _ _ hcut
            · rw [Option.map_eq_none_iff, Option.map_eq_none_iff] at hcut
              exact hnone hcut
      · have hprefix : ¬[93, 93].isPrefixOf (c :: s) = true := by
          simp [Ne.symm hc]
        rw [if_neg hprefix, if_neg hc]
        obtain ⟨hsome, hnone⟩ := ih s.length (by omega) (τ := { τ with phase := .long }) rfl rfl
        refine ⟨fun x y hcut => ?_, fun hcut => ?_⟩
        · rw [Option.map_eq_some_iff] at hcut
          obtain ⟨⟨x', y'⟩, hcut, heq⟩ := hcut
          cases heq
          exact hsome _ _ hcut
        · rw [Option.map_eq_none_iff] at hcut
          exact hnone hcut

theorem read_commentOpening (h : τ.phase = .outside) (s : Bytes) :
    τ.read (commentOpening ++ s) = (⟨.long, τ.comments + 1, τ.broken⟩ : Tally).read s := by
  obtain ⟨φ, n, b⟩ := τ
  cases h
  have hopening : commentOpening = [45, 45, 91, 91] := rfl
  rw [hopening]
  simp [step, Phase.next, Phase.opens, isSpace]

theorem read_longComment (h : τ.phase = .outside)
    (hcut : Bytes.cut (closingBracket []) (x ++ closingBracket []) = some (x, [])) :
    τ.read (commentOpening ++ x ++ closingBracket []) = { τ with comments := τ.comments + 1 } := by
  rw [append_assoc, read_commentOpening h, (read_long rfl).1 x [] hcut]
  obtain ⟨φ, n, b⟩ := τ
  cases h
  rfl

/-! ### Lexemes -/

/-- A lexeme can start in front of the text: nothing is open but a comment that the text ends. -/
structure Ready (τ : Tally) (s : Bytes) : Prop where
  done : τ.phase.isDone = true
  free : τ.phase = .outside ∨ startsWith (· != Bytes.newline) s = false

/-- The comments and line ends of the tokens are counted on the way from `τ` to `σ`. -/
structure Counts (τ σ : Tally) (ts : List Token) : Prop where
  comments : σ.comments = τ.comments + ts.countP fun t => t.kind == .comment
  broken : σ.broken = (τ.broken || ts.any fun t => t.kind == .newline)

theorem Ready.of_outside (h : τ.phase = .outside) (s : Bytes) : τ.Ready s :=
  ⟨by rw [h]; rfl, .inl h⟩

theorem Ready.phase_eq (h : τ.Ready s) (hs : startsWith (· != Bytes.newline) s = true) :
    τ.phase = .outside := by
  rcases h.free with hphase | hfree
  · exact hphase
  · rw [hs] at hfree
    cases hfree

theorem Counts.nil (τ : Tally) (φ : Phase) : τ.Counts { τ with phase := φ } [] :=
  ⟨rfl, (Bool.or_false _).symm⟩

theorem Counts.trans {σ υ : Tally} {ts us : List Token} (h : τ.Counts σ ts) (h' : σ.Counts υ us) :
    τ.Counts υ (ts ++ us) := by
  refine ⟨?_, ?_⟩
  · rw [h'.comments, h.comments, countP_append, Nat.add_assoc]
  · rw [h'.broken, h.broken, any_append, Bool.or_assoc]

theorem read_lexeme {t : Token} (hw : Lexeme w t) (hgap : t.isGap = true) (hreturn : (13 : UInt8) ∉ w)
    (hruns : runsInto t.kind w r = false) (hτ : τ.Ready (w ++ r)) :
    (τ.read w).Ready r ∧ τ.Counts (τ.read w) [t] := by
  have hne := hw.ne_nil
  cases hw with
  | bracket hsigns hcut => cases hgap
  | quoted hmark hscan => cases hgap
  | @comment x hcut =>
    have hout : τ.phase = .outside := hτ.phase_eq rfl
    rw [read_longComment hout hcut]
    exact ⟨.of_outside (τ := { τ with comments := τ.comments + 1 }) hout r, rfl,
      (Bool.or_false _).symm⟩
  | @plain k w hlong hbracket hquote hfirst =>
    have htext := isText_of_firstMatch hfirst
    obtain ⟨c, v, rfl⟩ := exists_cons_of_ne_nil hne
    cases k with
    | space =>
      have hout : τ.phase = .outside := by
        refine hτ.phase_eq ?_
        have hc := htext c mem_cons_self
        rw [cons_append, startsWith_cons, bne_iff_ne]
        rintro rfl
        cases hc
      rw [read_spaces (step_space_of_outside hout) htext]
      exact ⟨.of_outside hout r, rfl, (Bool.or_false _).symm⟩
    | newline =>
      have heq : c :: v = [10] := by
        rcases htext with heq | heq | heq
        · exact heq
        · exact absurd (heq ▸ mem_cons_self) hreturn
        · exact absurd (heq ▸ mem_cons_self) hreturn
      rw [heq, read_cons, read_nil, step_newline_of_done hτ.done]
      exact ⟨.of_outside rfl r, rfl, (Bool.or_true _).symm⟩
    | comment =>
      have hout : τ.phase = .outside := by
        refine hτ.phase_eq ?_
        rcases htext.2 with ⟨x, hx⟩ | ⟨x, hx⟩ <;> rw [← hx] <;> rfl
      obtain ⟨φ, hφ, hread⟩ := read_lineComment hout htext.1 htext.2 hlong
      rw [hread]
      refine ⟨⟨Phase.isDone_of_inLine hφ, .inr ?_⟩, rfl, (Bool.or_false _).symm⟩
      -- nothing but a newline stops the comment
      have hshort : (Bytes.ofText "--[[").isPrefixOf (c :: v) = false := by
        rw [← Bool.not_eq_true, isPrefixOf_iff_prefix]
        exact hlong
      have hkind : (plainToken .comment (c :: v)).kind = .comment := rfl
      rw [hkind, runsInto, hshort] at hruns
      exact hruns
    | general | string | number | name | label | keyword | symbol => cases hgap

theorem read_of_lexed {ls lr : List (Bytes × Token)} (h : Lexed s (ls ++ lr))
    (hgap : ∀ l ∈ ls, l.2.isGap = true) (hreturn : ∀ l ∈ ls, (13 : UInt8) ∉ l.1) (hτ : τ.Ready s) :
    ∃ r, s = (ls.map Prod.fst).flatten ++ r ∧ Lexed r lr ∧
      (τ.read (ls.map Prod.fst).flatten).Ready r ∧
      τ.Counts (τ.read (ls.map Prod.fst).flatten) (ls.map Prod.snd) := by
  induction ls generalizing s τ with
  | nil => exact ⟨s, rfl, h, hτ, .nil τ τ.phase⟩
  | cons l ls ih =>
    cases h with
    | @cons w r₀ t _ hw hruns hr =>
      obtain ⟨hready, hcounts⟩ := read_lexeme hw (hgap _ mem_cons_self)
        (hreturn _ mem_cons_self) hruns hτ
      obtain ⟨r, rfl, hlexed, hready', hcounts'⟩ := ih hr
        (fun l hl => hgap l (mem_cons_of_mem _ hl))
        (fun l hl => hreturn l (mem_cons_of_mem _ hl)) hready
      refine ⟨r, by simp, hlexed, ?_, ?_⟩
      · rw [map_cons, flatten_cons, read_append]
        exact hready'
      · rw [map_cons, flatten_cons, read_append]
        exact hcounts.trans hcounts'

/-! ### Texts that are gaps -/

theorem lexeme_spaces (h : ∀ d ∈ c :: w, isSpace d = true) :
    Lexeme (c :: w) (plainToken .space (c :: w)) := by
  have hc := h c mem_cons_self
  have hrun : ((c :: w).takeWhile isSpace).length = (c :: w).length :=
    Recogniser.run_eq_length_iff.mpr h
  have hspace := hc
  rw [isSpace, Bool.or_eq_true, beq_iff_eq, beq_iff_eq] at hspace
  refine .plain ?_ ?_ ?_ ?_
  · rintro ⟨z, hz⟩
    have hdash := (cons.inj hz).1
    rcases hspace with rfl | rfl <;> cases hdash
  · rcases hspace with rfl | rfl <;> rfl
  · rcases hspace with rfl | rfl <;> rfl
  · rw [firstMatch_space hc, hrun]

theorem lexeme_lineComment {d : UInt8} (hd : d = 45 ∨ d = 47) (hx : (10 : UInt8) ∉ x)
    (hlong : ¬commentOpening <+: d :: d :: x) : Lexeme (d :: d :: x) (plainToken .comment (d :: d :: x)) := by
  have hrun : Recogniser.run (· != Bytes.newline) x = x.length := by
    rw [Recogniser.run_eq_length_iff]
    intro c hc
    rw [bne_iff_ne]
    rintro rfl
    exact hx hc
  have hmatch : Recogniser.toLineEnd [d, d] (d :: d :: x) = some (d :: d :: x).length := by
    simp [Recogniser.toLineEnd, hrun]
    omega
  refine .plain hlong ?_ ?_ ?_
  · rcases hd with rfl | rfl <;> rfl
  · rcases hd with rfl | rfl <;> rfl
  · rcases hd with rfl | rfl
    · rw [firstMatch_minus, hmatch]
      rfl
    · rw [firstMatch_slash, hmatch]
      rfl

theorem runsInto_longComment (x r : Bytes) :
    runsInto .comment (commentOpening ++ x ++ closingBracket []) r = false := by
  have hp : (Bytes.ofText "--[[").isPrefixOf (commentOpening ++ x ++ closingBracket []) = true :=
    isPrefixOf_iff_prefix.mpr ⟨x ++ closingBracket [], (append_assoc ..).symm⟩
  rw [runsInto, hp]
  rfl

theorem exists_run (p : UInt8 → Bool) (s : Bytes) :
    ∃ x y, s = x ++ y ∧ (∀ c ∈ x, p c = true) ∧ startsWith p y = false := by
  refine ⟨s.takeWhile p, s.dropWhile p, takeWhile_append_dropWhile.symm,
    all_eq_true.mp all_takeWhile, ?_⟩
  have hhead := head?_dropWhile_not p s
  cases hs : s.dropWhile p with
  | nil => rfl
  | cons c y =>
    rw [hs] at hhead
    exact hhead

theorem startsWith_append_of_not {p : UInt8 → Bool} (hs : startsWith p s = false)
    (hr : s = [] → startsWith p r = false) : startsWith p (s ++ r) = false := by
  cases s with
  | nil => exact hr rfl
  | cons c s => exact hs

theorem exists_marks {d : UInt8} (h : τ.phase = .outside) (hd : d = 45 ∨ d = 47)
    (hdone : (τ.read (d :: s)).phase.isDone = true) : ∃ x, s = d :: x := by
  obtain ⟨φ, n, b⟩ := τ
  cases h
  cases s with
  | nil => rcases hd with rfl | rfl <;> cases hdone
  | cons c s =>
    by_cases hc : c = d
    · exact ⟨s, by rw [hc]⟩
    rw [read_cons, read_cons, read_of_lost] at hdone
    · cases hdone
    · rcases hd with rfl | rfl <;> simp [step, Phase.next, isSpace, hc]

/-- The tally in front of the text `g`, where the text `r` follows, allows for lexemes. -/
structure Closes (τ : Tally) (g r : Bytes) : Prop where
  outside : τ.phase = .outside
  done : (τ.read g).phase.isDone = true
  ends : (τ.read g).phase = .outside ∧ startsWith isSpace r = false ∨ r = []

structure Front (τ : Tally) (g r w g' : Bytes) (t : Token) (σ : Tally) : Prop where
  eq : g = w ++ g'
  lexeme : Lexeme w t
  gap : t.isGap = true
  apart : runsInto t.kind w (g' ++ r) = false
  closes : σ.Closes g' r
  first : τ.Counts σ [t]
  rest : (σ.read g').Counts (τ.read g) []

section Fronts

variable {c : UInt8} {g r : Bytes}

theorem Closes.front (h : τ.Closes g r) {t : Token} {σ : Tally} (heq : g = w ++ s) (hw : Lexeme w t)
    (hgap : t.isGap = true) (hruns : runsInto t.kind w (s ++ r) = false) (hσ : σ.phase = .outside)
    (hread : τ.read g = σ.read s) (hcounts : τ.Counts σ [t]) : Front τ g r w s t σ :=
  ⟨heq, hw, hgap, hruns, ⟨hσ, hread ▸ h.done, hread ▸ h.ends⟩, hcounts, hread ▸ .nil _ _⟩

theorem Closes.exists_space (h : τ.Closes (c :: g) r) (hc : isSpace c = true) :
    ∃ w g' t σ, Front τ (c :: g) r w g' t σ := by
  obtain ⟨v, g', rfl, hv, hg'⟩ := exists_run isSpace g
  have hspaces : ∀ d ∈ c :: v, isSpace d = true := by
    intro d hd
    rcases mem_cons.mp hd with rfl | hd
    · exact hc
    · exact hv d hd
  have hread : τ.read (c :: (v ++ g')) = τ.read g' := by
    rw [← cons_append, read_append, read_spaces (step_space_of_outside h.outside) hspaces]
  refine ⟨_, _, _, _, h.front rfl (lexeme_spaces hspaces) rfl ?_ h.outside hread
    ⟨rfl, (Bool.or_false _).symm⟩⟩
  refine startsWith_append_of_not hg' ?_
  rintro rfl
  rcases h.ends with ⟨-, hends⟩ | rfl
  · exact hends
  · rfl

theorem Closes.exists_newline (h : τ.Closes (10 :: g) r) :
    ∃ w g' t σ, Front τ (10 :: g) r w g' t σ := by
  have hstep := step_newline_of_done (τ := τ) (by rw [h.outside]; rfl)
  refine ⟨_, _, _, _, h.front (w := [10]) (σ := τ.step 10) rfl lexeme_newline rfl rfl ?_ rfl ?_⟩
  · rw [hstep]
  · rw [hstep]
    exact ⟨rfl, (Bool.or_true _).symm⟩

theorem Closes.exists_longComment (h : τ.Closes g r) (hlong : commentOpening <+: g) :
    ∃ w g' t σ, Front τ g r w g' t σ := by
  obtain ⟨s, rfl⟩ := hlong
  have hopened := read_commentOpening h.outside s
  cases hcut : Bytes.cut (closingBracket []) s with
  | none =>
    have hdone := h.done
    rw [hopened, (read_long rfl).2 hcut] at hdone
    cases hdone
  | some p =>
    obtain ⟨y, g'⟩ := p
    have hread := (read_long (τ := ⟨.long, τ.comments + 1, τ.broken⟩) rfl).1 y g' hcut
    obtain rfl := Bytes.eq_of_cut hcut
    refine ⟨_, _, _, _, h.front (w := commentOpening ++ y ++ closingBracket []) (s := g')
      (σ := { τ with comments := τ.comments + 1 }) ?_ (.comment ?_) rfl (runsInto_longComment _ _)
      h.outside ?_ ⟨rfl, (Bool.or_false _).symm⟩⟩
    · simp
    · simpa using Bytes.cut_congr (closingBracket_ne_nil []) [] hcut
    · rw [hopened, hread, h.outside]

theorem Closes.exists_lineComment (h : τ.Closes (c :: c :: g) r) (hc : c = 45 ∨ c = 47)
    (hlong : ¬commentOpening <+: c :: c :: g) : ∃ w g' t σ, Front τ (c :: c :: g) r w g' t σ := by
  obtain ⟨y, g', rfl, hy, hg'⟩ := exists_run (· != 10) g
  have hline : (10 : UInt8) ∉ y := fun hmem => absurd (hy 10 hmem) (by decide)
  have hlong' : ¬commentOpening <+: c :: c :: y :=
    fun hp => hlong (hp.trans (prefix_append (c :: c :: y) g'))
  have hlexeme := lexeme_lineComment hc hline hlong'
  obtain ⟨φ, hφ, hcomment⟩ := read_lineComment (w := c :: c :: y) h.outside
    (by rcases hc with rfl | rfl <;> simpa using hline)
    (by rcases hc with rfl | rfl <;> simp) hlong'
  have hread : τ.read (c :: c :: (y ++ g')) =
      (⟨φ, τ.comments + 1, τ.broken⟩ : Tally).read g' := by
    rw [← hcomment, ← read_append]
    rfl
  cases g' with
  | nil =>
    have hr : r = [] := by
      rcases h.ends with ⟨hends, -⟩ | hr
      · have hphase : φ = .outside := by
          rw [hread] at hends
          exact hends
        rw [hphase] at hφ
        cases hφ
      · exact hr
    subst hr
    refine ⟨_, _, _, { τ with comments := τ.comments + 1 }, rfl, hlexeme, rfl, runsInto_nil _ _,
      ⟨h.outside, ?_, .inr rfl⟩, ⟨rfl, (Bool.or_false _).symm⟩, ?_⟩
    · rw [read_nil, h.outside]
      rfl
    · rw [hread]
      exact .nil _ φ
  | cons d g' =>
    obtain rfl : d = 10 := by simpa using hg'
    refine ⟨_, _, _, _, h.front (w := c :: c :: y) (σ := { τ with comments := τ.comments + 1 }) rfl
      hlexeme rfl (Bool.and_false _) h.outside ?_ ⟨rfl, (Bool.or_false _).symm⟩⟩
    rw [hread, read_newline (Phase.isDone_of_inLine hφ), h.outside]

theorem Closes.exists_front (h : τ.Closes (c :: g) r) : ∃ w g' t σ, Front τ (c :: g) r w g' t σ := by
  by_cases hspace : isSpace c = true
  · exact h.exists_space hspace
  by_cases hnewline : c = 10
  · subst hnewline
    exact h.exists_newline
  by_cases hmark : c = 45 ∨ c = 47
  · obtain ⟨x, rfl⟩ := exists_marks h.outside hmark h.done
    by_cases hlong : commentOpening <+: c :: c :: x
    · exact h.exists_longComment hlong
    · exact h.exists_lineComment hmark hlong
  · rw [not_or] at hmark
    have hdone := h.done
    rw [read_cons, read_of_lost] at hdone
    · cases hdone
    · simp [step, h.outside, Phase.next, hspace, hnewline, hmark.1, hmark.2]

end Fronts

theorem exists_lexed_of_read {g : Bytes} {lr : List (Bytes × Token)} (hr : Lexed r lr) (h : τ.Closes g r) :
    ∃ lg, Lexed (g ++ r) (lg ++ lr) ∧ (∀ l ∈ lg, l.2.isGap = true) ∧
      τ.Counts (τ.read g) (lg.map Prod.snd) := by
  induction hn : g.length using Nat.strongRecOn generalizing g τ with
  | _ n ih =>
    cases g with
    | nil => exact ⟨[], hr, nofun, .nil τ τ.phase⟩
    | cons c g =>
      obtain ⟨w, g', t, σ, hfront⟩ := h.exists_front
      have hlt : g'.length < n := by
        have hpos := length_pos_iff.mpr hfront.lexeme.ne_nil
        rw [← hn, hfront.eq, length_append]
        omega
      obtain ⟨lg, hlexed, hgaps, hcounts⟩ := ih _ hlt hfront.closes rfl
      refine ⟨(w, t) :: lg, ?_, ?_, ?_⟩
      · rw [hfront.eq, append_assoc]
        exact .cons hfront.lexeme hfront.apart hlexed
      · intro l hl
        rcases mem_cons.mp hl with rfl | hl
        · exact hfront.gap
        · exact hgaps l hl
      · have hall := (hfront.first.trans hcounts).trans hfront.rest
        rw [append_nil] at hall
        exact hall

end Tally
end Cartridge.Lua.Gap
