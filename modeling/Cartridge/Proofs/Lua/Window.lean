import Cartridge.Proofs.Lua.Parsing
import Mathlib.Data.List.Forall2

/-!
# Tokens among others

The tokens of a text also stand in the text that it is put into, further behind and with other tokens
before and after them; and the first tokens of a text are all the tokens of the text that breaks off
there.  In both cases a window of one token list is found in another.

Two runs are compared step by step, one over each list.  A parser *shadows* another if it finds whatever
the other one finds within the window, at the other place, and leaves its cursor abreast of the other's.
What ends the window may differ, as long as no parser can tell: behind it there is nothing, or an `end`
in the one list and a `function` in the other.

The shorter list has fewer rounds and levels to spend.  So it counts how many tokens are left in the
window, and that every round and every level takes one.
-/

namespace Cartridge.Lua

open Grammar

variable {c c₁ c₂ : Cursor} {fs fs' : List Tree} {i n x : Nat} {o o' : Option Tree} {p : Pattern}
  {ps : List Pattern} {t : Token} {t' : Tree} {toks : Array Token}

/-! ### Trees that have moved -/

/-- Where the tokens of one list stand in another.  What starts with the first of them may start in the
gap before it. -/
structure Shift where
  start : Nat
  offset : Nat

namespace Shift

def place (d : Shift) (i : Nat) : Nat := if i = 0 then d.start else i + d.offset

def still : Shift := ⟨0, 0⟩

variable {d : Shift} {i : Nat}

@[simp] theorem place_zero (d : Shift) : d.place 0 = d.start := rfl

@[simp] theorem place_succ (d : Shift) (i : Nat) : d.place (i + 1) = i + 1 + d.offset := rfl

theorem place_of_pos (hi : 0 < i) : d.place i = i + d.offset := if_neg (by omega)

@[simp] theorem place_still (i : Nat) : still.place i = i := by
  cases i <;> rfl

theorem place_le (h : d.start ≤ d.offset) (i : Nat) : d.place i ≤ i + d.offset := by
  cases i with
  | zero => simpa using h
  | succ i => exact Nat.le_refl _

end Shift

def Span.movedBy (d : Shift) (s : Span) : Span := ⟨d.place s.start, d.place s.stop⟩

def Origin.movedBy (d : Shift) (o : Origin) : Origin := { o with span := o.span.map (Span.movedBy d) }

namespace Tree

mutual

def movedBy (d : Shift) : Tree → Tree
  | .node k fs o => .node k (movedAll d fs) (o.movedBy d)
  | .token t => .token t.unplaced
  | .list ts => .list (movedAll d ts)
  | .label b => .label b
  | .truth b => .truth b
  | .absent => .absent

def movedAll (d : Shift) : List Tree → List Tree
  | [] => []
  | t :: ts => t.movedBy d :: movedAll d ts

end

theorem movedAll_eq_map (d : Shift) : ∀ ts : List Tree, movedAll d ts = ts.map (movedBy d)
  | [] => rfl
  | t :: ts => by rw [movedAll, movedAll_eq_map d ts, List.map_cons]

abbrev Moved (d : Shift) (t t' : Tree) : Prop := t'.unplaced = t.movedBy d

section Moving

variable {d : Shift}

theorem movedBy_node (k : NodeKind) (fs : List Tree) (o : Origin) :
    (node k fs o).movedBy d = .node k (fs.map (movedBy d)) (o.movedBy d) := by
  rw [movedBy, movedAll_eq_map]

theorem movedBy_list (ts : List Tree) : (list ts).movedBy d = .list (ts.map (movedBy d)) := by
  rw [movedBy, movedAll_eq_map]

theorem map_moved {ts ts' : List Tree} (h : List.Forall₂ (Moved d) ts ts') :
    ts'.map unplaced = ts.map (movedBy d) := by
  induction h with
  | nil => rfl
  | cons hd _ ih => rw [List.map_cons, List.map_cons, hd, ih]

theorem Moved.node {k : NodeKind} (h : List.Forall₂ (Moved d) fs fs') (o : Origin) :
    Moved d (.node k fs o) (.node k fs' (o.movedBy d)) := by
  rw [Moved, unplaced_node, movedBy_node, map_moved h]

theorem Moved.made {k : NodeKind} (h : List.Forall₂ (Moved d) fs fs') (start stop : Nat) :
    Moved d (.made k fs start stop) (.made k fs' (d.place start) (d.place stop)) :=
  .node h _

theorem Moved.list {ts ts' : List Tree} (h : List.Forall₂ (Moved d) ts ts') :
    Moved d (.list ts) (.list ts') := by
  rw [Moved, unplaced_list, movedBy_list, map_moved h]

theorem Moved.token {t' : Token} (h : Token.Same t t') : Moved d (.token t) (.token t') := by
  rw [Moved, unplaced_token, movedBy, h]

theorem Moved.label (b : Bytes) : Moved d (.label b) (.label b) := by
  rw [Moved, unplaced_label, movedBy]

theorem Moved.truth (b : Bool) : Moved d (.truth b) (.truth b) := by
  rw [Moved, unplaced, movedBy]

theorem Moved.absent : Moved d .absent .absent := by
  rw [Moved, unplaced_absent, movedBy]

theorem Moved.tokens {ts ts' : List Token} (h : List.Forall₂ Token.Same ts ts') :
    List.Forall₂ (Moved d) (ts.map .token) (ts'.map .token) := by
  induction h with
  | nil => exact .nil
  | cons hd _ ih => exact .cons (.token hd) ih

theorem Moved.branch {c c' b b' : Tree} (hc : Moved d c c') (hb : Moved d b b') :
    Moved d (branch c b) (branch c' b') :=
  .list (.cons hc (.cons hb .nil))

theorem Moved.ofOption (h : Option.Rel (Moved d) o o') : Moved d (.ofOption o) (.ofOption o') := by
  cases h with
  | some h => exact h
  | none => exact .absent

theorem Moved.ofToken? {o o' : Option Token} (h : Option.Rel Token.Same o o') :
    Moved d (.ofToken? o) (.ofToken? o') := by
  cases h with
  | some h => exact .token h
  | none => exact .absent

theorem Moved.toList (h : Option.Rel (Moved d) o o') : List.Forall₂ (Moved d) o.toList o'.toList := by
  cases h with
  | some h => exact .cons h .nil
  | none => exact .nil

theorem Moved.cases {t t' : Tree} (h : Moved d t t') :
    (∃ k fs fs' o o', t = .node k fs o ∧ t' = .node k fs' o' ∧ o' = o.movedBy d ∧
      List.Forall₂ (Moved d) fs fs') ∨
    (∃ ts ts', t = .list ts ∧ t' = .list ts' ∧ List.Forall₂ (Moved d) ts ts') ∨
    (∃ u u', t = .token u ∧ t' = .token u' ∧ Token.Same u u') ∨
    (t = t' ∧ ((∃ b, t = .label b) ∨ (∃ b, t = .truth b) ∨ t = .absent)) := by
  have hall : ∀ {ts ts' : List Tree}, ts'.map unplaced = ts.map (movedBy d) →
      List.Forall₂ (Moved d) ts ts' := by
    intro ts ts' h
    induction ts generalizing ts' with
    | nil =>
      cases ts' with
      | nil => exact .nil
      | cons _ _ => cases h
    | cons t ts ih =>
      cases ts' with
      | nil => cases h
      | cons t' ts' =>
        rw [List.map_cons, List.map_cons, List.cons.injEq] at h
        exact .cons h.1 (ih h.2)
  cases t <;> cases t' <;>
    simp only [Moved, unplaced, movedBy, unplacedAll_eq_map, movedAll_eq_map, Tree.node.injEq,
      Tree.list.injEq, Tree.token.injEq, Tree.label.injEq, Tree.truth.injEq, reduceCtorEq] at h
  · obtain ⟨rfl, hfs, ho⟩ := h
    exact .inl ⟨_, _, _, _, _, rfl, rfl, ho, hall hfs⟩
  · exact .inr (.inr (.inl ⟨_, _, rfl, rfl, h⟩))
  · exact .inr (.inl ⟨_, _, rfl, rfl, hall h⟩)
  · exact .inr (.inr (.inr ⟨by rw [h], .inl ⟨_, rfl⟩⟩))
  · exact .inr (.inr (.inr ⟨by rw [h], .inr (.inl ⟨_, rfl⟩)⟩))
  · exact .inr (.inr (.inr ⟨rfl, .inr (.inr rfl)⟩))

theorem Moved.isA_eq {t : Tree} (h : Moved d t t') (k : NodeKind) : t'.isA k = t.isA k := by
  obtain ⟨_, _, _, _, _, rfl, rfl, -⟩ | ⟨_, _, rfl, rfl, -⟩ | ⟨_, _, rfl, rfl, -⟩ | ⟨rfl, -⟩ := h.cases
  all_goals rfl

theorem Moved.stop?_eq {t : Tree} (h : Moved d t t') : t'.stop? = t.stop?.map d.place := by
  obtain ⟨_, _, _, o, _, rfl, rfl, rfl, -⟩ | ⟨_, _, rfl, rfl, -⟩ | ⟨_, _, rfl, rfl, -⟩ |
    ⟨rfl, ⟨_, rfl⟩ | ⟨_, rfl⟩ | rfl⟩ := h.cases
  · rw [stop?, stop?, Origin.movedBy]
    cases o.span <;> rfl
  all_goals rfl

theorem Moved.eq_absent_iff {t : Tree} (h : Moved d t t') : t' = .absent ↔ t = .absent := by
  obtain ⟨_, _, _, _, _, rfl, rfl, -⟩ | ⟨_, _, rfl, rfl, -⟩ | ⟨_, _, rfl, rfl, -⟩ | ⟨rfl, -⟩ := h.cases
  · exact ⟨nofun, nofun⟩
  · exact ⟨nofun, nofun⟩
  · exact ⟨nofun, nofun⟩
  · exact Iff.rfl

theorem Moved.field {t v : Tree} (h : Moved d t t') {f : Field} (hv : t.field f = .ok v) :
    ∃ v', t'.field f = .ok v' ∧ Moved d v v' := by
  obtain ⟨k, fs, fs', o, _, rfl, rfl, -, hfs⟩ | ⟨_, _, rfl, rfl, -⟩ | ⟨_, _, rfl, rfl, -⟩ |
    ⟨rfl, ⟨_, rfl⟩ | ⟨_, rfl⟩ | rfl⟩ := h.cases
  · have hfind : ∀ (names : List Field) {fs fs' : List Tree}, List.Forall₂ (Moved d) fs fs' →
        ∀ p, (names.zip fs).find? (fun p => p.1 == f) = some p →
          ∃ p', (names.zip fs').find? (fun p => p.1 == f) = some p' ∧ Moved d p.2 p'.2 := by
      intro names fs fs' hfs
      induction hfs generalizing names with
      | nil =>
        intro p hp
        rw [List.zip_nil_right] at hp
        cases hp
      | @cons t t' ts ts' ht _ ih =>
        intro p hp
        cases names with
        | nil => cases hp
        | cons first names =>
          rw [List.zip_cons_cons, List.find?_cons] at hp ⊢
          dsimp only at hp ⊢
          split at hp
          · cases hp
            exact ⟨_, rfl, ht⟩
          · exact ih names p hp
    rw [Tree.field] at hv ⊢
    split at hv
    · next p hp =>
      obtain ⟨p', hp', hmoved⟩ := hfind _ hfs p hp
      cases hv
      rw [hp']
      exact ⟨_, rfl, hmoved⟩
    · cases hv
  all_goals cases hv

theorem Moved.hasStatements_eq {t : Tree} (h : Moved d t t') :
    hasStatements t' = hasStatements t := by
  obtain ⟨k, fs, fs', o, _, rfl, rfl, -, hfs⟩ | ⟨_, _, rfl, rfl, -⟩ | ⟨_, _, rfl, rfl, -⟩ |
    ⟨rfl, -⟩ := h.cases
  · by_cases hk : k = .chunk
    · subst hk
      cases hfs with
      | nil => rfl
      | cons hf hfs =>
        cases hfs with
        | cons => simp [hasStatements]
        | nil =>
          obtain ⟨_, _, _, _, _, rfl, rfl, -⟩ | ⟨_, _, rfl, rfl, hts⟩ | ⟨_, _, rfl, rfl, -⟩ |
            ⟨rfl, ⟨_, rfl⟩ | ⟨_, rfl⟩ | rfl⟩ := hf.cases
          · rfl
          · cases hts <;> rfl
          all_goals rfl
    · simp [hasStatements, hk]
  all_goals rfl

theorem Moved.otherBranch (h : Option.Rel (Moved d) o o') :
    List.Forall₂ (Moved d) (otherBranch o) (otherBranch o') := by
  cases h with
  | none => exact .nil
  | some hb =>
    rw [otherBranch, otherBranch, hb.hasStatements_eq]
    split
    · exact .cons (.branch .absent hb) .nil
    · exact .nil

mutual

theorem unplaced_movedBy : ∀ t : Tree, (t.movedBy d).unplaced = t.movedBy d
  | .node k fs o => by rw [movedBy, unplaced, unplacedAll_movedAll fs]
  | .list ts => by rw [movedBy, unplaced, unplacedAll_movedAll ts]
  | .token _ | .label _ | .truth _ | .absent => rfl

theorem unplacedAll_movedAll : ∀ ts : List Tree, unplacedAll (movedAll d ts) = movedAll d ts
  | [] => rfl
  | t :: ts => by rw [movedAll, unplacedAll, unplaced_movedBy t, unplacedAll_movedAll ts]

end

mutual

theorem movedBy_still_apply : ∀ t : Tree, t.movedBy .still = t.unplaced
  | .node k fs ⟨span, short⟩ => by
    rw [movedBy, unplaced, movedAll_still fs]
    cases span <;> simp [Origin.movedBy, Span.movedBy]
  | .list ts => by rw [movedBy, unplaced, movedAll_still ts]
  | .token _ | .label _ | .truth _ | .absent => rfl

theorem movedAll_still : ∀ ts : List Tree, movedAll .still ts = unplacedAll ts
  | [] => rfl
  | t :: ts => by rw [movedAll, unplacedAll, movedBy_still_apply t, movedAll_still ts]

end

theorem movedBy_still : movedBy .still = unplaced := funext movedBy_still_apply

end Moving

end Tree

/-! ### Counterparts -/

class Matched {α : Type} (R : α → α → Prop) : Prop where
  exists_rel : ∀ a, ∃ a', R a a'

instance {α : Type} : Matched (Eq : α → α → Prop) := ⟨fun a => ⟨a, rfl⟩⟩

instance : Matched Token.Same := ⟨fun t => ⟨t, rfl⟩⟩

instance {d : Shift} : Matched (Tree.Moved d) := ⟨fun t => ⟨t.movedBy d, t.unplaced_movedBy⟩⟩

instance {α : Type} {R : α → α → Prop} [Matched R] : Matched (Option.Rel R) where
  exists_rel
    | some a =>
      let ⟨a', h⟩ := Matched.exists_rel (R := R) a
      ⟨some a', .some h⟩
    | none => ⟨none, .none⟩

instance {α : Type} {R : α → α → Prop} [Matched R] : Matched (List.Forall₂ R) where
  exists_rel as := by
    induction as with
    | nil => exact ⟨[], .nil⟩
    | cons a as ih =>
      obtain ⟨a', ha⟩ := Matched.exists_rel (R := R) a
      obtain ⟨as', has⟩ := ih
      exact ⟨a' :: as', .cons ha has⟩

/-! ### Windows -/

open Grammar

theorem Token.fits_of_agrees {u : Token} (h : t.agrees u = true) (p : Pattern) : t.fits p = u.fits p := by
  have hkind := kind_eq_of_agrees h
  cases p with
  | kind k => cases k <;> simp [Token.fits, hkind]
  | exact v =>
    rw [Token.agrees, Bool.and_eq_true, hkind] at h
    rw [Token.fits, Token.fits, Token.agrees, Token.agrees, hkind]
    split at h
    · next hword => simp only [hword, if_true, beq_iff_eq.mp h.2]
    · rw [beq_iff_eq.mp h.2]

/-- What a name or parentheses and all that follows them can be: the phrases that are tried before it is
known what they are. -/
def Grammar.Tried (toks : Array Token) (i j : Nat) : Prop :=
  ∃ t, Derived toks .chain t i j ∨ Derived toks .variables t i j ∨ Derived toks .nothing t i j ∨
    Spans toks (Derived toks) [.sign "(", .part .expression t, .sign ")"] i j

/-- The first `m` tokens of `toks` are found in `toks'`, further behind by `d`. -/
structure Window (toks toks' : Array Token) (d : Shift) (m : Nat) : Prop where
  le : m ≤ toks.size
  same : ∀ {i : Nat}, i < m →
    ∃ t t', toks[i]? = some t ∧ toks'[i + d.offset]? = some t' ∧ Token.Same t t'
  /-- There is only a gap between where a phrase may start and the first token. -/
  lead : Blank toks' d.start d.offset
  behind : ∀ {x : Nat} {t' : Token}, Blank toks' (m + d.offset) x → toks'[x]? = some t' →
    t'.isGap = false →
    t'.agrees (Token.keyword "end") = true
  front : ∀ {x : Nat} {t : Token}, Blank toks m x → toks[x]? = some t → t.isGap = false →
    t.agrees (Token.keyword "function") = true
  cut : ∀ {i j : Nat}, Tried toks i j → i ≤ m → j ≤ m

/-- Two cursors at the same place of a window, with the same tokens of the window in reach. -/
structure Abreast (toks : Array Token) (d : Shift) (m : Nat) (c c' : Cursor) : Prop where
  pos : c'.pos = d.place c.pos
  le : c.pos ≤ m
  sound : c.Sound toks
  reach : ∀ i < m,
    c'.limit.all (fun l => decide (i + d.offset < l)) = c.limit.all (fun l => decide (i < l))

namespace Grammar

theorem lineStop_of_newline (ht : toks[i]? = some t) (hkind : t.kind = .newline) : lineStop toks i = i := by
  have hlt := (Array.getElem?_eq_some_iff.mp ht).1
  obtain ⟨n, hn⟩ : ∃ n, toks.size - i = n + 1 := ⟨toks.size - i - 1, by omega⟩
  rw [lineStop, hn, lineEnd, ht]
  simp [hkind]

theorem lineStop_of_not_newline (ht : toks[i]? = some t) (hkind : t.kind ≠ .newline) :
    lineStop toks i = lineStop toks (i + 1) := by
  have hlt := (Array.getElem?_eq_some_iff.mp ht).1
  obtain ⟨n, hn⟩ : ∃ n, toks.size - i = n + 1 := ⟨toks.size - i - 1, by omega⟩
  have hn' : toks.size - (i + 1) = n := by omega
  rw [lineStop, lineStop, hn, hn', lineEnd, ht]
  simp [hkind]

theorem le_lineStop (toks : Array Token) (i : Nat) : i ≤ lineStop toks i :=
  ((sound_lineStop toks i).limit _ rfl).1

end Grammar

namespace Window

variable {toks toks' : Array Token} {d : Shift} {m : Nat} (w : Window toks toks' d m)
include w

theorem lt_rounds {k : Nat} : m < rounds toks' + k := by
  rw [rounds]
  by_cases hm : m = 0
  · omega
  · obtain ⟨_, t', -, ht', -⟩ := w.same (i := m - 1) (by omega)
    have hlt := (Array.getElem?_eq_some_iff.mp ht').1
    omega

theorem place_lt {j : Nat} (h : i < j) : d.place i < d.place j := by
  have hle := Shift.place_le w.lead.le i
  rw [Shift.place_of_pos (by omega : 0 < j)]
  omega

theorem blank_place (i : Nat) : Blank toks' (d.place i) (i + d.offset) := by
  cases i with
  | zero =>
    rw [Shift.place_zero, Nat.zero_add]
    exact w.lead
  | succ i => exact .refl _ _

theorem blank {j : Nat} (h : Blank toks i j) (hj : j ≤ m) : Blank toks' (i + d.offset) (j + d.offset) := by
  refine ⟨Nat.add_le_add_right h.le _, fun n hin hnj => ?_⟩
  obtain ⟨t, t', ht, ht', hsame⟩ := w.same (i := n - d.offset) (by omega)
  obtain ⟨u, hu, hgap⟩ := h.gap (n - d.offset) (by omega) (by omega)
  rw [ht] at hu
  cases hu
  rw [Nat.sub_add_cancel (by omega)] at ht'
  exact ⟨t', ht', by rw [hsame.isGap, hgap]⟩

theorem takes (h : Takes toks ps i t x) (hx : x < m) :
    ∃ t', Takes toks' ps (d.place i) t' (x + d.offset) ∧ Token.Same t t' := by
  obtain ⟨u, t', hu, ht', hsame⟩ := w.same hx
  rw [h.get] at hu
  cases hu
  obtain ⟨p, hp, hfits⟩ := h.fits
  refine ⟨t', ⟨(w.blank_place i).trans (w.blank h.blank (Nat.le_of_lt hx)), ht', ?_, p, hp, ?_⟩, hsame⟩
  · rw [hsame.isGap, h.solid]
  · rw [hsame.fits, hfits]

theorem of_takes {t' : Token} (h : Takes toks' ps (d.place i) t' x) (hi : i ≤ m)
    (hps : ∀ p ∈ ps, (Token.keyword "end").fits p = false) :
    ∃ y t, x = y + d.offset ∧ y < m ∧ Takes toks ps i t y := by
  have hle : i + d.offset ≤ x := h.le_of_blank (w.blank_place i)
  have h := h.of_le (w.blank_place i).le hle
  by_cases hx : x < m + d.offset
  · obtain ⟨t, u', ht, hu', hsame⟩ := w.same (i := x - d.offset) (by omega)
    rw [Nat.sub_add_cancel (by omega), h.get] at hu'
    cases hu'
    refine ⟨x - d.offset, t, by omega, by omega, ⟨by omega, fun n hin hnx => ?_⟩, ht, ?_, ?_⟩
    · obtain ⟨u, u', hu, hu', hsame'⟩ := w.same (i := n) (by omega)
      obtain ⟨v, hv, hgap⟩ := h.blank.gap (n + d.offset) (by omega) (by omega)
      rw [hu'] at hv
      cases hv
      exact ⟨u, hu, by rw [← hsame'.isGap, hgap]⟩
    · rw [← hsame.isGap, h.solid]
    · obtain ⟨p, hp, hfits⟩ := h.fits
      exact ⟨p, hp, by rw [← hsame.fits, hfits]⟩
  · have hend := w.behind (h.blank.of_le (by omega) (by omega)) h.get h.solid
    obtain ⟨p, hp, hfits⟩ := h.fits
    have hnot := hps p hp
    rw [← Token.fits_of_agrees hend, hfits] at hnot
    cases hnot

theorem lt_of_takes (h : Takes toks ps i t x) (hi : i ≤ m)
    (hps : ∀ p ∈ ps, (Token.keyword "function").fits p = false) : x < m := by
  by_contra hx
  have hfunction := w.front (h.blank.of_le hi (by omega)) h.get h.solid
  obtain ⟨p, hp, hfits⟩ := h.fits
  have hnot := hps p hp
  rw [← Token.fits_of_agrees hfunction, hfits] at hnot
  cases hnot

theorem onward (hc : c.Sound toks) (hle : c.pos ≤ m) : Onward (.free toks) c 0 c :=
  .refl hc (fun _ _ => trivial) (Nat.zero_le _) (Nat.le_trans hle w.le)

theorem lt_lineStop_iff {e : Nat} (he : e ≤ m) (hi : i < m) :
    i + d.offset < lineStop toks' (e + d.offset) ↔ i < lineStop toks e := by
  obtain ⟨n, hn⟩ : ∃ n, n = m - e := ⟨_, rfl⟩
  induction n generalizing e with
  | zero =>
    have hle := le_lineStop toks e
    have hle' := le_lineStop toks' (e + d.offset)
    omega
  | succ n ih =>
    obtain ⟨t, t', ht, ht', hsame⟩ := w.same (i := e) (by omega)
    have hkind : t'.kind = t.kind := (congrArg Token.kind hsame :)
    by_cases hnewline : t.kind = .newline
    · rw [lineStop_of_newline ht hnewline, lineStop_of_newline ht' (hkind.trans hnewline)]
      omega
    · rw [lineStop_of_not_newline ht hnewline, lineStop_of_not_newline ht' (hkind ▸ hnewline),
        Nat.add_right_comm, ih (by omega) (by omega)]

theorem closesBefore_eq {e : Nat} (he : e ≤ m) (hpos : 0 < e) :
    closesBefore toks' (e + d.offset) = closesBefore toks e := by
  obtain ⟨t, t', ht, ht', hsame⟩ := w.same (i := e - 1) (by omega)
  have hindex : e + d.offset - 1 = e - 1 + d.offset := by omega
  rw [closesBefore, closesBefore, ht, hindex, ht']
  exact hsame.fits (.exact (Token.symbol ")"))

end Window

namespace Grammar

/-! ### Parsers that shadow others -/

/-- The first parser never goes back, and moves on where `S` holds of what it gives.  Whatever it gives
from `k` on within the first `m` tokens, the other one gives too, up to `R` and `d` tokens further
behind. -/
structure Shadows {α : Type} (toks : Array Token) (d : Shift) (m k : Nat) (S : α → Prop)
    (R : α → α → Prop) (p q : Parse α) : Prop where
  advances : ∀ {c a c₁}, p.run c = .ok (a, c₁) → c.pos ≤ c₁.pos ∧ (S a → c.pos < c₁.pos)
  shadowed : ∀ {c c' a c₁}, Abreast toks d m c c' → k ≤ c.pos → p.run c = .ok (a, c₁) → c₁.pos ≤ m →
    ∃ a' c₁', q.run c' = .ok (a', c₁') ∧ R a a' ∧ Abreast toks d m c₁ c₁'

abbrev Loose {α : Type} : α → Prop := fun _ => False

abbrev Found {α : Type} : Option α → Prop := fun r => r.isSome = true

abbrev ShadowsPhrase (toks : Array Token) (d : Shift) (m k : Nat) (p q : Parse (Option Tree)) : Prop :=
  Shadows toks d m k Found (Option.Rel (Tree.Moved d)) p q

abbrev ShadowsRest (toks : Array Token) (d : Shift) (m k : Nat) (p q : Parse (Option Tree)) : Prop :=
  Shadows toks d m k Loose (Option.Rel (Tree.Moved d)) p q

namespace Shadows

variable {α β : Type} {toks : Array Token} {d : Shift} {m k : Nat} {S : α → Prop} {T : β → Prop}
  {R : α → α → Prop} {Q : β → β → Prop}

theorem loose {p q : Parse α} (h : Shadows toks d m k S R p q) : Shadows toks d m k Loose R p q :=
  ⟨fun hrun => ⟨(h.advances hrun).1, False.elim⟩, h.shadowed⟩

theorem later {p q : Parse α} (h : Shadows toks d m k S R p q) : Shadows toks d m (k + 1) S R p q :=
  ⟨h.advances, fun hc hk => h.shadowed hc (by omega)⟩

theorem beyond {p q : Parse α} {l : Nat} (h : Shadows toks d m l S R p q) (hk : m < k) (q' : Parse α) :
    Shadows toks d m k S R p q' :=
  ⟨h.advances, fun hc hle _ _ => absurd hc.le (by omega)⟩

theorem pure {a a' : α} (h : R a a') (ha : ¬S a) : Shadows toks d m k S R (pure a) (pure a') where
  advances hrun := by
    cases hrun
    exact ⟨Nat.le_refl _, fun hS => absurd hS ha⟩
  shadowed hc _ hrun _ := by
    cases hrun
    exact ⟨a', _, rfl, h, hc⟩

theorem throw (e : Failure) (q : Parse α) : Shadows toks d m k S R (throw e) q :=
  ⟨nofun, nofun⟩

theorem fault (wanted : Wanted) (q : Parse α) : Shadows toks d m k S R (fault toks wanted) q :=
  ⟨nofun, nofun⟩

theorem andThen [Matched R] {p q : Parse α} {f g : α → Parse β} (h : Shadows toks d m k S R p q)
    {l : α → Nat} {U : α → β → Prop} (hl : ∀ a, l a ≤ k ∨ S a ∧ l a ≤ k + 1) (hT : ∀ a b, T b → S a ∨ U a b)
    (hf : ∀ {a a'}, R a a' → Shadows toks d m (l a) (U a) Q (f a) (g a')) :
    Shadows toks d m k T Q (p >>= f) (q >>= g) where
  advances hrun := by
    obtain ⟨a, c₁, hp, hrest⟩ := exists_of_run_bind hrun
    obtain ⟨a', ha⟩ := Matched.exists_rel (R := R) a
    obtain ⟨hle, hlt⟩ := h.advances hp
    obtain ⟨hle', hlt'⟩ := (hf ha).advances hrest
    refine ⟨Nat.le_trans hle hle', fun hb => ?_⟩
    rcases hT a _ hb with hS | hU
    · exact Nat.lt_of_lt_of_le (hlt hS) hle'
    · exact Nat.lt_of_le_of_lt hle (hlt' hU)
  shadowed {c c' b c₂} hc hk hrun hm := by
    obtain ⟨a, c₁, hp, hrest⟩ := exists_of_run_bind hrun
    obtain ⟨hle, hlt⟩ := h.advances hp
    obtain ⟨a₀, ha₀⟩ := Matched.exists_rel (R := R) a
    have hnext := ((hf ha₀).advances hrest).1
    have hroom : l a ≤ c₁.pos := by
      rcases hl a with hl | ⟨hS, hl⟩
      · omega
      · have := hlt hS
        omega
    obtain ⟨a', c₁', hq, ha, hc₁⟩ := h.shadowed hc hk hp (by omega)
    obtain ⟨b', c₂', hg, hb, hc₂⟩ := (hf ha).shadowed hc₁ hroom hrest hm
    exact ⟨b', c₂', by rw [run_bind_of hq, hg], hb, hc₂⟩

theorem bind [Matched R] {p q : Parse α} {f g : α → Parse β} (h : Shadows toks d m k S R p q)
    (hf : ∀ {a a'}, R a a' → Shadows toks d m k T Q (f a) (g a')) :
    Shadows toks d m k T Q (p >>= f) (q >>= g) :=
  h.andThen (fun _ => .inl (Nat.le_refl k)) (fun _ _ => .inr) hf

theorem option [Matched R] {p q : Parse (Option α)} {f g : Option α → Parse β}
    (h : Shadows toks d m k Found (Option.Rel R) p q)
    (hsome : ∀ {a a'}, R a a' → Shadows toks d m (k + 1) Loose Q (f (some a)) (g (some a')))
    (hnone : Shadows toks d m k T Q (f none) (g none)) : Shadows toks d m k T Q (p >>= f) (q >>= g) := by
  refine h.andThen (l := fun r => r.elim k fun _ => k + 1) (U := fun r => r.elim T fun _ => Loose) ?_ ?_ ?_
  · rintro (_ | a)
    · exact .inl (Nat.le_refl k)
    · exact .inr ⟨rfl, Nat.le_refl _⟩
  · rintro (_ | a) b hb
    · exact .inr hb
    · exact .inl rfl
  · rintro _ _ (ha | _)
    · exact hsome ha
    · exact hnone

theorem fromHere {f g : Nat → Parse β} (hf : ∀ i, Shadows toks d m k T Q (f i) (g (d.place i))) :
    Shadows toks d m k T Q (here >>= f) (here >>= g) where
  advances {c _ _} hrun := (hf c.pos).advances hrun
  shadowed {c c' _ _} hc hk hrun hm := by
    obtain ⟨b', c₁', hg, hb, hc₁⟩ := (hf c.pos).shadowed hc hk hrun hm
    rw [← hc.pos] at hg
    exact ⟨b', c₁', hg, hb, hc₁⟩

theorem liftLimit : Shadows toks d m k Loose Eq (limitTo none) (limitTo none) where
  advances hrun := by
    cases hrun
    exact ⟨Nat.le_refl _, False.elim⟩
  shadowed hc _ hrun _ := by
    cases hrun
    exact ⟨(), _, rfl, rfl, hc.pos, hc.le, ⟨nofun⟩, fun _ _ => rfl⟩

theorem discard [Matched R] {p q : Parse α} (h : Shadows toks d m k S R p q) :
    Shadows toks d m k Loose Eq (discard p) (discard q) :=
  h.bind fun _ => .pure rfl id

theorem lift {x y : Except Failure α} (h : ∀ a, x = .ok a → ∃ a', y = .ok a' ∧ R a a') :
    Shadows toks d m k Loose R (liftM x) (liftM y) where
  advances hrun := by
    cases x with
    | error e => cases hrun
    | ok b =>
      cases hrun
      exact ⟨Nat.le_refl _, False.elim⟩
  shadowed hc _ hrun _ := by
    cases x with
    | error e => cases hrun
    | ok b =>
      obtain ⟨b', hb', hR⟩ := h b rfl
      cases hrun
      exact ⟨b', _, by rw [hb']; rfl, hR, hc⟩

def orBack (start : Nat) : Option α → Parse (Option α)
  | some a => return some a
  | none => do goTo start; return none

theorem run_attempt (p : Parse (Option α)) (c : Cursor) :
    (attempt p).run c = (p >>= orBack c.pos).run c :=
  rfl

theorem attempt [Matched R] {p q : Parse (Option α)} (h : Shadows toks d m k Found (Option.Rel R) p q)
    (hstay : ∀ {c}, c.Sound toks → c.pos ≤ m →
      Ensures (.free toks) p c fun r c₁ => r = none → c₁.pos ≤ m) :
    Shadows toks d m k Found (Option.Rel R) (attempt p) (attempt q) where
  advances {c r c₂} hrun := by
    rw [run_attempt] at hrun
    obtain ⟨r₁, c₁, hp, hrest⟩ := exists_of_run_bind hrun
    cases r₁ with
    | some a =>
      cases hrest
      exact h.advances hp
    | none =>
      cases hrest
      exact ⟨Nat.le_refl _, nofun⟩
  shadowed {c c' r c₂} hc hk hrun hm := by
    rw [run_attempt] at hrun ⊢
    obtain ⟨r₁, c₁, hp, hrest⟩ := exists_of_run_bind hrun
    cases r₁ with
    | some a =>
      cases hrest
      obtain ⟨r', c₁', hq, hr, hc₁⟩ := h.shadowed hc hk hp hm
      cases hr with
      | some ha => exact ⟨_, c₁', run_bind_of hq, .some ha, hc₁⟩
    | none =>
      cases hrest
      have hle := (h.advances hp).1
      obtain ⟨r', c₁', hq, hr, hc₁⟩ := h.shadowed hc hk hp ((hstay hc.sound hc.le).left hp rfl)
      cases hr
      refine ⟨none, { c₁' with pos := c'.pos }, run_bind_of hq, .none, hc.pos, hc.le, ?_, hc₁.reach⟩
      exact hc₁.sound.goBack hle

theorem firstOf_nil {R : α → α → Prop} :
    Shadows toks d m k Found (Option.Rel R) (firstOf []) (firstOf []) :=
  .pure .none nofun

theorem firstOf_cons [Matched R] {p q : Parse (Option α)} {ps qs : List (Parse (Option α))}
    (h : Shadows toks d m k Found (Option.Rel R) p q)
    (hs : Shadows toks d m k Found (Option.Rel R) (firstOf ps) (firstOf qs)) :
    Shadows toks d m k Found (Option.Rel R) (firstOf (p :: ps)) (firstOf (q :: qs)) :=
  .option h (fun ha => .pure (.some ha) id) hs

theorem firstOf_map [Matched R] {ι : Type} {f g : ι → Parse (Option α)} :
    ∀ {is : List ι}, (∀ i ∈ is, Shadows toks d m k Found (Option.Rel R) (f i) (g i)) →
      Shadows toks d m k Found (Option.Rel R) (firstOf (is.map f)) (firstOf (is.map g))
  | [], _ => firstOf_nil
  | i :: _, h =>
    firstOf_cons (h i List.mem_cons_self) (firstOf_map fun j hj => h j (List.mem_cons_of_mem i hj))

theorem need [Matched R] {toks' : Array Token} {p q : Parse (Option α)} {S : Option α → Prop}
    (h : Shadows toks d m k S (Option.Rel R) p q) (description : String) :
    Shadows toks d m k Loose R (need toks p description) (need toks' q description) := by
  refine .bind h fun hr => ?_
  cases hr with
  | some ha => exact .pure ha id
  | none => exact .fault _ _

/-! ### Repetition -/

theorem round {p : Parse α} {q : Nat → Parse α} {n : Nat}
    (h : ∀ l, m < l + 1 + k → Shadows toks d m k S R p (q (l + 1))) (hn : m < n + k) :
    Shadows toks d m k S R p (q n) := by
  cases n with
  | zero => exact (h m (by omega)).beyond (by omega) _
  | succ l => exact h l hn

theorem repeated [Matched R] {p q : Parse (Option α)} (h : Shadows toks d m k Found (Option.Rel R) p q) (n : Nat)
    {n' : Nat} (hn : m < n' + k) :
    Shadows toks d m k Loose (List.Forall₂ R) (repeated p n) (repeated q n') := by
  induction n generalizing k n' with
  | zero => exact .throw _ _
  | succ n ih =>
    refine .round (fun l hl => .option h (fun ha => ?_) (.pure .nil id)) hn
    exact .bind (ih h.later (by omega)) fun has => .pure (.cons ha has) id

theorem extended {p q : Tree → Parse (Option Tree)}
    (h : ∀ {t t'}, Tree.Moved d t t' → Shadows toks d m k Found (Option.Rel (Tree.Moved d)) (p t) (q t'))
    (n : Nat) {n' : Nat} (hn : m < n' + k) {t t' : Tree} (ht : Tree.Moved d t t') :
    Shadows toks d m k Loose (Tree.Moved d) (extended p n t) (extended q n' t') := by
  induction n generalizing k n' t t' with
  | zero => exact .throw _ _
  | succ n ih =>
    refine .round (q := (Grammar.extended q · t')) (fun l hl => .option (h ht) (fun hu => ?_) (.pure ht id)) hn
    exact ih (fun ht => (h ht).later) (by omega) hu

theorem passAll [Matched R] {p q : Parse (Option α)} (h : Shadows toks d m k Found (Option.Rel R) p q) (n : Nat)
    {n' : Nat} (hn : m < n' + k) : Shadows toks d m k Loose Eq (passAll p n) (passAll q n') := by
  induction n generalizing k n' with
  | zero => exact .throw _ _
  | succ n ih => exact .round (fun l hl => .option h (fun _ => ih h.later (by omega)) (.pure rfl id)) hn

theorem made (h : List.Forall₂ (Tree.Moved d) fs fs') {kind : NodeKind} {start : Nat} :
    Shadows toks d m k Loose (Option.Rel (Tree.Moved d)) (do return some (.made kind fs start (← here)))
      (do return some (.made kind fs' (d.place start) (← here))) :=
  .fromHere fun stop => .pure (.some (.made h start stop)) id

end Shadows

/-! ### Taking tokens -/

theorem advances_accept (hp : p.isSolid = true) {r : Option Token}
    (hrun : (accept toks p).run c = .ok (r, c₁)) : c.pos ≤ c₁.pos ∧ (Found r → c.pos < c₁.pos) := by
  obtain ⟨t, x, ht, -, hok⟩ | ⟨-, hok⟩ := accept_cases toks hp c
  · rw [hok] at hrun
    cases hrun
    have hle := ht.blank.le
    exact ⟨Nat.le_succ_of_le hle, fun _ => Nat.lt_succ_of_le hle⟩
  · rw [hok] at hrun
    cases hrun
    exact ⟨Nat.le_refl _, nofun⟩

theorem le_of_accept {toks' : Array Token} {d : Shift} {m : Nat} (w : Window toks toks' d m)
    (hp : p.isSolid = true) (hfunction : (Token.keyword "function").fits p = false) {r : Option Token}
    (hle : c.pos ≤ m) (hrun : (accept toks p).run c = .ok (r, c₁)) : c₁.pos ≤ m := by
  obtain ⟨t, x, ht, -, hok⟩ | ⟨-, hok⟩ := accept_cases toks hp c
  · rw [hok] at hrun
    cases hrun
    exact w.lt_of_takes ht hle (by simpa using hfunction)
  · rw [hok] at hrun
    cases hrun
    exact hle

namespace Shadows

section Tokens

variable {β : Type} {toks toks' : Array Token} {d : Shift} {m k : Nat} (w : Window toks toks' d m)
  {T : β → Prop} {Q : β → β → Prop}
include w

theorem accept_some (hp : p.isSolid = true) {c' : Cursor} (hc : Abreast toks d m c c')
    (hrun : (Grammar.accept toks p).run c = .ok (some t, c₁)) (hm : c₁.pos ≤ m) :
    ∃ t' c₁', (Grammar.accept toks' p).run c' = .ok (some t', c₁') ∧ Token.Same t t' ∧
      Abreast toks d m c₁ c₁' := by
  obtain ⟨u, x, hu, hreach, hok⟩ | ⟨-, hok⟩ := accept_cases toks hp c
  · rw [hok] at hrun
    cases hrun
    obtain ⟨t', ht', hsame⟩ := w.takes hu hm
    rw [← hc.pos] at ht'
    have hreach' := (hc.reach x hm).trans hreach
    refine ⟨t', _, run_accept_of_takes hp ht' hreach', hsame, ?_, hm, ⟨fun l hl => ?_⟩, hc.reach⟩
    · exact Nat.add_right_comm x d.offset 1
    · have hlimit : c.limit = some l := hl
      rw [hlimit, Option.all_some, decide_eq_true_eq] at hreach
      exact ⟨hreach, (hc.sound.limit l hlimit).2⟩
  · rw [hok] at hrun
    cases hrun

theorem accept [hp : p.Solid] (hend : (Token.keyword "end").fits p = false) :
    Shadows toks d m k Found (Option.Rel Token.Same) (Grammar.accept toks p) (Grammar.accept toks' p) where
  advances hrun := advances_accept hp.isSolid hrun
  shadowed {c c' r c₁} hc _ hrun hm := by
    cases r with
    | some t =>
      obtain ⟨t', c₁', hrun', hsame, hc₁⟩ := accept_some w hp.isSolid hc hrun hm
      exact ⟨some t', c₁', hrun', .some hsame, hc₁⟩
    | none =>
      obtain ⟨u, x, -, -, hok⟩ | ⟨hnot, hok⟩ := accept_cases toks hp.isSolid c
      · rw [hok] at hrun
        cases hrun
      · rw [hok] at hrun
        cases hrun
        refine ⟨none, c', run_accept_of_not_takes hp.isSolid fun t' x ht' => ?_, .none, hc⟩
        rw [hc.pos] at ht'
        obtain ⟨y, t, rfl, hy, ht⟩ := w.of_takes ht' hc.le (by simpa using hend)
        rw [hc.reach y hy]
        exact hnot t y ht

theorem lead {f g : Option Token → Parse β}
    (hsome : ∀ {t t'}, Token.Same t t' → Shadows toks d m (k + 1) Loose Q (f (some t)) (g (some t')))
    (hnone : Shadows toks d m k T Q (f none) (g none)) [p.Solid]
    (hend : (Token.keyword "end").fits p = false) :
    Shadows toks d m k T Q (Grammar.accept toks p >>= f) (Grammar.accept toks' p >>= g) :=
  .option (accept w hend) hsome hnone

theorem expect [hp : p.Solid] :
    Shadows toks d m k Loose Token.Same (Grammar.expect toks p) (Grammar.expect toks' p) where
  advances hrun := by
    obtain ⟨r, c₁, haccept, hrest⟩ := exists_of_run_bind hrun
    cases r with
    | none => cases hrest
    | some t =>
      cases hrest
      exact ⟨(advances_accept hp.isSolid haccept).1, False.elim⟩
  shadowed hc hk hrun hm := by
    obtain ⟨r, c₁, haccept, hrest⟩ := exists_of_run_bind hrun
    cases r with
    | none => cases hrest
    | some t =>
      cases hrest
      obtain ⟨t', c₁', hrun', hsame, hc₁⟩ := accept_some w hp.isSolid hc haccept hm
      exact ⟨t', c₁', run_bind_of hrun', hsame, hc₁⟩

theorem skip {f g : Parse β} (h : Shadows toks d m k T Q f g) [p.Solid] :
    Shadows toks d m k T Q (do Functor.discard (Grammar.expect toks p); f)
      (do Functor.discard (Grammar.expect toks' p); g) :=
  (expect w).discard.bind fun _ => h

end Tokens

end Shadows
end Grammar
end Cartridge.Lua
