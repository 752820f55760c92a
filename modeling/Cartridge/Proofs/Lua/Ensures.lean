import Cartridge.Proofs.Lua.Nodes

/-!
# What parsers ensure

A parser is taken by what it comes to from a cursor on: what it leaves, and how it may fail.  Sequencing
and choice are reduced to their parts, and taking a token to the next word behind a gap.

Besides the phrases that are found, account is taken of the failures, and of the end of the line as a
limit: there is one limit only, it is set for a conditional on one line, and it is lifted when such a
conditional has been read.  What is said of failures and limits is left open here, so that one walk
through the grammar serves for little and for much.

A cursor is *onward* from another one if it has not gone back behind it, if as many tokens as needed are
before it, and if the limit is kept or has been lifted where it may be.
-/

namespace Cartridge.Lua

def OnOneLine (toks : Array Token) (i j : Nat) : Prop :=
  ∀ n t, i ≤ n → n < j → toks[n]? = some t → t.kind ≠ .newline

structure Cursor.Sound (toks : Array Token) (c : Cursor) : Prop where
  limit : ∀ l, c.limit = some l → c.pos ≤ l ∧ ∀ t, toks[l]? = some t → t.kind = .newline

theorem Cursor.Sound.goBack {toks : Array Token} {c : Cursor} (hc : c.Sound toks) {i : Nat}
    (hi : i ≤ c.pos) : Cursor.Sound toks { c with pos := i } :=
  ⟨fun l hl => ⟨Nat.le_trans hi (hc.limit l hl).1, (hc.limit l hl).2⟩⟩

namespace Grammar

theorem exists_of_run_bind {α β : Type} {p : Parse α} {f : α → Parse β} {c c₂ : Cursor} {b : β}
    (h : (p >>= f).run c = .ok (b, c₂)) :
    ∃ a c₁, p.run c = .ok (a, c₁) ∧ (f a).run c₁ = .ok (b, c₂) := by
  rw [StateT.run_bind] at h
  cases hp : p.run c with
  | error e =>
    rw [hp] at h
    cases h
  | ok r =>
    rw [hp] at h
    exact ⟨r.1, r.2, rfl, h⟩

theorem run_bind_of {α β : Type} {p : Parse α} {f : α → Parse β} {c c₁ : Cursor} {a : α}
    (h : p.run c = .ok (a, c₁)) : (p >>= f).run c = (f a).run c₁ := by
  rw [StateT.run_bind, h]
  rfl

/-! ### Taking a word -/

section Taking

variable {toks : Array Token} {p : Pattern} {c : Cursor} {t : Token} {i n x : Nat}

theorem blank_seek (toks : Array Token) (p : Pattern) (n i : Nat) :
    Blank toks i (seek toks p n i) := by
  induction n generalizing i with
  | zero => exact .refl toks i
  | succ n ih =>
    rw [seek]
    split
    · exact .refl toks i
    · next t ht =>
      split
      · exact .refl toks i
      · next hskip =>
        have hgap : t.isGap = true := by
          cases hg : t.isGap with
          | true => rfl
          | false => simp [hg] at hskip
        have hone : Blank toks i (i + 1) := by
          refine ⟨Nat.le_succ i, fun n hin hni => ?_⟩
          obtain rfl : n = i := by omega
          exact ⟨t, ht, hgap⟩
        exact hone.trans (ih (i + 1))

theorem seek_of_takes (hp : p.isSolid = true) {m : Nat} (h : Takes toks [p] i t m) (hn : m < i + n) :
    seek toks p n i = m := by
  induction n generalizing i with
  | zero =>
    have hle := h.blank.le
    omega
  | succ n ih =>
    have hle := h.blank.le
    rw [seek]
    by_cases him : i = m
    · subst him
      obtain ⟨q, hq, hfits⟩ := h.fits
      rw [List.mem_singleton.mp hq] at hfits
      simp [h.get, hfits]
    · obtain ⟨u, hu, hgap⟩ := h.blank.gap i (Nat.le_refl i) (by omega)
      simp only [hu, Pattern.not_fits_of_isGap hp hgap, hgap, Bool.not_true, Bool.or_self,
        Bool.false_eq_true, if_false]
      exact ih (h.of_le (Nat.le_succ i) (by omega)) (by omega)

theorem run_accept_of_takes (hp : p.isSolid = true) (h : Takes toks [p] c.pos t x)
    (hreach : c.limit.all (fun l => decide (x < l)) = true) :
    (accept toks p).run c = .ok (some t, ⟨x + 1, c.limit⟩) := by
  have hlt := h.lt_size
  obtain ⟨q, hq, hfits⟩ := h.fits
  rw [List.mem_singleton.mp hq] at hfits
  rw [run_accept, seek_of_takes hp h (by omega), h.get]
  dsimp only
  rw [if_pos (by rw [hfits, hreach]; rfl)]

theorem run_accept_of_not_takes (hp : p.isSolid = true)
    (h : ∀ t x, Takes toks [p] c.pos t x → c.limit.all (fun l => decide (x < l)) = false) :
    (accept toks p).run c = .ok (none, c) := by
  rw [run_accept]
  split
  · next t ht =>
    split
    · next htaken =>
      rw [Bool.and_eq_true] at htaken
      have hsolid : t.isGap = false := by
        cases hg : t.isGap with
        | false => rfl
        | true =>
          rw [Pattern.not_fits_of_isGap hp hg] at htaken
          cases htaken.1
      have hnot := h t _ ⟨blank_seek toks p _ _, ht, hsolid, p, List.mem_singleton.mpr rfl, htaken.1⟩
      rw [htaken.2] at hnot
      cases hnot
    · rfl
  · rfl

theorem accept_cases (toks : Array Token) (hp : p.isSolid = true) (c : Cursor) :
    (∃ t x, Takes toks [p] c.pos t x ∧ c.limit.all (fun l => decide (x < l)) = true ∧
      (accept toks p).run c = .ok (some t, ⟨x + 1, c.limit⟩)) ∨
    (∀ t x, Takes toks [p] c.pos t x → c.limit.all (fun l => decide (x < l)) = false) ∧
      (accept toks p).run c = .ok (none, c) := by
  by_cases h : ∃ t x, Takes toks [p] c.pos t x ∧ c.limit.all (fun l => decide (x < l)) = true
  · obtain ⟨t, x, ht, hreach⟩ := h
    exact .inl ⟨t, x, ht, hreach, run_accept_of_takes hp ht hreach⟩
  · have hnot : ∀ t x, Takes toks [p] c.pos t x → c.limit.all (fun l => decide (x < l)) = false := by
      intro t x ht
      rw [← Bool.not_eq_true]
      exact fun hreach => h ⟨t, x, ht, hreach⟩
    exact .inr ⟨hnot, run_accept_of_not_takes hp hnot⟩

end Taking

/-! ### The end of the line -/

section Lines

variable {toks : Array Token} {i j : Nat}

theorem lineEnd_spec {n : Nat} (hn : toks.size ≤ i + n) :
    i ≤ lineEnd toks n i ∧ ∀ t, toks[lineEnd toks n i]? = some t → t.kind = .newline := by
  induction n generalizing i with
  | zero =>
    refine ⟨Nat.le_refl i, fun t ht => ?_⟩
    rw [lineEnd, Array.getElem?_eq_none (by omega)] at ht
    cases ht
  | succ n ih =>
    rw [lineEnd]
    cases hi : toks[i]? with
    | none => exact ⟨Nat.le_refl i, fun t ht => by rw [hi] at ht; cases ht⟩
    | some u =>
      dsimp only
      split
      · next hnewline =>
        refine ⟨Nat.le_refl i, fun t ht => ?_⟩
        rw [hi] at ht
        rw [← Option.some.inj ht]
        exact eq_of_beq hnewline
      · obtain ⟨hle, hnewline⟩ := ih (i := i + 1) (by omega)
        exact ⟨by omega, hnewline⟩

theorem onOneLine_lineEnd (toks : Array Token) (n i : Nat) :
    OnOneLine toks i (lineEnd toks n i) := by
  induction n generalizing i with
  | zero =>
    intro m t him hmi
    rw [lineEnd] at hmi
    omega
  | succ n ih =>
    intro m t him hmi ht
    rw [lineEnd] at hmi
    split at hmi
    · omega
    · next u hu =>
      split at hmi
      · omega
      · next hnewline =>
        -- the token at `i` is no newline, and the others are looked at from the next one on
        by_cases hm : m = i
        · subst hm
          rw [hu] at ht
          obtain rfl := Option.some.inj ht
          simpa using hnewline
        · exact ih (i + 1) m t (by omega) hmi ht

def lineStop (toks : Array Token) (i : Nat) : Nat := lineEnd toks (toks.size - i) i

theorem sound_lineStop (toks : Array Token) (i : Nat) :
    Cursor.Sound toks ⟨i, some (lineStop toks i)⟩ := by
  refine ⟨fun l hl => ?_⟩
  obtain rfl := Option.some.inj hl
  have hsize : toks.size ≤ i + (toks.size - i) := by omega
  exact lineEnd_spec hsize

theorem lineStop_succ (h : i < lineStop toks i) : lineStop toks (i + 1) = lineStop toks i := by
  unfold lineStop at h ⊢
  cases hn : toks.size - i with
  | zero =>
    rw [hn, lineEnd] at h
    omega
  | succ n =>
    have hn' : toks.size - (i + 1) = n := by omega
    rw [hn, lineEnd] at h
    rw [hn', lineEnd]
    split at h
    · omega
    · split at h
      · omega
      · next hother => exact (if_neg hother).symm

theorem lineStop_eq_of_le (hij : i ≤ j) (hj : j ≤ lineStop toks i) :
    lineStop toks j = lineStop toks i := by
  induction hij with
  | refl => rfl
  | step hik ih =>
    have hk := ih (by omega)
    rw [← hk]
    exact lineStop_succ (by omega)

end Lines

/-! ### What parsers come to -/

abbrev HasIf (toks : Array Token) (q : Nat) : Prop :=
  ∃ t, toks[q]? = some t ∧ t.agrees (Token.keyword "if") = true

theorem Takes.hasIf {toks : Array Token} {i m : Nat} {t : Token}
    (h : Takes toks [.exact (Token.keyword "if")] i t m) : HasIf toks m := by
  obtain ⟨q, hq, hfits⟩ := h.fits
  rw [List.mem_singleton.mp hq] at hfits
  exact ⟨t, h.get, hfits⟩

/-- What account is taken of: how parsers may fail, and where limits may be set and lifted. -/
structure Account (toks : Array Token) where
  fails : Failure → Prop
  /-- The limits that a cursor may have been given, by the place where it was given them. -/
  sets : Nat → Nat → Prop
  lifts : Nat → Nat → Prop
  fault : ∀ wanted place, fails (.grammar wanted place)
  /-- The end of the line is the limit behind a condition that ends with a parenthesis. -/
  sets_lineStop : ∀ {q k : Nat}, q < k → HasIf toks q → closesBefore toks k = true →
    sets k (lineStop toks k)

def Account.free (toks : Array Token) : Account toks where
  fails _ := True
  sets _ _ := True
  lifts _ _ := True
  fault _ _ := trivial
  sets_lineStop _ _ _ := trivial

def Ensures {toks : Array Token} {α : Type} (A : Account toks) (p : Parse α) (c : Cursor)
    (Q : α → Cursor → Prop) : Prop :=
  match p.run c with
  | .ok (a, c') => Q a c'
  | .error e => A.fails e

namespace Ensures

section Steps

variable {α β : Type} {toks : Array Token} {A B : Account toks} {c : Cursor}

theorem pure {a : α} {Q : α → Cursor → Prop} (h : Q a c) : Ensures A (pure a) c Q := h

theorem throw {e : Failure} (he : A.fails e) {Q : α → Cursor → Prop} :
    Ensures A (throw e : Parse α) c Q := he

theorem fault (wanted : Wanted) {Q : α → Cursor → Prop} :
    Ensures A (fault toks wanted : Parse α) c Q :=
  A.fault wanted _

theorem left {p : Parse α} {Q : α → Cursor → Prop} (h : Ensures A p c Q) {a : α} {c' : Cursor}
    (hrun : p.run c = .ok (a, c')) : Q a c' := by
  rw [Ensures, hrun] at h
  exact h

theorem of_left {p : Parse α} {Q : α → Cursor → Prop} (h : ∀ a c', p.run c = .ok (a, c') → Q a c') :
    Ensures (.free toks) p c Q := by
  unfold Ensures
  split
  · next hrun => exact h _ _ hrun
  · trivial

theorem ran {p : Parse α} : Ensures (.free toks) p c fun a c' => p.run c = .ok (a, c') :=
  .of_left fun _ _ hrun => hrun

theorem bind {p : Parse α} {f : α → Parse β} {Q : β → Cursor → Prop}
    (h : Ensures A p c fun a c' => Ensures A (f a) c' Q) : Ensures A (p >>= f) c Q := by
  unfold Ensures at h ⊢
  rw [StateT.run_bind]
  cases hp : p.run c with
  | error e =>
    rw [hp] at h
    exact h
  | ok r =>
    rw [hp] at h
    exact h

theorem mono {p : Parse α} {Q R : α → Cursor → Prop} (h : Ensures A p c Q)
    (hQR : ∀ a c', Q a c' → R a c') : Ensures A p c R := by
  unfold Ensures at h ⊢
  split at h
  · exact hQR _ _ h
  · exact h

theorem and {p : Parse α} {Q R : α → Cursor → Prop} (h : Ensures A p c Q) (h' : Ensures B p c R) :
    Ensures A p c fun a c' => Q a c' ∧ R a c' := by
  unfold Ensures at h ⊢
  split at h
  · next hrun => exact ⟨h, h'.left hrun⟩
  · exact h

theorem andThen {p : Parse α} {f : α → Parse β} {P : α → Cursor → Prop} {Q : β → Cursor → Prop}
    (h : Ensures A p c P) (hf : ∀ a c', P a c' → Ensures A (f a) c' Q) : Ensures A (p >>= f) c Q :=
  .bind (h.mono hf)

theorem fromHere {f : Nat → Parse β} {Q : β → Cursor → Prop} (h : Ensures A (f c.pos) c Q) :
    Ensures A (here >>= f) c Q := h

theorem goTo {i : Nat} {f : Unit → Parse β} {Q : β → Cursor → Prop}
    (h : Ensures A (f ()) { c with pos := i } Q) : Ensures A (goTo i >>= f) c Q := h

theorem limitTo {l : Option Nat} {f : Unit → Parse β} {Q : β → Cursor → Prop}
    (h : Ensures A (f ()) { c with limit := l } Q) : Ensures A (limitTo l >>= f) c Q := h

theorem lift {x : Except Failure α} {f : α → Parse β} {Q : β → Cursor → Prop}
    (h : ∀ a, x = .ok a → Ensures A (f a) c Q) (he : ∀ e, x = .error e → A.fails e) :
    Ensures A (liftM x >>= f) c Q := by
  cases x with
  | error e => exact he e rfl
  | ok a => exact h a rfl

theorem discard {p : Parse α} {f : Unit → Parse β} {Q : β → Cursor → Prop}
    (h : Ensures A p c fun _ c' => Ensures A (f ()) c' Q) : Ensures A (discard p >>= f) c Q :=
  .bind (.andThen h fun _ _ hf => .pure hf)

theorem attempt {p : Parse (Option α)} {Q : Option α → Cursor → Prop}
    (h : Ensures A p c fun r c' => match r with
      | some a => Q (some a) c'
      | none => Q none { c' with pos := c.pos }) : Ensures A (attempt p) c Q := by
  refine .fromHere (.andThen h fun r c' hr => ?_)
  cases r with
  | some a => exact .pure hr
  | none => exact .goTo (.pure hr)

theorem firstOf_nil {Q : Option α → Cursor → Prop} (h : Q none c) : Ensures A (firstOf []) c Q :=
  .pure h

theorem firstOf_cons {p : Parse (Option α)} {ps : List (Parse (Option α))}
    {Q : Option α → Cursor → Prop}
    (h : Ensures A p c fun r c' => match r with
      | some a => Q (some a) c'
      | none => Ensures A (firstOf ps) c' Q) : Ensures A (firstOf (p :: ps)) c Q := by
  refine .andThen h fun r c' hr => ?_
  cases r with
  | some a => exact .pure hr
  | none => exact hr

theorem firstOf_each {ps : List (Parse (Option α))} {Q : α → Cursor → Prop}
    (h : ∀ p ∈ ps, ∀ c, Ensures A p c fun r c' => ∀ a ∈ r, Q a c') (c : Cursor) :
    Ensures A (firstOf ps) c fun r c' => ∀ a ∈ r, Q a c' := by
  induction ps generalizing c with
  | nil => exact .firstOf_nil nofun
  | cons p ps ih =>
    refine .firstOf_cons ((h p List.mem_cons_self c).mono fun r c' hr => ?_)
    cases r with
    | some a => exact hr
    | none => exact ih (fun q hq => h q (List.mem_cons_of_mem p hq)) c'

theorem need {p : Parse (Option α)} {description : String} {P : Option α → Cursor → Prop}
    {Q : α → Cursor → Prop} (h : Ensures A p c P) (hP : ∀ a c', P (some a) c' → Q a c') :
    Ensures A (Grammar.need toks p description) c Q := by
  refine .andThen h fun r c' hr => ?_
  cases r with
  | some a => exact .pure (hP a c' hr)
  | none => exact .fault _

theorem require {p : Parse (Option α)} {description : String} {f : α → Parse β}
    {P : Option α → Cursor → Prop} {Q : β → Cursor → Prop} (h : Ensures A p c P)
    (hf : ∀ a c', P (some a) c' → Ensures A (f a) c' Q) :
    Ensures A (Grammar.need toks p description >>= f) c Q :=
  .bind (.need h hf)

theorem repeated_all {p : Parse (Option α)} {P : α → Prop}
    (h : ∀ c, Ensures (.free toks) p c fun r _ => ∀ a ∈ r, P a) (n : Nat) (c : Cursor) :
    Ensures (.free toks) (Grammar.repeated p n) c fun as _ => ∀ a ∈ as, P a := by
  induction n generalizing c with
  | zero => exact .throw trivial
  | succ n ih =>
    refine .andThen (h c) fun r c₁ hr => ?_
    cases r with
    | none => exact .pure nofun
    | some a => exact .andThen (ih c₁) fun as _ has => .pure (List.forall_mem_cons.mpr ⟨hr a rfl, has⟩)

theorem accept {p : Pattern} {Q : Option Token → Cursor → Prop}
    (hsome : ∀ t m, Takes toks [p] c.pos t m → (∀ l, c.limit = some l → m < l) →
      Q (some t) ⟨m + 1, c.limit⟩)
    (hnone : (∀ t m, Takes toks [p] c.pos t m → ∃ l, c.limit = some l ∧ l ≤ m) → Q none c)
    [hp : p.Solid] : Ensures A (Grammar.accept toks p) c Q := by
  obtain ⟨t, m, ht, hreach, hrun⟩ | ⟨hleft, hrun⟩ := accept_cases toks hp.isSolid c
  · rw [Ensures, hrun]
    refine hsome t m ht fun l hl => ?_
    rw [hl, Option.all_some, decide_eq_true_eq] at hreach
    exact hreach
  · rw [Ensures, hrun]
    refine hnone fun t m ht => ?_
    have hout := hleft t m ht
    cases hl : c.limit with
    | none =>
      rw [hl] at hout
      cases hout
    | some l =>
      rw [hl, Option.all_some, decide_eq_false_iff_not] at hout
      exact ⟨l, rfl, Nat.le_of_not_lt hout⟩

theorem acceptFirst (ps : List Pattern) (hps : ∀ p ∈ ps, p.isSolid = true)
    {Q : Option Token → Cursor → Prop}
    (hsome : ∀ t m, Takes toks ps c.pos t m → (∀ l, c.limit = some l → m < l) →
      Q (some t) ⟨m + 1, c.limit⟩)
    (hnone : (∀ t m, Takes toks ps c.pos t m → ∃ l, c.limit = some l ∧ l ≤ m) → Q none c) :
    Ensures A (firstOf (ps.map (Grammar.accept toks))) c Q := by
  induction ps with
  | nil =>
    refine .firstOf_nil (hnone fun t m ht => ?_)
    obtain ⟨q, hq, -⟩ := ht.fits
    cases hq
  | cons p ps ih =>
    have hp : p.Solid := ⟨hps p List.mem_cons_self⟩
    refine .firstOf_cons (.accept (fun t m ht hreach => ?_) fun hleft => ?_)
    · exact hsome t m (ht.mono (List.cons_subset_cons p (List.nil_subset ps))) hreach
    · refine ih (fun q hq => hps q (List.mem_cons_of_mem p hq)) (fun t m ht hreach => ?_) fun hrest => ?_
      · exact hsome t m (ht.mono (List.subset_cons_self p ps)) hreach
      · refine hnone fun t m ht => ?_
        obtain ⟨q, hq, hfits⟩ := ht.fits
        obtain rfl | hq := List.mem_cons.mp hq
        · exact hleft t m ⟨ht.blank, ht.get, ht.solid, q, List.mem_singleton.mpr rfl, hfits⟩
        · exact hrest t m ⟨ht.blank, ht.get, ht.solid, q, hq, hfits⟩

end Steps

end Ensures

/-! ### Moving on -/

/-- The cursor has come from `c₀` to a place with at least `k` tokens before it.  It has the limit that
it had, which is not behind it, or it has none, where a conditional may have lifted that. -/
structure Onward {toks : Array Token} (A : Account toks) (c₀ : Cursor) (k : Nat) (c : Cursor) : Prop where
  start : c₀.Sound toks
  set : ∀ l, c₀.limit = some l → A.sets c₀.pos l
  le : c₀.pos ≤ c.pos
  room : k ≤ c.pos
  size : c.pos ≤ toks.size
  limit : (c.limit = c₀.limit ∧ ∀ l, c.limit = some l → c.pos ≤ l) ∨
    (c.limit = none ∧ ∀ l, c₀.limit = some l → ∃ q, c₀.pos ≤ q ∧ q < l ∧ A.lifts q l)

namespace Onward

variable {toks : Array Token} {A : Account toks} {c₀ c c' : Cursor} {i j k : Nat}

theorem refl (hc : c.Sound toks) (hset : ∀ l, c.limit = some l → A.sets c.pos l) (hk : k ≤ c.pos)
    (hsize : c.pos ≤ toks.size) : Onward A c k c :=
  ⟨hc, hset, Nat.le_refl _, hk, hsize, .inl ⟨rfl, fun l hl => (hc.limit l hl).1⟩⟩

theorem unlimited (hk : k ≤ i) (hsize : i ≤ toks.size) : Onward A ⟨i, none⟩ k ⟨i, none⟩ :=
  .refl ⟨nofun⟩ nofun hk hsize

theorem sound (h : Onward A c₀ k c) : c.Sound toks := by
  refine ⟨fun l hl => ?_⟩
  obtain ⟨hkept, hle⟩ | ⟨hnone, -⟩ := h.limit
  · exact ⟨hle l hl, (h.start.limit l (hkept.symm.trans hl)).2⟩
  · cases hnone.symm.trans hl

theorem counting (h : Onward A c₀ j c) (hk : k ≤ c.pos) : Onward A c₀ k c :=
  ⟨h.start, h.set, h.le, hk, h.size, h.limit⟩

theorem less (h : Onward A c₀ (k + 1) c) : Onward A c₀ k c := h.counting (Nat.le_of_succ_le h.room)

theorem goBack (h : Onward A c₀ j c') (hc : Onward A c₀ k c) (hle : c.pos ≤ c'.pos) :
    Onward A c₀ k { c' with pos := c.pos } := by
  refine ⟨h.start, h.set, hc.le, hc.room, hc.size, h.limit.imp_left fun hkept => ⟨hkept.1, fun l hl => ?_⟩⟩
  exact Nat.le_trans hle (hkept.2 l hl)

theorem take (h : Onward A c₀ k c) {ps : List Pattern} {t : Token} {m : Nat}
    (ht : Takes toks ps c.pos t m) (hreach : ∀ l, c.limit = some l → m < l) :
    Onward A c₀ (k + 1) ⟨m + 1, c.limit⟩ := by
  have hle := ht.blank.le
  refine ⟨h.start, h.set, Nat.le_trans h.le (Nat.le_succ_of_le hle),
    Nat.succ_le_succ (Nat.le_trans h.room hle), ht.lt_size, ?_⟩
  exact h.limit.imp_left fun hkept => ⟨hkept.1, hreach⟩

end Onward

namespace Ensures

variable {β : Type} {toks : Array Token} {A : Account toks} {c₀ c : Cursor} {k : Nat} {p : Pattern}

theorem take (hc : Onward A c₀ k c) {f : Option Token → Parse β}
    {Q : β → Cursor → Prop}
    (hsome : ∀ t m, Takes toks [p] c.pos t m → Onward A c₀ k ⟨m + 1, c.limit⟩ →
      Ensures A (f (some t)) ⟨m + 1, c.limit⟩ Q)
    (hnone : Ensures A (f none) c Q) [p.Solid] :
    Ensures A (Grammar.accept toks p >>= f) c Q :=
  .bind (.accept (fun t m ht hreach => hsome t m ht (hc.take ht hreach).less) fun _ => hnone)

theorem lead (hc : Onward A c₀ k c) {f : Option Token → Parse β}
    {Q : β → Cursor → Prop}
    (hsome : ∀ t m, Takes toks [p] c.pos t m → Onward A c₀ (k + 1) ⟨m + 1, c.limit⟩ →
      Ensures A (f (some t)) ⟨m + 1, c.limit⟩ Q)
    (hnone : Ensures A (f none) c Q) [p.Solid] :
    Ensures A (Grammar.accept toks p >>= f) c Q :=
  .bind (.accept (fun t m ht hreach => hsome t m ht (hc.take ht hreach)) fun _ => hnone)

theorem leadFirst (ps : List Pattern) (hps : ∀ p ∈ ps, p.isSolid = true) (hc : Onward A c₀ k c)
    {Q : Option Token → Cursor → Prop}
    (hsome : ∀ t m, Takes toks ps c.pos t m → Onward A c₀ (k + 1) ⟨m + 1, c.limit⟩ →
      Q (some t) ⟨m + 1, c.limit⟩)
    (hnone : Q none c) : Ensures A (firstOf (ps.map (Grammar.accept toks))) c Q :=
  .acceptFirst ps hps (fun t m ht hreach => hsome t m ht (hc.take ht hreach)) fun _ => hnone

theorem expect (hc : Onward A c₀ k c) {f : Token → Parse β}
    {Q : β → Cursor → Prop}
    (h : ∀ t m, Takes toks [p] c.pos t m → Onward A c₀ k ⟨m + 1, c.limit⟩ →
      Ensures A (f t) ⟨m + 1, c.limit⟩ Q) [p.Solid] :
    Ensures A (Grammar.expect toks p >>= f) c Q := by
  refine .bind (.take hc (fun t m ht hc' => ?_) (.fault _))
  exact .pure (h t m ht hc')

theorem skip (hc : Onward A c₀ k c) {f : Unit → Parse β}
    {Q : β → Cursor → Prop}
    (h : ∀ t m, Takes toks [p] c.pos t m → Onward A c₀ k ⟨m + 1, c.limit⟩ →
      Ensures A (f ()) ⟨m + 1, c.limit⟩ Q) [p.Solid] :
    Ensures A (Functor.discard (Grammar.expect toks p) >>= f) c Q := by
  refine .discard ?_
  refine .take hc (fun t m ht hc' => ?_) (.fault _)
  exact .pure (h t m ht hc')

end Ensures

/-! ### Rounds -/

/-- What holds before a round if it holds after every round that moves on, holds before all rounds:
there are more rounds than tokens. -/
theorem rounds_induct {toks : Array Token} {P : Nat → Cursor → Prop}
    (step : ∀ n c, (∀ c', c.pos < c'.pos → c'.pos ≤ toks.size → P n c') → P (n + 1) c)
    (c : Cursor) (hc : c.pos ≤ toks.size) : P (rounds toks) c := by
  suffices hrounds : ∀ (n : Nat) (c : Cursor), c.pos ≤ toks.size → toks.size < n + c.pos → P n c from
    hrounds _ c hc (by rw [rounds]; omega)
  intro n
  induction n with
  | zero =>
    -- the cursor would be behind the end
    intro c hc hn
    omega
  | succ n ih => exact fun c hc hn => step n c fun c' hlt hsize => ih c' hsize (by omega)

theorem Ensures.semicolons {toks : Array Token} {A : Account toks} {c₀ c : Cursor} {k : Nat}
    (hc : Onward A c₀ k c) :
    Ensures A (semicolons toks) c fun _ c' => Onward A c₀ k c' ∧ Semicolons toks c.pos c'.pos ∧
      ∀ t, toks[c'.pos]? = some t → t.agrees (Token.symbol ";") = false := by
  refine rounds_induct (P := fun n c => Onward A c₀ k c → Ensures A (passAll (symbol toks ";") n) c
    fun _ c' => Onward A c₀ k c' ∧ Semicolons toks c.pos c'.pos ∧
      ∀ t, toks[c'.pos]? = some t → t.agrees (Token.symbol ";") = false)
    (fun n c ih hc => ?_) c hc.size hc
  refine .bind (.accept (fun t m ht hreach => ?_) fun hleft => ?_)
  · have hc' := (hc.take ht hreach).less
    refine (ih _ (Nat.lt_succ_of_le ht.blank.le) hc'.size hc').mono fun _ c₂ hc₂ => ?_
    exact ⟨hc₂.1, .cons ht hc₂.2.1, hc₂.2.2⟩
  · refine .pure ⟨hc, .nil c.pos, fun t ht => Bool.eq_false_iff.mpr fun hfits => ?_⟩
    -- it would be in reach: a limit at the cursor is a newline
    have hkind : t.kind = .symbol := kind_eq_of_agrees hfits
    have hsolid : t.isGap = false := by rw [Token.isGap, hkind]; rfl
    obtain ⟨l, hl, hle⟩ := hleft t c.pos ⟨.refl toks c.pos, ht, hsolid, _, List.mem_singleton.mpr rfl, hfits⟩
    obtain ⟨hpos, hnewline⟩ := hc.sound.limit l hl
    obtain rfl : l = c.pos := Nat.le_antisymm hle hpos
    cases hkind.symm.trans (hnewline t ht)

end Grammar

open Grammar in
theorem Tree.ofTokens_eq_ok_iff_run {toks : Array Token} {root : Tree} :
    Tree.ofTokens toks = .ok root ↔ ∃ c, (phrase toks (toks.size + 1) .block).run {} = .ok (some root, c) := by
  rw [Tree.ofTokens]
  constructor
  · intro h
    cases hrun : (need toks (phrase toks (toks.size + 1) .block) "input to be a program").run {} with
    | error e =>
      rw [hrun] at h
      cases h
    | ok r =>
      rw [hrun] at h
      cases h
      obtain ⟨_ | t, c, hphrase, hrest⟩ := exists_of_run_bind hrun
      · cases hrest
      · cases hrest
        exact ⟨_, hphrase⟩
  · rintro ⟨c, h⟩
    rw [need, run_bind_of h]
    rfl

end Cartridge.Lua
