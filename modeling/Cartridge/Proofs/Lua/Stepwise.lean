import Cartridge.Proofs.Lua.Window

/-!
# Parsers step by step

What a parser gives is put together from what its steps give.  A word that is asked for is taken if it is
the next one, and passed over if it cannot be: the only thing that has to be known of the tokens behind a
phrase is which words do not come next.

Nothing is said here of cursors with a limit.
-/

namespace Cartridge.Lua

variable {p : Pattern} {t : Token} {x : Nat}

def Pattern.meets : Pattern → Pattern → Bool
  | .exact t, p => t.fits p
  | .kind _, .kind .general => true
  | .kind .general, _ => true
  | .kind k, .kind k' => k == k'
  | .kind k, .exact t => t.kind == k

theorem Pattern.meets_of_fits {q : Pattern} (hp : t.fits p = true) (hq : t.fits q = true) :
    p.meets q = true := by
  cases p with
  | exact u =>
    rw [Pattern.meets, ← Token.fits_of_agrees hp, hq]
  | kind k =>
    cases q with
    | exact u =>
      have hkind : t.kind = u.kind := Grammar.kind_eq_of_agrees hq
      cases k <;> simp_all [Pattern.meets, Token.fits]
    | kind k' => cases k <;> cases k' <;> simp_all [Pattern.meets, Token.fits]

namespace Grammar

/-! ### What comes next -/

def Stops (toks : Array Token) (ps : List Pattern) (i : Nat) : Prop :=
  ∀ t x, ¬Takes toks ps i t x

section Next

variable {toks : Array Token} {ps qs : List Pattern} {i x : Nat} {t : Token}

theorem Stops.mono (h : Stops toks ps i) (hsub : qs ⊆ ps) : Stops toks qs i :=
  fun t x ht => h t x (ht.mono hsub)

theorem Takes.eq (h : Takes toks ps i t x) {u : Token} {y : Nat} (h' : Takes toks qs i u y) :
    u = t ∧ y = x := by
  obtain hlt | rfl | hlt := Nat.lt_trichotomy x y
  · obtain ⟨v, hv, hgap⟩ := h'.blank.gap x h.blank.le hlt
    rw [h.get] at hv
    cases hv
    rw [h.solid] at hgap
    cases hgap
  · have hget := h.get
    rw [h'.get] at hget
    exact ⟨Option.some.inj hget, rfl⟩
  · obtain ⟨v, hv, hgap⟩ := h.blank.gap y h'.blank.le hlt
    rw [h'.get] at hv
    cases hv
    rw [h'.solid] at hgap
    cases hgap

theorem Takes.stops (h : Takes toks ps i t x)
    (hps : ∀ p ∈ ps, ∀ q ∈ qs, p.meets q = false) : Stops toks qs i := by
  intro u y hu
  obtain ⟨rfl, rfl⟩ := h.eq hu
  obtain ⟨p, hp, hfits⟩ := h.fits
  obtain ⟨q, hq, hfits'⟩ := hu.fits
  have hmeets := hps p hp q hq
  rw [Pattern.meets_of_fits hfits hfits'] at hmeets
  cases hmeets

theorem Blank.eq_of_solid (h : Blank toks i x) (ht : toks[i]? = some t) (hsolid : t.isGap = false) :
    x = i := by
  by_contra hne
  have hle := h.le
  obtain ⟨u, hu, hgap⟩ := h.gap i (Nat.le_refl i) (by omega)
  rw [ht] at hu
  cases hu
  rw [hsolid] at hgap
  cases hgap

theorem Blank.single (ht : toks[i]? = some t) (hgap : t.isGap = true) : Blank toks i (i + 1) := by
  refine ⟨Nat.le_succ i, fun n hin hni => ?_⟩
  obtain rfl : n = i := by omega
  exact ⟨t, ht, hgap⟩

theorem Blank.stops (h : Blank toks i toks.size) (qs : List Pattern) : Stops toks qs i := by
  intro u y hu
  obtain ⟨v, hv, hgap⟩ := h.gap y hu.blank.le hu.lt_size
  rw [hu.get] at hv
  cases hv
  rw [hu.solid] at hgap
  cases hgap

theorem Stops.of_blank {k : Nat} (h : Stops toks qs k) (hk : Blank toks i k) : Stops toks qs i :=
  fun t x ht => h t x (ht.moved hk)

end Next

/-! ### Rows -/

inductive Chained {α : Type} (step : Nat → α → Nat → Prop) : Nat → List α → Nat → Prop
  | nil (i : Nat) : Chained step i [] i
  | cons {i k j : Nat} {a : α} {as : List α} (h : step i a k) (hs : Chained step k as j) :
      Chained step i (a :: as) j

section Rows

variable {α : Type} {step step' : Nat → α → Nat → Prop} {i j k : Nat}

theorem Chained.le (hstep : ∀ {i a k}, step i a k → i < k) {as : List α} (h : Chained step i as j) :
    i ≤ j := by
  induction h with
  | nil i => exact Nat.le_refl i
  | cons h _ ih => exact Nat.le_trans (Nat.le_of_lt (hstep h)) ih

theorem Chained.imp (himp : ∀ {i a k}, step i a k → step' i a k) {as : List α}
    (h : Chained step i as j) : Chained step' i as j := by
  induction h with
  | nil i => exact .nil i
  | cons h _ ih => exact .cons (himp h) ih

theorem Chained.append {as bs : List α} (h : Chained step i as k) (h' : Chained step k bs j) :
    Chained step i (as ++ bs) j := by
  induction h with
  | nil i => exact h'
  | cons h _ ih => exact .cons h (ih h')

theorem Chained.append_iff {as bs : List α} :
    Chained step i (as ++ bs) j ↔ ∃ k, Chained step i as k ∧ Chained step k bs j := by
  constructor
  · intro h
    induction as generalizing i with
    | nil => exact ⟨i, .nil i, h⟩
    | cons a as ih =>
      cases h with
      | cons h hs =>
        obtain ⟨k, has, hbs⟩ := ih hs
        exact ⟨k, .cons h has, hbs⟩
  · rintro ⟨k, has, hbs⟩
    exact has.append hbs

theorem Chained.nil_iff : Chained step i [] j ↔ i = j := by
  constructor
  · rintro ⟨⟩
    rfl
  · rintro rfl
    exact .nil i

theorem Chained.cons_iff {a : α} {as : List α} :
    Chained step i (a :: as) j ↔ ∃ k, step i a k ∧ Chained step k as j := by
  constructor
  · intro h
    cases h with
    | cons h hs => exact ⟨_, h, hs⟩
  · rintro ⟨k, h, hs⟩
    exact .cons h hs

end Rows

/-! ### Steps -/

def Gives {α : Type} (p : Parse α) (i : Nat) (a : α) (j : Nat) : Prop :=
  p.run ⟨i, none⟩ = .ok (a, ⟨j, none⟩)

namespace Gives

variable {α β : Type} {toks : Array Token} {i j k : Nat}

theorem pure (a : α) (i : Nat) : Gives (pure a) i a i := rfl

theorem bind {p : Parse α} {f : α → Parse β} {a : α} {b : β} (h : Gives p i a k)
    (hf : Gives (f a) k b j) : Gives (p >>= f) i b j :=
  (run_bind_of h).trans hf

theorem fromHere {f : Nat → Parse β} {b : β} (h : Gives (f i) i b j) : Gives (here >>= f) i b j := h

theorem goTo {f : Unit → Parse β} {b : β} (h : Gives (f ()) k b j) : Gives (goTo k >>= f) i b j := h

theorem eq {p : Parse α} {a a' : α} {j' : Nat} (h : Gives p i a j) (h' : Gives p i a' j') :
    a = a' ∧ j = j' := by
  have heq := h.symm.trans h'
  simp only [Except.ok.injEq, Prod.mk.injEq, Cursor.mk.injEq, and_true] at heq
  exact heq

theorem accept {p : Pattern} {t : Token} {x : Nat} (h : Takes toks [p] i t x) [hp : p.Solid] :
    Gives (accept toks p) i (some t) (x + 1) :=
  run_accept_of_takes hp.isSolid h rfl

theorem accept_none (h : Stops toks [p] i) [hp : p.Solid] :
    Gives (Grammar.accept toks p) i none i :=
  run_accept_of_not_takes hp.isSolid fun t x ht => absurd ht (h t x)

theorem take (h : Takes toks [p] i t x) {f : Option Token → Parse β} {b : β}
    (hf : Gives (f (some t)) (x + 1) b j) [p.Solid] :
    Gives (Grammar.accept toks p >>= f) i b j :=
  .bind (.accept h) hf

theorem pass (h : Stops toks [p] i) {f : Option Token → Parse β} {b : β} (hf : Gives (f none) i b j)
    [p.Solid] : Gives (Grammar.accept toks p >>= f) i b j :=
  .bind (.accept_none h) hf

theorem expect (h : Takes toks [p] i t x) {f : Token → Parse β} {b : β} (hf : Gives (f t) (x + 1) b j)
    [p.Solid] : Gives (Grammar.expect toks p >>= f) i b j :=
  .bind (.take h (.pure t _)) hf

theorem discard {p : Parse α} {a : α} (h : Gives p i a j) : Gives (Functor.discard p) i () j := by
  show Gives (p >>= fun _ => Pure.pure ()) i () j
  exact .bind h (.pure () j)

theorem skip (h : Takes toks [p] i t x) {f : Unit → Parse β} {b : β} (hf : Gives (f ()) (x + 1) b j)
    [p.Solid] : Gives (Functor.discard (Grammar.expect toks p) >>= f) i b j :=
  .bind (.discard (.take h (.pure t _))) hf

theorem need {p : Parse (Option α)} {a : α} (h : Gives p i (some a) k) {description : String}
    {f : α → Parse β} {b : β} (hf : Gives (f a) k b j) :
    Gives (need toks p description >>= f) i b j :=
  .bind (.bind h (.pure a k)) hf

theorem made (kind : NodeKind) (fs : List Tree) (start i : Nat) :
    Gives (do return some (Tree.made kind fs start (← here))) i (some (.made kind fs start i)) i :=
  rfl

/-! ### Alternatives -/

theorem attempt {p : Parse (Option α)} {a : α} (h : Gives p i (some a) j) :
    Gives (attempt p) i (some a) j :=
  .fromHere (.bind h (.pure (some a) j))

theorem attempt_none {p : Parse (Option α)} (h : Gives p i none j) :
    Gives (Grammar.attempt p) i none i :=
  .fromHere (.bind h (.goTo (.pure none i)))

theorem firstOf_some {p : Parse (Option α)} {ps : List (Parse (Option α))} {a : α}
    (h : Gives p i (some a) j) : Gives (firstOf (p :: ps)) i (some a) j :=
  .bind h (.pure (some a) j)

theorem firstOf_none {p : Parse (Option α)} {ps : List (Parse (Option α))} {r : Option α}
    (h : Gives p i none i) (hs : Gives (firstOf ps) i r j) : Gives (firstOf (p :: ps)) i r j :=
  .bind h hs

theorem firstOf_nothing {ps : List (Parse (Option α))} (h : ∀ p ∈ ps, Gives p i none i) :
    Gives (firstOf ps) i none i := by
  induction ps with
  | nil => exact .pure none i
  | cons p ps ih =>
    exact .firstOf_none (h p List.mem_cons_self) (ih fun q hq => h q (List.mem_cons_of_mem p hq))

theorem takeFirst {ps : List Pattern} (h : Takes toks ps i t x) (hps : ∀ p ∈ ps, p.isSolid = true) :
    Gives (firstOf (ps.map (Grammar.accept toks))) i (some t) (x + 1) := by
  induction ps with
  | nil =>
    obtain ⟨p, hp, -⟩ := h.fits
    cases hp
  | cons p ps ih =>
    have hsolid : p.Solid := ⟨hps p List.mem_cons_self⟩
    by_cases hp : t.fits p = true
    · exact .firstOf_some (.accept ⟨h.blank, h.get, h.solid, p, List.mem_singleton_self p, hp⟩)
    · refine .firstOf_none (.accept_none fun u y hu => ?_) (ih ?_ ?_)
      · obtain ⟨rfl, rfl⟩ := h.eq hu
        obtain ⟨q, hq, hfits⟩ := hu.fits
        rw [List.mem_singleton.mp hq] at hfits
        exact hp hfits
      · obtain ⟨q, hq, hfits⟩ := h.fits
        obtain rfl | hq := List.mem_cons.mp hq
        · exact absurd hfits hp
        · exact ⟨h.blank, h.get, h.solid, q, hq, hfits⟩
      · exact fun q hq => hps q (List.mem_cons_of_mem p hq)

theorem passFirst {ps : List Pattern} (h : Stops toks ps i) (hps : ∀ p ∈ ps, p.isSolid = true) :
    Gives (firstOf (ps.map (Grammar.accept toks))) i none i := by
  refine firstOf_nothing fun q hq => ?_
  obtain ⟨p, hp, rfl⟩ := List.mem_map.mp hq
  have hsolid : p.Solid := ⟨hps p hp⟩
  exact .accept_none (h.mono (List.cons_subset.mpr ⟨hp, List.nil_subset ps⟩))

theorem lead_none (h : Stops toks [p] i) {f : Nat → Option Token → Parse (Option α)}
    (hf : ∀ n, f n none = return none) [p.Solid] :
    Gives (do let start ← here; let t ← Grammar.accept toks p; f start t) i none i := by
  refine .fromHere (.pass h ?_)
  rw [hf]
  exact .pure none i

theorem firstOf_led {table : List (Pattern × Parse (Option α))}
    (hapart : table.Pairwise fun a b => b.1.meets a.1 = false)
    (hnone : ∀ {a}, a ∈ table → Stops toks [a.1] i → Gives a.2 i none i) {q : Parse (Option α)} {a : α}
    (hmem : (p, q) ∈ table) (ht : Takes toks [p] i t x) (hq : Gives q i (some a) j) :
    Gives (firstOf (table.map Prod.snd)) i (some a) j := by
  induction table with
  | nil => cases hmem
  | cons b table ih =>
    rw [List.pairwise_cons] at hapart
    obtain rfl | hmem := List.mem_cons.mp hmem
    · exact .firstOf_some hq
    · refine .firstOf_none (hnone List.mem_cons_self (ht.stops ?_)) (ih hapart.2 ?_ hmem)
      · simpa using hapart.1 _ hmem
      · exact fun ha => hnone (List.mem_cons_of_mem b ha)

/-! ### Repetition -/

theorem repeated {p : Parse (Option α)} {as : List α}
    (h : Chained (fun i a k => i < k ∧ Gives p i (some a) k) i as k) (hstop : Gives p k none j)
    (hk : k ≤ toks.size) {n : Nat} (hn : toks.size < n + i) : Gives (repeated p n) i as j := by
  induction h generalizing n with
  | nil i =>
    obtain ⟨n, rfl⟩ : ∃ m, n = m + 1 := ⟨n - 1, by omega⟩
    exact .bind hstop (.pure [] j)
  | @cons i k _ a as hstep hs ih =>
    have hle := hs.le And.left
    obtain ⟨n, rfl⟩ : ∃ m, n = m + 1 := ⟨n - 1, by omega⟩
    have hless : toks.size < n + k := by omega
    exact .bind hstep.2 (.bind (ih hstop hk hless) (.pure (a :: as) j))

theorem semicolons (h : Stops toks [.exact (Token.symbol ";")] i) : Gives (semicolons toks) i () i :=
  .bind (.accept_none h) (.pure () i)

end Gives

end Grammar
end Cartridge.Lua
