import Cartridge.Linking.Package
import Cartridge.Proofs.Lua.SourceFaults
import Cartridge.Proofs.Lua.WritingFaults

/-!
# The packages that a program needs

A program names the packages it needs, and these name further ones; files may name each other in
circles.  A name that has its package is not looked for again, so every level of the search brings a new
name, and every name comes from one of finitely many files.  So the search ends, and how many levels it
is allowed makes no difference from some number on.  When it succeeds the packages are just those that
are named by the program or by one of them.
-/

namespace Cartridge

open List

variable {file : List Char} {n : Nat} {name : Bytes} {p : Program} {ps ps' : Packages}

/-! ### Acts that do not run out -/

def Settles {α : Type} (x : Except Failure α) : Prop := x ≠ .error .exhausted

theorem Settles.bind {α β : Type} {x : Except Failure α} {f : α → Except Failure β} (hx : Settles x)
    (hf : ∀ a, Settles (f a)) : Settles (x >>= f) := by
  cases x with
  | ok a => exact hf a
  | error e => exact fun h => hx (by cases h; rfl)

theorem Settles.of_bind {α β : Type} {x : Except Failure α} {f : α → Except Failure β}
    (h : Settles (x >>= f)) : Settles x := by
  rintro rfl
  exact h rfl

namespace Disk

theorem walk_settles (d : Disk) : ∀ cs here : List (List Char), Settles (d.walk here cs)
  | [], here => nofun
  | c :: cs, here => by
    rw [walk]
    split
    · split
      · exact walk_settles d cs here
      · split
        · split
          · nofun
          · exact walk_settles d cs _
        · exact walk_settles d cs _
    · split <;> nofun

theorem read_settles (d : Disk) (path : List Char) : Settles (d.read path) := by
  have hresolve : Settles (d.resolve path) := by
    unfold resolve
    split
    · nofun
    · exact walk_settles d _ _
    · exact walk_settles d _ _
  refine hresolve.bind fun p => ?_
  split
  · nofun
  · split <;> nofun

theorem mem_files_of_read {d : Disk} {path : List Char} {c : Content} (h : d.read path = .ok c) :
    ∃ p, (p, c) ∈ d.files := by
  simp only [read, bind, Except.bind] at h
  split at h
  · cases h
  · next p _ =>
    split at h
    · next c' hc =>
      cases h
      obtain ⟨f, hf, rfl⟩ := Option.map_eq_some_iff.mp hc
      exact ⟨f.1, mem_of_find?_eq_some hf⟩
    · cases h

end Disk

namespace Lua.Program

theorem ofSource_settles (version : Int) (source : List Bytes) {broken : Option Failure}
    (hbroken : broken ≠ some .exhausted) : Settles (ofSource version source broken) := by
  have hfeed : (Scanner.feedFrom {} source broken).2 ≠ some .exhausted := by
    intro h
    have hcases : (Scanner.feed {} source).2 = some .exhausted ∨ broken = some .exhausted := by
      unfold Scanner.feedFrom at h
      unfold Scanner.feed Scanner.feedFrom
      split at h
      · exact .inl h
      · cases broken with
        | none => exact .inl h
        | some e => exact .inr h
    rcases hcases with hscan | hbreak
    · obtain ⟨heq, -⟩ | ⟨fault, line, column, heq⟩ := Scanner.feed_failure hscan <;> cases heq
    · exact hbroken hbreak
  intro h
  unfold ofSource updateFrom at h
  generalize Scanner.feedFrom {} source broken = fed at h hfeed
  obtain ⟨sc, failure⟩ := fed
  cases failure with
  | some e =>
    cases h
    exact hfeed rfl
  | none =>
    cases htree : Tree.ofTokens sc.tokens with
    | ok t =>
      simp only [htree] at h
      cases h
    | error e =>
      simp only [htree] at h
      cases h
      cases Tree.refusal_of_ofTokens htree

end Lua.Program

namespace Linking

open Lua

theorem readLibrary_settles (source : Bytes) (gameLoop : Bool) : Settles (readLibrary source gameLoop) := by
  refine Settles.bind (Program.ofSource_settles _ _ nofun) fun p => ?_
  cases gameLoop with
  | true => nofun
  | false =>
    refine Program.ofSource_settles _ _ fun h => ?_
    exact absurd (Tree.isOfWriting_of_write h) (by decide)

/-! ### Calls -/

theorem requireOf?_settles (toks : Array Token) (call : Tree) : Settles (requireOf? toks call) := by
  have hfield : ∀ (t : Tree) (f : Field), Settles (t.field f) := by
    intro t f h
    cases Grammar.eq_missingPart_of_field h
  have hargs : Settles (argumentsOf call) := by
    refine (hfield call .args).bind fun args => (hfield args .explist).bind fun list => ?_
    split
    · nofun
    · refine (hfield _ .exps).bind fun items => ?_
      cases items <;> nofun
  have hstart : Settles (startToken toks call) := by
    unfold startToken
    split <;> nofun
  have hoption : ∀ fields, Settles (gameLoopOption fields) := by
    intro fields
    unfold gameLoopOption
    split
    · refine (hfield _ .keyName).bind fun name => ?_
      split
      · refine (hfield _ .exp).bind fun exp => (hfield exp .value).bind fun value => ?_
        split <;> nofun
      · nofun
    · nofun
  have hcall : Settles (ofCall toks call) := by
    refine hargs.bind fun args => hstart.bind fun token => ?_
    split
    · split <;> nofun
    · split
      · nofun
      · split
        · nofun
        · refine (hoption _).bind fun option => ?_
          split <;> nofun
    · nofun
  unfold requireOf?
  split
  · intro h
    cases hof : ofCall toks call with
    | ok r =>
      rw [hof] at h
      cases h
    | error e =>
      rw [hof] at h
      cases h
      exact hcall hof
  · nofun

theorem requires_failure_ne (p : Program) : (requires p).2 ≠ some .exhausted := by
  rw [requires]
  generalize p.root.calls = calls
  induction calls with
  | nil => nofun
  | cons call calls ih =>
    rw [requiresFrom]
    split
    · next e he => exact fun h => requireOf?_settles p.tokens call (he.trans (by cases h; rfl))
    · exact ih
    · exact ih

/-! ### Names -/

/-- The names that the calls of a program require, up to the first call that is not as it should be. -/
def needs (p : Program) : List Bytes := (requires p).1.map Require.name

def Packages.names (ps : Packages) : List Bytes := ps.map Prod.fst

/-- The least set of names that holds some names, and all that its packages need. -/
inductive Needed (start : List Bytes) (ps : Packages) : Bytes → Prop
  | start {name : Bytes} (h : name ∈ start) : Needed start ps name
  | package {k name : Bytes} {q : Program} (hk : Needed start ps k) (hq : (k, q) ∈ ps)
      (h : name ∈ needs q) : Needed start ps name

theorem Packages.has_iff : ps.has name = true ↔ name ∈ ps.names := by
  simp [has, names]

theorem Needed.trans {start start' : List Bytes} (hsub : ps ⊆ ps')
    (hstart : ∀ name ∈ start, Needed start' ps' name) (h : Needed start ps name) :
    Needed start' ps' name := by
  induction h with
  | start h => exact hstart _ h
  | package _ hq h ih => exact .package ih (hsub hq) h

/-! ### One level of the search -/

section Search

variable {d : Disk} {l : LoadPath}

/-- One call of `require`: it is refused, or its package is there, or it is read from a file and the
search goes on in it. -/
theorem addRequired_cases (file : List Char) (ps : Packages) (r : Require) :
    (∃ e, e ≠ .exhausted ∧ ∀ more, addRequired d l file more ps r = .error e) ∨
      r.name ∈ ps.names ∧ (∀ more, addRequired d l file more ps r = .ok ps) ∨
      ∃ path c q, r.name ∉ ps.names ∧ d.read path = .ok c ∧ readLibrary c.data r.gameLoop = .ok q ∧
        ∀ more, addRequired d l file more ps r = more q path (ps ++ [(r.name, q)]) := by
  cases hname : nameText r.name with
  | error e =>
    refine .inl ⟨e, ?_, fun more => by simp [addRequired, hname, bind, Except.bind]⟩
    unfold nameText at hname
    split at hname <;> cases hname
    nofun
  | ok name =>
    by_cases hleaves : leavesPath r.name = true
    · refine .inl ⟨.linking .badPath r.token.place, nofun, fun more => ?_⟩
      simp [addRequired, hname, hleaves, bind, Except.bind]
    by_cases hhas : ps.has r.name = true
    · refine .inr (.inl ⟨Packages.has_iff.mp hhas, fun more => ?_⟩)
      simp [addRequired, hname, hleaves, hhas, bind, Except.bind, pure, Except.pure]
    cases hpath : pathOf d l r file with
    | error e =>
      refine .inl ⟨e, ?_, fun more => by simp [addRequired, hname, hleaves, hhas, hpath, bind, Except.bind]⟩
      simp only [pathOf, hname, bind, Except.bind] at hpath
      split at hpath <;> cases hpath
      nofun
    | ok path =>
      cases hread : d.read path with
      | error e =>
        refine .inl ⟨e, fun he => d.read_settles path (he ▸ hread), fun more => ?_⟩
        simp [addRequired, hname, hleaves, hhas, hpath, hread, bind, Except.bind]
      | ok c =>
        cases hlibrary : readLibrary c.data r.gameLoop with
        | error e =>
          refine .inl ⟨e, fun he => readLibrary_settles c.data r.gameLoop (he ▸ hlibrary), fun more => ?_⟩
          simp [addRequired, hname, hleaves, hhas, hpath, hread, hlibrary, bind, Except.bind]
        | ok q =>
          refine .inr (.inr ⟨path, c, q, fun hmem => hhas (Packages.has_iff.mpr hmem), hread, hlibrary, ?_⟩)
          intro more
          simp [addRequired, hname, hleaves, hhas, hpath, hread, hlibrary, bind, Except.bind]

/-- **One level of the search** goes through what the program requires, and then fails if a call is not
as it should be. -/
theorem addPackages_succ (n : Nat) (p : Program) (file : List Char) (ps : Packages) :
    addPackages d l (n + 1) p file ps =
      (requires p).1.foldlM (addRequired d l file (addPackages d l n)) ps >>= fun ps' =>
        (requires p).2.elim (.ok ps') .error := by
  rw [addPackages, requires]
  generalize p.root.calls = calls
  induction calls generalizing ps with
  | nil => rfl
  | cons call calls ih =>
    rw [foldlM_cons, requiresFrom]
    cases hcall : requireOf? p.tokens call with
    | error e => rfl
    | ok r? =>
      cases r? with
      | none => exact ih ps
      | some r =>
        rw [foldlM_cons]
        cases hadd : addRequired d l file (addPackages d l n) ps r with
        | error e => simp [hadd, bind, Except.bind]
        | ok ps' => simpa [hadd, bind, Except.bind] using ih ps'

end Search

/-! ### What a search adds -/

structure Adds (start : List Bytes) (ps ps' : Packages) : Prop where
  keeps : ps <+: ps'
  nodup : ps.names.Nodup → ps'.names.Nodup
  found : start ⊆ ps'.names
  closed : ∀ {k : Bytes} {q : Program}, (k, q) ∈ ps' → (k, q) ∈ ps ∨ needs q ⊆ ps'.names
  needed : ∀ {k : Bytes}, k ∈ ps'.names → k ∈ ps.names ∨ Needed start ps' k

namespace Adds

variable {start start' : List Bytes} {ps ps₁ ps' : Packages}

theorem names_subset (h : Adds start ps ps') : ps.names ⊆ ps'.names :=
  map_subset _ h.keeps.subset

theorem refl (h : start ⊆ ps.names) : Adds start ps ps :=
  ⟨prefix_refl ps, id, h, .inl, .inl⟩

theorem trans (h : Adds start ps ps₁) (h' : Adds start' ps₁ ps') : Adds (start ++ start') ps ps' where
  keeps := h.keeps.trans h'.keeps
  nodup := h'.nodup ∘ h.nodup
  found := by
    intro name hname
    rcases mem_append.mp hname with hname | hname
    · exact h'.names_subset (h.found hname)
    · exact h'.found hname
  closed := by
    intro k q hq
    rcases h'.closed hq with hq | hq
    · exact (h.closed hq).imp_right fun hneeds => Subset.trans hneeds h'.names_subset
    · exact .inr hq
  needed := by
    intro k hk
    rcases h'.needed hk with hk | hk
    · refine (h.needed hk).imp_right fun hneeded => hneeded.trans h'.keeps.subset fun name hname => ?_
      exact .start (mem_append_left _ hname)
    · exact .inr (hk.trans (Subset.refl ps') fun name hname => .start (mem_append_right _ hname))

theorem package {q : Program} (hname : name ∉ ps.names) (h : Adds (needs q) (ps ++ [(name, q)]) ps') :
    Adds [name] ps ps' where
  keeps := (prefix_append ps _).trans h.keeps
  nodup := by
    intro hps
    refine h.nodup ?_
    rw [Packages.names, map_append, nodup_append]
    refine ⟨hps, by simp, fun k hk k' hk' heq => ?_⟩
    rw [map_singleton, mem_singleton] at hk'
    rw [heq, hk'] at hk
    exact hname hk
  found := by
    intro k hk
    rw [mem_singleton.mp hk]
    refine h.names_subset ?_
    simp [Packages.names]
  closed := by
    intro k q' hq
    rcases h.closed hq with hq | hq
    · rcases mem_append.mp hq with hq | hq
      · exact .inl hq
      · cases mem_singleton.mp hq
        exact .inr h.found
    · exact .inr hq
  needed := by
    have hself : Needed [name] ps' name := .start mem_cons_self
    have hmem : (name, q) ∈ ps' := h.keeps.subset (mem_append_right _ mem_cons_self)
    intro k hk
    rcases h.needed hk with hk | hk
    · rw [Packages.names, map_append, mem_append] at hk
      refine hk.imp_right fun hk => ?_
      rw [map_singleton, mem_singleton] at hk
      exact hk ▸ hself
    · exact .inr (hk.trans (Subset.refl ps') fun name' hname' => .package hself hmem hname')

end Adds

section Search

variable {d : Disk} {l : LoadPath}

theorem adds_of_foldlM {more : Program → List Char → Packages → Except Failure Packages}
    (hmore : ∀ {q path ps ps'}, more q path ps = .ok ps' → Adds (needs q) ps ps') {rs : List Require}
    (h : rs.foldlM (addRequired d l file more) ps = .ok ps') : Adds (rs.map Require.name) ps ps' := by
  induction rs generalizing ps with
  | nil =>
    cases h
    exact .refl (nil_subset _)
  | cons r rs ih =>
    rw [foldlM_cons] at h
    obtain ⟨e, -, hstep⟩ | ⟨hmem, hstep⟩ | ⟨path, c, q, hnew, -, -, hstep⟩ :=
      addRequired_cases (d := d) (l := l) file ps r
    · rw [hstep] at h
      cases h
    · rw [hstep] at h
      exact .trans (.refl (cons_subset.mpr ⟨hmem, nil_subset _⟩)) (ih h)
    · rw [hstep] at h
      cases hq : more q path (ps ++ [(r.name, q)]) with
      | error e =>
        rw [hq] at h
        cases h
      | ok ps₁ =>
        rw [hq] at h
        exact .trans (.package hnew (hmore hq)) (ih h)

theorem adds_of_addPackages (h : addPackages d l n p file ps = .ok ps') : Adds (needs p) ps ps' := by
  induction n generalizing p file ps ps' with
  | zero => cases h
  | succ n ih =>
    rw [addPackages_succ] at h
    cases hfold : (requires p).1.foldlM (addRequired d l file (addPackages d l n)) ps with
    | error e =>
      rw [hfold] at h
      cases h
    | ok ps₁ =>
      rw [hfold] at h
      cases hfailure : (requires p).2 with
      | some e =>
        rw [hfailure] at h
        cases h
      | none =>
        rw [hfailure] at h
        cases h
        exact adds_of_foldlM ih hfold

/-! ### The search ends -/

def unmet (d : Disk) (ps : Packages) : Nat := (allNames d).countP fun name => !ps.has name

theorem countP_has_le (h : ps.names ⊆ ps'.names) (names : List Bytes) :
    (names.countP fun name => !ps'.has name) ≤ names.countP fun name => !ps.has name := by
  refine countP_mono_left fun name _ hname => ?_
  rw [Bool.not_eq_true', Bool.eq_false_iff] at hname ⊢
  exact fun hhas => hname (Packages.has_iff.mpr (h (Packages.has_iff.mp hhas)))

theorem unmet_lt (hname : name ∈ allNames d) (hnew : name ∉ ps.names) (q : Program) :
    unmet d (ps ++ [(name, q)]) < unmet d ps := by
  have hsub : ps.names ⊆ (ps ++ [(name, q)]).names := map_subset _ (subset_append_left ps _)
  have hbefore : ps.has name = false := by
    rw [Bool.eq_false_iff]
    exact fun hhas => hnew (Packages.has_iff.mp hhas)
  have hafter : (ps ++ [(name, q)]).has name = true := by
    rw [Packages.has_iff]
    simp [Packages.names]
  obtain ⟨front, back, hsplit⟩ := append_of_mem hname
  have hfront := countP_has_le hsub front
  have hback := countP_has_le hsub back
  simp only [unmet, hsplit, countP_append, countP_cons, hbefore, hafter]
  simp only [Bool.not_true, Bool.not_false, Bool.false_eq_true, if_false, if_true]
  omega

theorem needs_subset {path : List Char} {c : Content} (hc : d.read path = .ok c) {gameLoop : Bool}
    {q : Program} (hq : readLibrary c.data gameLoop = .ok q) : needs q ⊆ allNames d := by
  obtain ⟨p, hp⟩ := Disk.mem_files_of_read hc
  have hnames : needs q = namesOf c.data gameLoop := by rw [namesOf, hq]; rfl
  intro name hname
  rw [hnames] at hname
  refine mem_flatMap.mpr ⟨_, hp, ?_⟩
  cases gameLoop with
  | true => exact mem_append_left _ hname
  | false => exact mem_append_right _ hname

theorem foldlM_settles {rs : List Require}
    (hmore : ∀ {r path c q ps'}, r ∈ rs → ps.names ⊆ ps'.names → r.name ∉ ps'.names → d.read path = .ok c →
      readLibrary c.data r.gameLoop = .ok q →
      Settles (addPackages d l n q path (ps' ++ [(r.name, q)]))) :
    Settles (rs.foldlM (addRequired d l file (addPackages d l n)) ps) := by
  induction rs generalizing ps with
  | nil => nofun
  | cons r rs ih =>
    rw [foldlM_cons]
    obtain ⟨e, he, hstep⟩ | ⟨-, hstep⟩ | ⟨path, c, q, hnew, hc, hq, hstep⟩ :=
      addRequired_cases (d := d) (l := l) file ps r
    · rw [hstep]
      exact fun h => he (by cases h; rfl)
    · rw [hstep]
      exact ih fun hr => hmore (mem_cons_of_mem r hr)
    · rw [hstep]
      have hsettles := hmore mem_cons_self (Subset.refl _) hnew hc hq
      cases hadd : addPackages d l n q path (ps ++ [(r.name, q)]) with
      | error e =>
        rw [hadd] at hsettles
        exact fun h => hsettles (by cases h; rfl)
      | ok ps₁ =>
        have hsub : ps.names ⊆ ps₁.names := (Adds.package hnew (adds_of_addPackages hadd)).names_subset
        exact ih fun hr hps => hmore (mem_cons_of_mem r hr) (Subset.trans hsub hps)

theorem settles_succ (h : Settles ((requires p).1.foldlM (addRequired d l file (addPackages d l n)) ps)) :
    Settles (addPackages d l (n + 1) p file ps) := by
  rw [addPackages_succ]
  refine h.bind fun ps' => ?_
  cases hfailure : (requires p).2 with
  | none => nofun
  | some e => exact fun he => requires_failure_ne p (by cases he; exact hfailure)

theorem foldlM_congr {more more' : Program → List Char → Packages → Except Failure Packages}
    (hmore : ∀ {q path ps}, Settles (more q path ps) → more' q path ps = more q path ps) {rs : List Require}
    (h : Settles (rs.foldlM (addRequired d l file more) ps)) :
    rs.foldlM (addRequired d l file more') ps = rs.foldlM (addRequired d l file more) ps := by
  induction rs generalizing ps with
  | nil => rfl
  | cons r rs ih =>
    rw [foldlM_cons] at h ⊢
    rw [foldlM_cons]
    have hstep : addRequired d l file more' ps r = addRequired d l file more ps r := by
      obtain ⟨e, -, hstep⟩ | ⟨-, hstep⟩ | ⟨path, c, q, -, -, -, hstep⟩ :=
        addRequired_cases (d := d) (l := l) file ps r
      · rw [hstep, hstep]
      · rw [hstep, hstep]
      · have hfirst := h.of_bind
        rw [hstep] at hfirst
        rw [hstep, hstep, hmore hfirst]
    rw [hstep]
    cases hadd : addRequired d l file more ps r with
    | error e => rfl
    | ok ps₁ =>
      rw [hadd] at h
      exact ih h

/-- **A search with more levels than unmet names does not run out of them**, if the program needs no
other names. -/
theorem addPackages_settles (hp : needs p ⊆ allNames d) (hn : unmet d ps < n) :
    Settles (addPackages d l n p file ps) := by
  induction n generalizing p file ps with
  | zero => exact absurd hn (Nat.not_lt_zero _)
  | succ n ih =>
    refine settles_succ (foldlM_settles fun {r path c q ps'} hr hps hnew hc hq => ?_)
    refine ih (needs_subset hc hq) ?_
    have hlt := unmet_lt (hp (mem_map_of_mem hr)) hnew q
    have hle : unmet d ps' ≤ unmet d ps := countP_has_le hps (allNames d)
    omega

theorem addPackages_of_le {m : Nat} (hnm : n ≤ m) (h : Settles (addPackages d l n p file ps)) :
    addPackages d l m p file ps = addPackages d l n p file ps := by
  induction n generalizing m p file ps with
  | zero => exact absurd rfl h
  | succ n ih =>
    obtain ⟨m, rfl⟩ : ∃ k, m = k + 1 := ⟨m - 1, by omega⟩
    rw [addPackages_succ] at h ⊢
    rw [addPackages_succ, foldlM_congr (fun hq => ih (by omega) hq) h.of_bind]

theorem packages_eq (p : Program) (file : List Char) :
    packages d l p file = addPackages d l ((allNames d).length + 2) p file [] := by
  have hnone : ∀ {calls : List Tree}, calls.any isRequire = false → requiresFrom p.tokens calls = ([], none) := by
    intro calls hcalls
    induction calls with
    | nil => rfl
    | cons call calls ih =>
      rw [any_cons, Bool.or_eq_false_iff] at hcalls
      rw [requiresFrom, requireOf?, if_neg (by rw [hcalls.1]; exact Bool.false_ne_true)]
      exact ih hcalls.2
  rw [packages]
  split
  · rfl
  · next hcalls =>
    rw [addPackages_succ, requires, hnone hcalls]
    rfl

/-- **The search for packages ends, and it finds just those that are needed.**

Whatever the files of a disk require, also each other in circles, the search for the packages of a
program does not run out of levels, and more levels would not change its outcome.  If it succeeds, no
name has two packages, and the names that have one are the least set that holds every name the program
requires and, with each name in it, every name the package of that name requires. -/
theorem packages_closed (d : Disk) (l : LoadPath) (p : Program) (file : List Char) :
    packages d l p file ≠ .error .exhausted ∧
      (∀ n, (allNames d).length + 2 ≤ n → addPackages d l n p file [] = packages d l p file) ∧
      ∀ ps, packages d l p file = .ok ps →
        ps.names.Nodup ∧ ∀ name, name ∈ ps.names ↔ Needed (needs p) ps name := by
  have hsettles : Settles (packages d l p file) := by
    rw [packages_eq]
    -- the program itself may require names that no file does, but only on the first level
    refine settles_succ (foldlM_settles fun {r path c q ps'} hr hps hnew hc hq => ?_)
    have hle : unmet d (ps' ++ [(r.name, q)]) ≤ (allNames d).length := List.countP_le_length
    exact addPackages_settles (needs_subset hc hq) (by omega)
  refine ⟨hsettles, fun n hn => ?_, fun ps hps => ?_⟩
  · rw [packages_eq] at hsettles ⊢
    exact addPackages_of_le hn hsettles
  · rw [packages_eq] at hps
    have hadds := adds_of_addPackages hps
    refine ⟨hadds.nodup List.nodup_nil, fun name => ⟨fun hname => ?_, fun hname => ?_⟩⟩
    · exact (hadds.needed hname).resolve_left List.not_mem_nil
    · induction hname with
      | start h => exact hadds.found h
      | package _ hq h _ => exact (hadds.closed hq).resolve_left List.not_mem_nil h

end Search

def circleDisk : Disk where
  files := [(["a.lua".toList], .bytes (Bytes.ofText "require(\"b\")\n")),
    (["b.lua".toList], .bytes (Bytes.ofText "require(\"a\")\n")),
    (["c.lua".toList], .bytes (Bytes.ofText "require(\"d\")\n"))]

def circleSource : List Bytes := [Bytes.ofText "require(\"a\")\n"]

def circleFile : List Char := "m.lua".toList

theorem packages_closed_circle :
    ∃ p ps, Program.ofLines 8 circleSource = .ok p ∧ packages circleDisk {} p circleFile = .ok ps ∧
      ps.names = [[97], [98]] ∧ ps.names.Nodup ∧
      ∀ name, name ∈ ps.names ↔ Needed (needs p) ps name := by
  have hrun : ((Program.ofLines 8 circleSource).toOption.bind fun p =>
      (packages circleDisk {} p circleFile).toOption.map Packages.names) = some [[97], [98]] := by
    decide +kernel
  cases hp : Program.ofLines 8 circleSource with
  | error e =>
    rw [hp] at hrun
    cases hrun
  | ok p =>
    rw [hp] at hrun
    change (packages circleDisk {} p circleFile).toOption.map Packages.names = _ at hrun
    cases hps : packages circleDisk {} p circleFile with
    | error e =>
      rw [hps] at hrun
      cases hrun
    | ok ps =>
      rw [hps] at hrun
      obtain ⟨hnodup, hneeded⟩ := (packages_closed circleDisk {} p circleFile).2.2 ps hps
      exact ⟨p, ps, rfl, hps, Option.some.inj hrun, hnodup, hneeded⟩

end Linking
end Cartridge
