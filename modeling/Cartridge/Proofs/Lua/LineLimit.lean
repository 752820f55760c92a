import Cartridge.Proofs.Lua.Reparsing

/-!
# Conditionals on one line

The end of a line is the limit for a conditional in its one-line form: no word at or past it is taken
until the conditional has been read.  There is one limit only, and it is lifted when a conditional has
been read, also if that one stands inside another.  What follows on the next line may then be taken
into the outer one.

So a conditional stays on its line unless another one opens there.  It does not matter whether the
other one is in the tree in the end: an attempt that is given up has lifted the limit as well.

The one-line form is tried for every condition that neither `then` nor `do` follows, also if there is no
condition, or if it is no plain value.  Then the grammar fails for want of a part, which is the only way
to fail other than to want something that is not there.
-/

namespace Cartridge.Lua

namespace Grammar

variable {toks : Array Token} {i j k : Nat}

/-- An `if` at `q` opens a conditional in its one-line form, if the tokens before `l` are in reach: its
condition ends with a closing parenthesis, and neither `then` nor `do` is the next word within
reach. -/
structure OpensShort (toks : Array Token) (q l : Nat) : Prop where
  word : ∃ t, toks[q]? = some t ∧ t.agrees (Token.keyword "if") = true
  condition : ∃ t c,
    (phrase toks (toks.size + 1) .expression).run ⟨q + 1, some l⟩ = .ok (some t, c) ∧
      closesBefore toks c.pos = true ∧
      ∀ u m, Takes toks [.exact (Token.keyword "then"), .exact (Token.keyword "do")] c.pos u m → l ≤ m

/-- A conditional on one line may be open at `i`: there is an `if` before `i`, and behind that a closing
parenthesis on the line of `i`. -/
def InShort (toks : Array Token) (i : Nat) : Prop :=
  ∃ q k, q < k ∧ k ≤ i ∧ (∃ t, toks[q]? = some t ∧ t.agrees (Token.keyword "if") = true) ∧
    closesBefore toks k = true ∧ lineStop toks k = lineStop toks i

theorem InShort.of_le (h : InShort toks i) (hij : i ≤ j) (hj : j ≤ lineStop toks i) :
    InShort toks j := by
  obtain ⟨q, k, hqk, hki, hword, hcloses, hline⟩ := h
  exact ⟨q, k, hqk, Nat.le_trans hki hij, hword, hcloses, hline.trans (lineStop_eq_of_le hij hj).symm⟩

/-- An `if` at `q` that the one-line form is tried for without a condition that it can have: neither
`then` nor `do` is the next word within reach behind the condition, and there is no condition, or it
ends with a parenthesis and is no plain value.  Reach ends with the line if another conditional on one
line may be open there. -/
structure OddIf (toks : Array Token) (q : Nat) : Prop where
  word : ∃ t, toks[q]? = some t ∧ t.agrees (Token.keyword "if") = true
  condition : ∃ l r c, (l = none ∨ l = some (lineStop toks q) ∧ InShort toks q) ∧
    (phrase toks (toks.size + 1) .expression).run ⟨q + 1, l⟩ = .ok (r, c) ∧
    (∀ u m, Takes toks [.exact (Token.keyword "then"), .exact (Token.keyword "do")] c.pos u m →
      ∃ l', c.limit = some l' ∧ l' ≤ m) ∧
    ∀ t ∈ r, closesBefore toks c.pos = true ∧ t.isA .expValue = false

/-- How a parser fails: it wants something that is not there, or it comes to an `if` without a
condition for the one-line form. -/
inductive Refusal (toks : Array Token) : Failure → Prop
  | wanted (w : Wanted) (place : Option Place) : Refusal toks (.grammar w place)
  | odd {q : Nat} (h : OddIf toks q) : Refusal toks .missingPart

/-- All account is taken: parsers refuse, a limit is the end of the line, which a conditional has set,
and it is lifted where a conditional opens. -/
def Account.full (toks : Array Token) : Account toks where
  fails := Refusal toks
  sets i l := l = lineStop toks i ∧ InShort toks i
  lifts := OpensShort toks
  fault := .wanted
  sets_lineStop hqk hword hcloses := ⟨rfl, _, _, hqk, Nat.le_refl _, hword, hcloses, rfl⟩

theorem Onward.limit_eq {c₀ : Cursor} {m : Nat} {l : Option Nat} (h : Onward (.full toks) c₀ k ⟨m + 1, l⟩)
    (hle : c₀.pos ≤ m) : l = none ∨ l = some (lineStop toks m) ∧ InShort toks m := by
  obtain ⟨hkept, hlimit⟩ | ⟨hnone, -⟩ := h.limit
  · cases l with
    | none => exact .inl rfl
    | some l =>
      obtain ⟨rfl, hopen⟩ := h.set l hkept.symm
      have hm : m ≤ lineStop toks c₀.pos := Nat.le_of_succ_le (hlimit _ rfl)
      exact .inr ⟨by rw [lineStop_eq_of_le hle hm], hopen.of_le hle hm⟩
  · exact .inl hnone

theorem watched_full (toks : Array Token) (n : Nat) : Watched (.full toks) (phrase toks n) where
  opens {m l t c} hif hc hrun hcloses hleft := by
    obtain ⟨_, hw, -⟩ := id hif
    obtain ⟨_, c', hrun', hmoved, hc'⟩ := expression_deepens hc (Array.getElem?_eq_some_iff.mp hw).1 hrun
    have hpos : c'.pos = c.pos := hc'.pos.trans (Shift.place_still _)
    cases hmoved with
    | @some _ t' _ => exact ⟨hif, t', c', hrun', by rwa [hpos], by rwa [hpos]⟩
  odd {c₀ j m l r c} hif hc hle hrun hleft hodd := by
    obtain ⟨_, hw, -⟩ := id hif
    obtain ⟨r', c', hrun', hmoved, hc'⟩ :=
      expression_deepens hc.sound (Array.getElem?_eq_some_iff.mp hw).1 hrun
    have hpos : c'.pos = c.pos := hc'.pos.trans (Shift.place_still _)
    refine .odd ⟨hif, l, r', c', hc.limit_eq hle, hrun', fun u n hu => ?_, ?_⟩
    · -- the same tokens are out of reach
      rw [hpos] at hu
      obtain ⟨l', hl', hle⟩ := hleft u n hu
      have hreach := hc'.reach n hu.lt_size
      rw [hl', Option.all_some, decide_eq_false (Nat.not_lt_of_le hle)] at hreach
      cases hlimit : c'.limit with
      | none =>
        rw [hlimit] at hreach
        cases hreach
      | some l =>
        rw [hlimit, Option.all_some, decide_eq_false_iff_not] at hreach
        exact ⟨l, rfl, Nat.le_of_not_lt hreach⟩
    · cases hmoved with
      | none => nofun
      | @some t t' hmoved =>
        rintro u ⟨rfl⟩
        rw [hpos, hmoved.isA_eq]
        exact hodd t rfl

theorem inner_full (toks : Array Token) {n : Nat} (h : toks.size < n + k) :
    Inner (.full toks) k (phrase toks n) :=
  inner_phrase (watched_full toks) (.inr h)

end Grammar

open Grammar in
/-- **How a program fails to have a tree**: the grammar wants something that is not there, or it comes
to an `if` whose condition cannot be used. -/
theorem Tree.refusal_of_ofTokens {toks : Array Token} {e : Failure} (h : Tree.ofTokens toks = .error e) :
    Refusal toks e := by
  have hstart : Onward (.full toks) {} 0 {} := .unlimited (Nat.le_refl _) (Nat.zero_le _)
  have hblock := (inner_full toks (Nat.lt_succ_self _)).block hstart
  have hneed : Ensures (.full toks) (need toks (phrase toks (toks.size + 1) .block) "input to be a program")
      {} fun _ _ => True :=
    .need hblock fun _ _ _ => trivial
  unfold Tree.ofTokens at h
  unfold Ensures at hneed
  split at hneed
  · next hrun =>
    rw [hrun] at h
    cases h
  · next hrun =>
    rw [hrun] at h
    cases h
    exact hneed

open Grammar in
/-- **A conditional stays on its line if no other one opens there.**  Every conditional of a program
that is marked as one on one line has a first block, and from the start of that to the end of the
conditional there is no newline, unless on the rest of the line another `if` opens one. -/
theorem Tree.onOneLine_of_ofTokens {toks : Array Token} {root : Tree}
    (h : Tree.ofTokens toks = .ok root) {t : Tree} (ht : t ∈ root.nodes) (hshort : t.isShort = true) :
    ∃ b j, t.shortSpan? = some ⟨b, j⟩ ∧
      ((∀ q, b ≤ q → q < lineStop toks b → ¬OpensShort toks q (lineStop toks b)) →
        OnOneLine toks b j) := by
  obtain ⟨c, hrun⟩ := Tree.ofTokens_eq_ok_iff_run.mp h
  have hstart : Onward (.full toks) {} 0 {} := .unlimited (Nat.le_refl _) (Nat.zero_le _)
  have hparsed := ((inner_full toks (Nat.lt_succ_self _)).block hstart).left hrun
  exact hparsed.2.2.tidy t ht hshort

def oneLineSample : Array Token :=
  (Scanner.feed {} [Bytes.ofText "if (a) if b then c=1 end else e=3\nd=2\n"]).1.tokens

open Grammar in
theorem Tree.onOneLine_of_ofTokens_inner :
    ∃ root t, Tree.ofTokens oneLineSample = .ok root ∧ t ∈ root.nodes ∧ t.isShort = true ∧
      t.shortSpan? = some ⟨5, 23⟩ ∧ OnOneLine oneLineSample 5 23 := by
  have hspans : (Tree.ofTokens oneLineSample).toOption.map
      (fun root => (root.nodes.filter Tree.isShort).map Tree.shortSpan?)
      = some [some ⟨5, 23⟩] := by decide +kernel
  have hstop : lineStop oneLineSample 5 = 23 := by decide +kernel
  have hword : ∀ q < 23, 5 ≤ q →
      oneLineSample[q]?.any (·.agrees (Token.keyword "if")) = true → q = 6 := by decide +kernel
  have hcondition : ((phrase oneLineSample (oneLineSample.size + 1) .expression).run
      ⟨7, some 23⟩).toOption.map (fun r => closesBefore oneLineSample r.2.pos) = some false := by
    decide +kernel
  have halone : ∀ q, 5 ≤ q → q < lineStop oneLineSample 5 →
      ¬OpensShort oneLineSample q (lineStop oneLineSample 5) := by
    rw [hstop]
    rintro q hle hlt ⟨⟨w, hw, hif⟩, t, c, hrun, hcloses, -⟩
    obtain rfl := hword q hlt hle (by rw [hw, Option.any_some, hif])
    rw [hrun] at hcondition
    exact Bool.noConfusion (hcloses.symm.trans (Option.some.inj hcondition))
  cases h : Tree.ofTokens oneLineSample with
  | error e =>
    rw [h] at hspans
    cases hspans
  | ok root =>
    rw [h] at hspans
    obtain ⟨t, hfilter, hspan⟩ := List.map_eq_singleton_iff.mp (Option.some.inj hspans)
    obtain ⟨ht, hshort⟩ := List.mem_filter.mp (hfilter ▸ List.mem_singleton_self t)
    obtain ⟨b, j, hbj, hline⟩ := Tree.onOneLine_of_ofTokens h ht hshort
    obtain ⟨rfl, rfl⟩ : b = 5 ∧ j = 23 := by simpa [hspan] using hbj.symm
    exact ⟨root, t, rfl, ht, hshort, hspan, hline halone⟩

def nestedSample : Array Token :=
  (Scanner.feed {} [Bytes.ofText "if (a) if (b) c=1\nd=2\n"]).1.tokens

theorem Tree.nested_conditional_leaves_line :
    (Tree.ofTokens nestedSample).toOption.map
        (fun root => (root.nodes.filter Tree.isShort).map Tree.shortSpan?)
      = some [some ⟨5, 19⟩, some ⟨11, 15⟩] ∧ ¬OnOneLine nestedSample 5 19 := by
  refine ⟨by decide +kernel, fun h => ?_⟩
  have hnewline : (nestedSample[15]?.map Token.kind) = some .newline := by decide +kernel
  obtain ⟨t, ht, hkind⟩ := Option.map_eq_some_iff.mp hnewline
  exact h 15 t (by decide) (by decide) ht hkind

end Cartridge.Lua
