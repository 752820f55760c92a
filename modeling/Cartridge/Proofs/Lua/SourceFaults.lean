import Cartridge.Lua.Program
import Cartridge.Proofs.Lua.LineLimit
import Cartridge.Proofs.Lua.Reading
import Cartridge.Proofs.Lua.Resaving

/-!
# How reading a program fails

Source that cannot be cut into tokens is a lexical fault, and tokens that do not follow the grammar are
a fault of the grammar.  These are the failures that a cart is reported for.  There are two more.  A
decimal escape in a string between quotes may stand for a number that is no byte; and a conditional in
its one-line form may have no condition, or one that is no plain value.

Which source fails at an escape is known exactly: the scanner comes to a string between quotes in which
such an escape is the next unit that is not read.
-/

namespace Cartridge.Lua

/-! ### Escapes that are no bytes -/

namespace Quoted

variable {e : Failure} {mark : UInt8} {source : List Bytes}

/-- A decimal escape above 255 comes up in a string that is closed by `mark`, before it is closed. -/
inductive Overflows (mark : UInt8) : Bytes → Prop
  | next {s : Bytes} (hmark : Bytes.backslash ≠ mark) (h : 255 < value (digits s)) :
      Overflows mark (Bytes.backslash :: s)
  | unit {c x : UInt8} {n : Nat} {s : Bytes} (hc : c ≠ mark) (h : unit? c s = some (x, n))
      (rest : Overflows mark (s.drop n)) : Overflows mark (c :: s)

theorem unit?_eq_none_iff {c : UInt8} : unit? c s = none ↔ c = Bytes.backslash ∧ 255 < value (digits s) := by
  unfold unit?
  split
  · next hback =>
    split
    · next hdigits =>
      rw [hdigits]
      split
      · simp [value]
      · simp [value]
    · split
      · next hle => simp [hback]; omega
      · next hlt => simp [hback]; omega
  · next hback => simp [hback]

end Quoted

open Quoted

theorem overflows_of_scanQuoted :
    ∀ {data more : Bytes} {taken : Nat},
    scanQuoted mark data taken s = .badEscape more → Overflows mark s := by
  -- a unit may be longer than a byte, so the induction is on the length of what is left
  induction h : s.length using Nat.strongRecOn generalizing s with
  | _ k ih =>
    intro data more taken hscan
    cases s with
    | nil =>
      rw [scanQuoted_nil] at hscan
      cases hscan
    | cons c s =>
      rw [scanQuoted_cons] at hscan
      split at hscan
      · cases hscan
      · next hc =>
        cases hu : unit? c s with
        | none =>
          obtain ⟨rfl, hlt⟩ := unit?_eq_none_iff.mp hu
          exact .next hc hlt
        | some u =>
          obtain ⟨x, n⟩ := u
          rw [hu] at hscan
          have hlt : (s.drop n).length < k := by
            rw [List.length_drop, ← h, List.length_cons]
            omega
          exact .unit hc hu (ih _ hlt rfl hscan)

theorem scanQuoted_of_overflows (h : Overflows mark s) (data : Bytes) (taken : Nat) :
    ∃ more, scanQuoted mark data taken s = .badEscape more := by
  induction h generalizing data taken with
  | next hmark h =>
    rw [scanQuoted_cons, if_neg hmark, unit?_eq_none_iff.mpr ⟨rfl, h⟩]
    exact ⟨_, rfl⟩
  | unit hc h _ ih =>
    rw [scanQuoted_cons, if_neg hc, h]
    exact ih _ _

/-! ### Scanning -/

namespace Scanner

inductive Reaches : Scanner → Bytes → Scanner → Bytes → Prop
  | refl (sc : Scanner) (s : Bytes) : Reaches sc s sc s
  | step {sc sc₁ sc' : Scanner} {s s' : Bytes} {n : Nat} (h : sc.step s = (sc₁, n + 1, none))
      (rest : Reaches sc₁ (s.drop (n + 1)) sc' s') : Reaches sc s sc' s'

def Overflows (sc : Scanner) (s : Bytes) : Prop :=
  ∃ sc₁ s₁ mark data start, Reaches sc s sc₁ s₁ ∧ sc₁.mode = .quoted mark data start ∧
    Quoted.Overflows mark s₁

def OverflowsIn (sc : Scanner) (source : List Bytes) : Prop :=
  ∃ before s after sc₁, source = before ++ s :: after ∧ sc.chunks before = (sc₁, none) ∧
    sc₁.Overflows s

variable {sc : Scanner} {s : Bytes}

theorem step_failure_iff :
    (sc.step s).2.2 = some e ↔ e = .unfitValue ∧
      ∃ mark data start, sc.mode = .quoted mark data start ∧ Quoted.Overflows mark s := by
  constructor
  · intro h
    unfold step stepWith at h
    split at h
    · cases h
    · next hact =>
      cases h
      unfold act at hact
      split at hact
      · next mark data start hmode =>
        split at hact
        · cases hact
        · cases hact
        · next hscan =>
          cases hact
          exact ⟨rfl, mark, data, start, hmode, overflows_of_scanQuoted hscan⟩
      · split at hact <;> cases hact
      · split at hact <;> cases hact
      · repeat' split at hact
        all_goals cases hact
  · rintro ⟨rfl, mark, data, start, hmode, hover⟩
    obtain ⟨more, hscan⟩ := scanQuoted_of_overflows hover [] 0
    unfold step stepWith act
    rw [hmode]
    simp only [hscan]

theorem chunk_of_failure (h : (sc.step s).2.2 = some e) : (sc.chunk s).2 = some e := by
  rw [chunk, run]
  generalize sc.step s = r at h
  obtain ⟨sc₁, n, failure⟩ := r
  cases h
  rfl

theorem chunk_of_overflows (h : sc.Overflows s) : (sc.chunk s).2 = some .unfitValue := by
  obtain ⟨sc₁, s₁, mark, data, start, hreaches, hmode, hover⟩ := h
  induction hreaches with
  | refl sc s => exact chunk_of_failure (step_failure_iff.mpr ⟨rfl, mark, data, start, hmode, hover⟩)
  | step hstep rest ih =>
    rw [chunk_of_step hstep (Nat.succ_ne_zero _)]
    exact ih hmode hover

theorem chunk_failure (h : (sc.chunk s).2 = some e) :
    e = .unfitValue ∧ sc.Overflows s ∨ ∃ rest line column, e = .lexical (.unknown rest) line column := by
  induction hk : s.length using Nat.strongRecOn generalizing sc s with
  | _ k ih =>
    cases hstep : sc.step s with
    | mk sc₁ r =>
      obtain ⟨n, failure⟩ := r
      cases failure with
      | some e' =>
        have he : (sc.step s).2.2 = some e' := by rw [hstep]
        obtain rfl := Option.some.inj (h.symm.trans (chunk_of_failure he))
        obtain ⟨rfl, mark, data, start, hmode, hover⟩ := step_failure_iff.mp he
        exact .inl ⟨rfl, sc, s, mark, data, start, .refl sc s, hmode, hover⟩
      | none =>
        cases n with
        | zero =>
          -- the scanner is stuck: the chunk is at its end, or no token starts here
          rw [chunk, run, hstep] at h
          cases s with
          | nil => cases h
          | cons c s =>
            cases h
            exact .inr ⟨_, _, _, rfl⟩
        | succ n =>
          have hs := length_pos_of_step hstep (Nat.succ_ne_zero n)
          rw [chunk_of_step hstep (Nat.succ_ne_zero n)] at h
          obtain ⟨rfl, sc', s', mark, data, start, hreaches, hmode, hover⟩ | hlexical :=
            ih _ (by rw [List.length_drop]; omega) h rfl
          · exact .inl ⟨rfl, sc', s', mark, data, start, .step hstep hreaches, hmode, hover⟩
          · exact .inr hlexical

theorem chunks_of_overflowsIn (h : sc.OverflowsIn source) : (sc.chunks source).2 = some .unfitValue := by
  obtain ⟨before, s, after, sc₁, rfl, hbefore, hover⟩ := h
  induction before generalizing sc with
  | nil =>
    cases hbefore
    have hchunk := chunk_of_overflows hover
    rw [List.nil_append, chunks]
    split
    · next hread =>
      rw [hread] at hchunk
      cases hchunk
    · next hfailed =>
      rw [hfailed] at hchunk
      exact hchunk
  | cons p before ih =>
    -- the chunks before it are read, so the first of them is
    rw [chunks] at hbefore
    rw [List.cons_append, chunks]
    split at hbefore
    · exact ih hbefore
    · cases hbefore

theorem chunks_failure (h : (sc.chunks source).2 = some e) :
    e = .unfitValue ∧ sc.OverflowsIn source ∨
      ∃ rest line column, e = .lexical (.unknown rest) line column := by
  induction source generalizing sc with
  | nil => cases h
  | cons s source ih =>
    rw [chunks] at h
    split at h
    · next sc₁ hread =>
      obtain ⟨rfl, before, s', after, sc₂, rfl, hbefore, hover⟩ | hlexical := ih h
      · refine .inl ⟨rfl, s :: before, s', after, sc₂, rfl, ?_, hover⟩
        rw [chunks, hread]
        exact hbefore
      · exact .inr hlexical
    · next hfailed =>
      have hchunk : (sc.chunk s).2 = some e := by rw [hfailed]; exact h
      obtain ⟨rfl, hover⟩ | hlexical := chunk_failure hchunk
      · exact .inl ⟨rfl, [], s, source, sc, rfl, rfl, hover⟩
      · exact .inr hlexical

theorem feed_failure (h : (sc.feed source).2 = some e) :
    e = .unfitValue ∧ sc.OverflowsIn source ∨ ∃ fault line column, e = .lexical fault line column := by
  unfold feed feedFrom at h
  split at h
  · next hfailed =>
    have hchunks : (sc.chunks source).2 = some e := by rw [hfailed]; exact h
    obtain hover | ⟨rest, line, column, rfl⟩ := chunks_failure hchunks
    · exact .inl hover
    · exact .inr ⟨_, _, _, rfl⟩
  · next sc' _ =>
    -- source that ends inside something
    have hopen : sc'.unclosed = some e := h
    unfold unclosed at hopen
    split at hopen <;> cases hopen
    all_goals exact .inr ⟨_, _, _, rfl⟩

theorem feed_eq_unfitValue_iff : (sc.feed source).2 = some .unfitValue ↔ sc.OverflowsIn source := by
  constructor
  · intro h
    obtain ⟨-, hover⟩ | ⟨fault, line, column, hlexical⟩ := feed_failure h
    · exact hover
    · cases hlexical
  · intro h
    have hchunks := chunks_of_overflowsIn h
    unfold feed feedFrom
    split
    · next hfailed =>
      rw [hfailed] at hchunks
      exact hchunks
    · next hread =>
      rw [hread] at hchunks
      cases hchunks

end Scanner

/-! ### Programs -/

namespace Program

open Grammar

theorem ofLines_cases (version : Int) (source : List Bytes) :
    (∃ e, (Scanner.feed {} source).2 = some e ∧ ofLines version source = .error e) ∨
      ∃ sc, Scanner.feed {} source = (sc, none) ∧
        ((∃ p, ofLines version source = .ok p) ∨
          ∃ e, Tree.ofTokens sc.tokens = .error e ∧ ofLines version source = .error e) := by
  rw [ofLines_eq]
  cases Scanner.feed {} source with
  | mk sc failure =>
    cases failure with
    | some e => exact .inl ⟨e, rfl, rfl⟩
    | none =>
      refine .inr ⟨sc, rfl, ?_⟩
      cases htree : Tree.ofTokens sc.tokens with
      | ok t => exact .inl ⟨_, by simp only [htree]; rfl⟩
      | error e => exact .inr ⟨e, rfl, by simp only [htree]; rfl⟩

/-- **How reading a program fails.**  It fails at an escape that is no byte just if the scanner comes to
one.  Otherwise there is a program, a lexical fault or a fault of the grammar, or else one of its `if`s
has no condition that its one-line form can have. -/
theorem failure_of_ofLines (version : Int) (source : List Bytes) :
    (ofLines version source = .error .unfitValue ↔ Scanner.OverflowsIn {} source) ∧
      ((∃ p, ofLines version source = .ok p) ∨
        (∃ fault line column, ofLines version source = .error (.lexical fault line column)) ∨
        (∃ wanted place, ofLines version source = .error (.grammar wanted place)) ∨
        ofLines version source = .error .unfitValue ∨
        ofLines version source = .error .missingPart ∧
          ∃ sc q, Scanner.feed {} source = (sc, none) ∧ OddIf sc.tokens q) := by
  obtain ⟨e, hscan, hread⟩ | ⟨sc, hscan, hread⟩ := ofLines_cases version source
  · have hiff : ofLines version source = .error .unfitValue ↔ Scanner.OverflowsIn {} source := by
      rw [← Scanner.feed_eq_unfitValue_iff, hscan, hread, Except.error.injEq, Option.some.injEq]
    refine ⟨hiff, ?_⟩
    obtain ⟨rfl, -⟩ | ⟨fault, line, column, rfl⟩ := Scanner.feed_failure hscan
    · exact .inr (.inr (.inr (.inl hread)))
    · exact .inr (.inl ⟨_, _, _, hread⟩)
  · have hnot : ¬Scanner.OverflowsIn {} source := by
      rw [← Scanner.feed_eq_unfitValue_iff, hscan]
      nofun
    obtain ⟨p, hp⟩ | ⟨e, htree, he⟩ := hread
    · refine ⟨iff_of_false ?_ hnot, .inl ⟨p, hp⟩⟩
      rw [hp]
      nofun
    · have hrefusal := Tree.refusal_of_ofTokens htree
      rw [he]
      cases hrefusal with
      | wanted w place => exact ⟨iff_of_false nofun hnot, .inr (.inr (.inl ⟨w, place, rfl⟩))⟩
      | @odd q hodd =>
        refine ⟨iff_of_false nofun hnot, ?_⟩
        exact .inr (.inr (.inr (.inr ⟨rfl, sc, q, hscan, hodd⟩)))

def lineFailure? (line : String) : Option Failure :=
  match ofLines 8 [Bytes.ofText line] with
  | .ok _ => none
  | .error e => some e

/-- **Bad source that is not reported as such**: an escape that is no byte, an `if` with nothing behind
it, and conditions in parentheses with an operator before or between them. -/
theorem ofLines_unreported :
    lineFailure? "x=\"\\300\"\n" = some .unfitValue ∧ lineFailure? "if\n" = some .missingPart ∧
      lineFailure? "if not (a) b=1\n" = some .missingPart ∧
      lineFailure? "if (a) or (b) c=1\n" = some .missingPart ∧
      Failure.unfitValue.isBadCart = false ∧ Failure.missingPart.isBadCart = false := by
  decide +kernel

end Program
end Cartridge.Lua
