import Cartridge.Proofs.Lua.Lexeme

/-!
# Texts that break off

A text that runs into the token in front of it still does when more follows, unless that starts with a
point, which makes an operator out of a point at the end of the text.  So the first tokens of a text are
the tokens of the text that breaks off behind them.
-/

namespace Cartridge.Lua

open Recogniser List

variable {c : UInt8} {p : UInt8 → Bool} {s w : Bytes}

section Longer

variable {x : Bytes}

theorem startsWith_append (h : startsWith p x = true) (s : Bytes) : startsWith p (x ++ s) = true := by
  cases x with
  | nil => cases h
  | cons d x => exact h

theorem startsWith_of_run_ne_zero (h : run p x ≠ 0) : startsWith p x = true := by
  rw [Ne, run_eq_zero_iff, Bool.not_eq_false] at h
  exact h

theorem run_append_ne_zero (h : run p x ≠ 0) (s : Bytes) : run p (x ++ s) ≠ 0 := by
  rw [Ne, run_eq_zero_iff, startsWith_append (startsWith_of_run_ne_zero h) s]
  exact Bool.noConfusion

theorem marked_ne_zero_iff {k : Nat} : (if run p x = 0 then 0 else run p x + (k + 1)) ≠ 0 ↔ run p x ≠ 0 := by
  split <;> omega

theorem fraction_append_ne_zero {digit : UInt8 → Bool} (h : fraction digit x ≠ 0) (s : Bytes) :
    fraction digit (x ++ s) ≠ 0 := by
  cases x with
  | nil => exact absurd rfl h
  | cons d x =>
    by_cases hd : d = 46
    · subst hd
      exact marked_ne_zero_iff.mpr (run_append_ne_zero (marked_ne_zero_iff.mp h) s)
    · exact absurd (fraction_of_ne hd digit x) h

theorem basedLength_append_ne_zero {digit : UInt8 → Bool} (h : basedLength digit x ≠ 0) (s : Bytes) :
    basedLength digit (x ++ s) ≠ 0 := by
  by_cases hrun : run digit x = 0
  · rw [basedLength, hrun, drop_zero, Nat.zero_add] at h
    rw [basedLength]
    by_cases hrun' : run digit (x ++ s) = 0
    · rw [hrun', drop_zero, Nat.zero_add]
      exact fraction_append_ne_zero h s
    · omega
  · have := run_append_ne_zero hrun s
    rw [basedLength]
    omega

theorem power_append_ne_zero (h : power x ≠ 0) (s : Bytes) : power (x ++ s) ≠ 0 := by
  cases x with
  | nil => exact absurd rfl h
  | cons e x =>
    by_cases he : e = 101 ∨ e = 69
    · cases hminus : startsWith (· == 45) x with
      | false =>
        -- there is a digit behind the letter, so that no sign comes in
        rw [power_plain he hminus] at h
        have hrun := marked_ne_zero_iff.mp h
        have hminus' : startsWith (· == 45) (x ++ s) = false := by
          cases x with
          | nil => exact absurd rfl hrun
          | cons d x => exact hminus
        rw [cons_append, power_plain he hminus']
        exact marked_ne_zero_iff.mpr (run_append_ne_zero hrun s)
      | true =>
        cases x with
        | nil => cases hminus
        | cons d x =>
          rw [startsWith_cons, beq_iff_eq] at hminus
          subst hminus
          rw [power_minus he] at h
          rw [cons_append, cons_append, power_minus he]
          exact marked_ne_zero_iff.mpr (run_append_ne_zero (marked_ne_zero_iff.mp h) s)
    · exact absurd (power_of_ne he x) h

theorem openFraction_append_ne_zero (h : openFraction x ≠ 0) (hc : c ≠ 46) (s : Bytes) :
    openFraction (x ++ c :: s) ≠ 0 := by
  cases x with
  | nil => exact absurd rfl h
  | cons d x =>
    by_cases hd : d = 46
    · subst hd
      have hpoint : startsWith (· == 46) (x ++ c :: s) = false := by
        cases x with
        | nil => simpa using hc
        | cons d x =>
          rw [cons_append, startsWith_cons]
          refine beq_false_of_ne ?_
          rintro rfl
          exact h (openFraction_points x)
      rw [cons_append, openFraction_point hpoint]
      omega
    · exact absurd (openFraction_of_ne hd x) h

theorem opensBase_append (h : opensBase x = true) (s : Bytes) : opensBase (x ++ s) = true := by
  cases x with
  | nil => cases h
  | cons d x =>
    rw [opensBase, Option.any_eq_true] at h
    obtain ⟨digit, hdigit, hlength⟩ := h
    rw [cons_append, opensBase, Option.any_eq_true]
    exact ⟨digit, hdigit, bne_iff_ne.mpr (basedLength_append_ne_zero (bne_iff_ne.mp hlength) s)⟩

theorem numeralRuns_append (h : numeralRuns w x = true) (hc : c ≠ 46) (s : Bytes) :
    numeralRuns w (x ++ c :: s) = true := by
  unfold numeralRuns at h ⊢
  split at h
  · simp only [basedRuns, Bool.or_eq_true, Bool.and_eq_true, bne_iff_ne] at h ⊢
    exact h.imp (startsWith_append · _) (And.imp_right (fraction_append_ne_zero · _))
  · simp only [decimalRuns, Bool.or_eq_true, Bool.and_eq_true, bne_iff_ne] at h ⊢
    refine h.imp (.imp (.imp (startsWith_append · _) (And.imp_right ?_))
      (And.imp_right (startsWith_append · _))) (And.imp_right (opensBase_append · _))
    exact .imp (power_append_ne_zero · _) (And.imp_right (openFraction_append_ne_zero · hc s))

theorem symbolRuns_append (h : symbolRuns w x = true) (s : Bytes) : symbolRuns w (x ++ s) = true := by
  have hlonger : longerSymbol w x = true → longerSymbol w (x ++ s) = true := by
    simp only [longerSymbol, any_eq_true, Bool.and_eq_true, decide_eq_true_eq,
      isPrefixOf_iff_prefix, ← append_assoc]
    rintro ⟨u, hu, hlt, hprefix⟩
    exact ⟨u, hu, hlt, hprefix.trans (prefix_append _ s)⟩
  have hlabel : (label (58 :: x)).isSome = true → (label (58 :: (x ++ s))).isSome = true := by
    simp only [Option.isSome_iff_exists, label_eq_some_iff, ← cons_append]
    rintro ⟨n, c, y, hc, hy, hprefix, hn⟩
    exact ⟨n, c, y, hc, hy, hprefix.trans (prefix_append _ s), hn⟩
  have hbracket : (longBracket? (91 :: x)).isSome = true →
      (longBracket? (91 :: (x ++ s))).isSome = true := by
    simp only [Option.isSome_iff_exists, longBracket?_eq_some_iff, ← cons_append]
    rintro ⟨signs, hsigns, hprefix⟩
    exact ⟨signs, hsigns, hprefix.trans (prefix_append _ s)⟩
  simp only [symbolRuns, Bool.or_eq_true, Bool.and_eq_true] at h ⊢
  exact h.imp (.imp (.imp (.imp (.imp hlonger (And.imp_right (startsWith_append · s)))
    (And.imp_right (startsWith_append · s))) (And.imp_right (startsWith_append · s)))
    (And.imp_right hlabel)) (And.imp_right hbracket)

end Longer

/-- **What is not run into by a text is not run into by the start of the text**, unless the text breaks
off before a point. -/
theorem runsInto_of_append {k : TokenKind} {x : Bytes} (hc : c ≠ 46) (h : runsInto k w (x ++ c :: s) = false) :
    runsInto k w x = false := by
  refine Bool.eq_false_iff.mpr fun hruns => Bool.eq_false_iff.mp h ?_
  cases k with
  | number => exact numeralRuns_append hruns hc s
  | symbol => exact symbolRuns_append hruns (c :: s)
  | space | keyword => exact startsWith_append hruns _
  | newline | comment | name =>
    rw [runsInto, Bool.and_eq_true] at hruns ⊢
    exact ⟨hruns.1, startsWith_append hruns.2 _⟩
  | general | string | label => cases hruns

theorem Lexed.text_eq {ls : List (Bytes × Token)} (h : Lexed s ls) : s = (ls.map Prod.fst).flatten := by
  induction h with
  | nil => rfl
  | cons hw hruns hr ih => rw [map_cons, flatten_cons, ← ih]

theorem Lexed.of_append {ls ls' : List (Bytes × Token)} {r : Bytes} (hc : c ≠ 46)
    (hls' : (ls'.map Prod.fst).flatten = c :: r) (h : Lexed s (ls ++ ls')) :
    Lexed (ls.map Prod.fst).flatten ls := by
  induction ls generalizing s with
  | nil => exact .nil
  | cons l ls ih =>
    cases h with
    | cons hw hruns hr =>
      have hrest := hr.text_eq
      rw [append_eq, map_append, flatten_append, hls'] at hrest
      rw [hrest] at hruns
      exact .cons hw (runsInto_of_append hc hruns) (ih hr)

end Cartridge.Lua
