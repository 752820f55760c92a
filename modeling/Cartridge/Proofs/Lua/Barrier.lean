import Cartridge.Proofs.Lua.Neighbours
import Cartridge.Proofs.Text.Cut

/-!
# Barriers

Spaces, line ends and quotes belong to no word, numeral or symbol.  Whether a text runs into the
token in front of it is decided before the first such byte.
-/

namespace Cartridge.Lua

open Recogniser List Bytes

variable {c d : UInt8} {digit p : UInt8 → Bool} {u : Bytes}

/-! ### Long brackets -/

def openingBracket (signs : Bytes) : Bytes := 91 :: (signs ++ [91])

theorem longBracket?_eq_some_iff {s signs : Bytes} :
    longBracket? s = some signs ↔ (∀ c ∈ signs, c = 61) ∧ openingBracket signs <+: s := by
  constructor
  · intro h
    unfold longBracket? at h
    split at h
    · next s =>
      simp only at h
      split at h
      · next y hdrop =>
        cases h
        refine ⟨fun c hc => ?_, y, ?_⟩
        · exact beq_iff_eq.mp (all_eq_true.mp all_takeWhile c hc)
        · have hs := prefix_iff_eq_append.mp (List.takeWhile_prefix (l := s) (· == 61))
          rw [hdrop] at hs
          simpa [openingBracket] using hs
      · cases h
    · cases h
  · rintro ⟨hsigns, y, rfl⟩
    have hrun : ((signs ++ 91 :: y).takeWhile (· == 61)).length = signs.length :=
      run_append_cons (p := (· == 61)) (run_eq_length_iff.mpr fun c hc => by simp [hsigns c hc]) rfl y
    have htake : (signs ++ 91 :: y).takeWhile (· == 61) = signs := takeWhile_of_run hrun
    simp [longBracket?, openingBracket, htake]

/-! ### Bytes that end every token of the rules -/

def isBarrier (b : UInt8) : Bool := !isWord b && !symbols.any (·.contains b)

theorem isWord_of_isDigit (h : isDigit c = true) : isWord c = true := by
  simp [isWord, h]

theorem isWord_of_hex (h : Hex.isDigit c = true) : isWord c = true := by
  unfold Hex.isDigit Hex.value? at h
  simp only [isWord, isNameStart, isLetter, isDigit, Bool.or_eq_true,
    Bool.and_eq_true, decide_eq_true_eq, UInt8.le_iff_toNat_le, beq_iff_eq] at h ⊢
  simp only [UInt8.reduceToNat] at h ⊢
  split at h
  · omega
  · split at h
    · omega
    · split at h
      · omega
      · cases h

theorem isWord_of_binary (h : isBinaryDigit c = true) : isWord c = true := by
  simp only [isBinaryDigit, Bool.or_eq_true, beq_iff_eq] at h
  rcases h with rfl | rfl <;> rfl

theorem isWord_of_baseDigits? {x : UInt8} (h : baseDigits? x = some digit) (hc : digit c = true) :
    isWord c = true := by
  unfold baseDigits? at h
  split at h
  · cases h; exact isWord_of_hex hc
  · split at h
    · cases h; exact isWord_of_binary hc
    · cases h

section Barrier

variable {b : UInt8} (hb : isBarrier b = true)
include hb

theorem isWord_of_isBarrier : isWord b = false := by
  simp only [isBarrier, Bool.and_eq_true, Bool.not_eq_true'] at hb
  exact hb.1

theorem not_mem_symbol_of_isBarrier (hu : u ∈ symbols) : b ∉ u := by
  simp only [isBarrier, Bool.and_eq_true, Bool.not_eq_true', any_eq_false,
    contains_eq_mem, decide_eq_true_eq] at hb
  exact hb.2 u hu

theorem ne_of_isBarrier (hd : isBarrier d = false) : b ≠ d := by
  rintro rfl
  rw [hd] at hb
  cases hb

theorem not_of_isBarrier (hp : ∀ c, p c = true → isWord c = true) : p b = false := by
  rw [Bool.eq_false_iff]
  intro h
  have := hp b h
  rw [isWord_of_isBarrier hb] at this
  cases this

omit hb in
theorem startsWith_append_cons (p : UInt8 → Bool) (x s s' : Bytes) :
    startsWith p (x ++ b :: s) = startsWith p (x ++ b :: s') := by
  cases x <;> simp

omit hb in
theorem startsWith_barrier (hp : p b = false) (x s : Bytes) : startsWith p (x ++ b :: s) = startsWith p x := by
  cases x <;> simp [hp]

omit hb in
theorem run_barrier (hp : p b = false) (x s : Bytes) : run p (x ++ b :: s) = run p x := by
  by_cases hfull : run p x = x.length
  · rw [run_append_cons hfull hp, hfull]
  · exact run_append_of_ne hfull _

omit hb in
theorem prefix_barrier {x : Bytes} (hu : b ∉ u) (s : Bytes) : u <+: x ++ b :: s ↔ u <+: x :=
  ⟨prefix_of_prefix_append_cons hu, fun h => h.trans (prefix_append _ _)⟩

theorem isDigit_of_isBarrier : isDigit b = false :=
  not_of_isBarrier hb fun _ => isWord_of_isDigit

theorem beq_of_isBarrier (hd : isBarrier d = false) : (b == d) = false :=
  beq_false_of_ne (ne_of_isBarrier hb hd)

theorem fraction_barrier (hdigit : ∀ c, digit c = true → isWord c = true) (x s : Bytes) :
    fraction digit (x ++ b :: s) = fraction digit x := by
  cases x with
  | nil => exact fraction_of_ne (ne_of_isBarrier hb rfl) digit s
  | cons c x =>
    rw [cons_append]
    by_cases hc : c = 46
    · subst hc
      simp only [fraction, run_barrier (not_of_isBarrier hb hdigit) x]
    · rw [fraction_of_ne hc, fraction_of_ne hc]

theorem basedLength_barrier (hdigit : ∀ c, digit c = true → isWord c = true) (x s : Bytes) :
    basedLength digit (x ++ b :: s) = basedLength digit x := by
  rw [basedLength, basedLength, run_barrier (not_of_isBarrier hb hdigit) x,
    drop_append_of_le_length (run_le digit x), fraction_barrier hb hdigit]

theorem power_barrier (x s : Bytes) : power (x ++ b :: s) = power x := by
  have hrun := run_barrier (isDigit_of_isBarrier hb)
  have hminus := startsWith_barrier (p := (· == 45)) (beq_of_isBarrier hb rfl)
  cases x with
  | nil =>
    refine power_of_ne ?_ s
    rintro (h | h)
    · exact ne_of_isBarrier hb rfl h
    · exact ne_of_isBarrier hb rfl h
  | cons e x =>
    rw [cons_append]
    by_cases he : e = 101 ∨ e = 69
    · cases hx : startsWith (· == 45) x with
      | false =>
        rw [power_plain he hx, power_plain he ((hminus x s).trans hx), hrun]
      | true =>
        obtain ⟨d, x, rfl⟩ : ∃ d y, x = d :: y := by
          cases x with
          | nil => cases hx
          | cons d y => exact ⟨d, y, rfl⟩
        rw [startsWith_cons, beq_iff_eq] at hx
        subst hx
        rw [cons_append, power_minus he, power_minus he, hrun]
    · rw [power_of_ne he, power_of_ne he]

theorem openFraction_barrier (x s : Bytes) : openFraction (x ++ b :: s) = openFraction x := by
  have hrun := run_barrier (isDigit_of_isBarrier hb)
  have hpoint := startsWith_barrier (p := (· == 46)) (beq_of_isBarrier hb rfl)
  cases x with
  | nil => exact openFraction_of_ne (ne_of_isBarrier hb rfl) s
  | cons c x =>
    rw [cons_append]
    by_cases hc : c = 46
    · subst hc
      cases hx : startsWith (· == 46) x with
      | false => rw [openFraction_point hx, openFraction_point ((hpoint x s).trans hx), hrun]
      | true =>
        cases x with
        | nil => cases hx
        | cons d x =>
          rw [startsWith_cons, beq_iff_eq] at hx
          subst hx
          rfl
    · rw [openFraction_of_ne hc, openFraction_of_ne hc]

theorem opensBase_barrier (x s : Bytes) : opensBase (x ++ b :: s) = opensBase x := by
  cases x with
  | nil =>
    have hne : ∀ d, isBarrier d = false → b ≠ d := fun d => ne_of_isBarrier hb
    simp [opensBase, baseDigits?, hne 120 rfl, hne 88 rfl, hne 98 rfl, hne 66 rfl]
  | cons c x =>
    simp only [cons_append, opensBase]
    cases hc : baseDigits? c with
    | none => rfl
    | some digit =>
      simp only [Option.any_some, basedLength_barrier hb (fun _ => isWord_of_baseDigits? hc) x]

theorem numeralRuns_barrier (w x s : Bytes) : numeralRuns w (x ++ b :: s) = numeralRuns w x := by
  unfold numeralRuns
  split
  · next digit t hbase =>
    have hdigit : ∀ c, digit c = true → isWord c = true := by
      unfold base? at hbase
      split at hbase
      · next y t' =>
        rw [Option.map_eq_some_iff] at hbase
        obtain ⟨d, hd, heq⟩ := hbase
        cases heq
        exact fun _ => isWord_of_baseDigits? hd
      · cases hbase
    rw [basedRuns, basedRuns, startsWith_barrier (not_of_isBarrier hb hdigit),
      fraction_barrier hb hdigit]
  · rw [decimalRuns, decimalRuns, startsWith_barrier (isDigit_of_isBarrier hb),
      power_barrier hb, openFraction_barrier hb, opensBase_barrier hb,
      startsWith_barrier (p := (· == 46)) (beq_of_isBarrier hb rfl)]

theorem label_barrier (x s : Bytes) :
    (label (58 :: (x ++ b :: s))).isSome = (label (58 :: x)).isSome := by
  rw [Bool.eq_iff_iff]
  simp only [Option.isSome_iff_exists, label_eq_some_iff, ← cons_append]
  refine exists_congr fun n => exists_congr fun c => exists_congr fun y =>
    and_congr_right fun hc => and_congr_right fun hy => and_congr_left fun _ => ?_
  refine prefix_barrier (fun hmem => ?_) s
  have hword : ∀ d, isWord d = true → b ≠ d := by
    rintro d hd rfl
    rw [isWord_of_isBarrier hb] at hd
    cases hd
  simp only [labelText, mem_cons, mem_append, not_mem_nil, or_false] at hmem
  rcases hmem with h | h | h | h | h | h
  · exact ne_of_isBarrier hb rfl h
  · exact ne_of_isBarrier hb rfl h
  · exact hword c (isWord_of_isNameStart hc) h
  · exact hword b (hy b h) rfl
  · exact ne_of_isBarrier hb rfl h
  · exact ne_of_isBarrier hb rfl h

theorem longBracket?_barrier (x s : Bytes) :
    (longBracket? (91 :: (x ++ b :: s))).isSome = (longBracket? (91 :: x)).isSome := by
  rw [Bool.eq_iff_iff]
  simp only [Option.isSome_iff_exists, longBracket?_eq_some_iff, ← cons_append]
  refine exists_congr fun signs => and_congr_right fun hsigns => ?_
  refine prefix_barrier (fun hmem => ?_) s
  simp only [openingBracket, mem_cons, mem_append, not_mem_nil, or_false] at hmem
  rcases hmem with h | h | h
  · exact ne_of_isBarrier hb rfl h
  · exact ne_of_isBarrier hb rfl (hsigns b h)
  · exact ne_of_isBarrier hb rfl h

theorem symbolRuns_barrier (w x s : Bytes) : symbolRuns w (x ++ b :: s) = symbolRuns w x := by
  have hlonger : longerSymbol w (x ++ b :: s) = longerSymbol w x := by
    rw [Bool.eq_iff_iff]
    simp only [longerSymbol, any_eq_true, Bool.and_eq_true, decide_eq_true_eq,
      isPrefixOf_iff_prefix, ← append_assoc]
    refine exists_congr fun u => and_congr_right fun hu => and_congr_right fun _ => ?_
    exact prefix_barrier (not_mem_symbol_of_isBarrier hb hu) s
  rw [symbolRuns, symbolRuns, hlonger, label_barrier hb, longBracket?_barrier hb,
    startsWith_barrier (p := (· == 45)) (beq_of_isBarrier hb rfl),
    startsWith_barrier (p := (· == 47)) (beq_of_isBarrier hb rfl),
    startsWith_barrier (isDigit_of_isBarrier hb)]

theorem runsInto_append_barrier {k : TokenKind} (hk : k.isGap = false) (w x s : Bytes) :
    runsInto k w (x ++ b :: s) = runsInto k w x := by
  have hword := startsWith_barrier (isWord_of_isBarrier hb) x s
  cases k with
  | number => exact numeralRuns_barrier hb w x s
  | symbol => exact symbolRuns_barrier hb w x s
  | general | string | label => rfl
  | name | keyword => rw [runsInto, runsInto, hword]
  | space | newline | comment => cases hk

theorem runsInto_barrier (k : TokenKind) (w x s s' : Bytes) :
    runsInto k w (x ++ b :: s) = runsInto k w (x ++ b :: s') := by
  cases hk : k.isGap with
  | false => rw [runsInto_append_barrier hb hk, runsInto_append_barrier hb hk]
  | true =>
    cases k with
    | space | newline | comment => simp only [runsInto, startsWith_append_cons _ x s s']
    | general | string | number | name | label | keyword | symbol => cases hk

end Barrier

end Cartridge.Lua
