import Cartridge.Proofs.Lua.FirstMatch

/-!
# Where a numeral ends

A numeral is read as far as it goes, so whether a text stands as one numeral in front of another
text depends on how that text starts.  Digits always run into a numeral; a point, an exponent or the
letter of a base does if the numeral has room for one.
-/

namespace Cartridge.Lua

open Recogniser List

variable {c x : UInt8} {digit p : UInt8 → Bool} {s w : Bytes}

def startsWith (p : UInt8 → Bool) (r : Bytes) : Bool := r.head?.any p

@[simp] theorem startsWith_nil (p : UInt8 → Bool) : startsWith p [] = false := by
  simp [startsWith]

@[simp] theorem startsWith_cons (p : UInt8 → Bool) (c : UInt8) (r : Bytes) :
    startsWith p (c :: r) = p c := by
  simp [startsWith]

/-! ### Runs -/

namespace Recogniser

@[simp] theorem run_nil (p : UInt8 → Bool) : run p [] = 0 := rfl

theorem run_cons_of_pos (h : p c = true) (s : Bytes) : run p (c :: s) = run p s + 1 := by
  simp [run, h]

theorem run_cons_of_neg (h : p c = false) (s : Bytes) : run p (c :: s) = 0 := by
  simp [run, h]

theorem run_le (p : UInt8 → Bool) (s : Bytes) : run p s ≤ s.length :=
  (List.takeWhile_prefix p).length_le

theorem run_eq_zero_iff {r : Bytes} : run p r = 0 ↔ startsWith p r = false := by
  cases r with
  | nil => simp
  | cons c r => cases h : p c <;> simp [run, h]

theorem run_append_of_eq (h : run p w = w.length) (r : Bytes) : run p (w ++ r) = w.length + run p r := by
  induction w with
  | nil => simp
  | cons c w ih =>
    cases hc : p c with
    | false => rw [run_cons_of_neg hc] at h; simp at h
    | true =>
      rw [run_cons_of_pos hc, length_cons] at h
      rw [cons_append, run_cons_of_pos hc, ih (by omega), length_cons]
      omega

theorem run_append_of_ne (h : run p w ≠ w.length) (r : Bytes) : run p (w ++ r) = run p w := by
  induction w with
  | nil => exact absurd rfl h
  | cons c w ih =>
    cases hc : p c with
    | false => rw [cons_append, run_cons_of_neg hc, run_cons_of_neg hc]
    | true =>
      rw [run_cons_of_pos hc, length_cons] at h
      rw [cons_append, run_cons_of_pos hc, run_cons_of_pos hc, ih (by omega)]

theorem run_append_eq_iff {r : Bytes} :
    run p (w ++ r) = w.length ↔ run p w = w.length ∧ startsWith p r = false := by
  by_cases h : run p w = w.length
  · rw [run_append_of_eq h, ← run_eq_zero_iff]
    omega
  · rw [run_append_of_ne h]
    exact ⟨fun h' => absurd h' h, fun h' => h'.1⟩

theorem run_eq_length_iff : run p w = w.length ↔ ∀ c ∈ w, p c = true := by
  induction w with
  | nil => simp
  | cons c w ih =>
    cases hc : p c with
    | false => simp [run_cons_of_neg hc, hc]
    | true => simp [run_cons_of_pos hc, hc, ih]

theorem run_append_cons {x : Bytes} (hx : run p x = x.length) {d : UInt8} (hd : p d = false) (v : Bytes) :
    run p (x ++ d :: v) = x.length := by
  rw [run_append_of_eq hx, run_cons_of_neg hd, Nat.add_zero]

theorem exists_of_run_ne (h : run p w ≠ w.length) :
    ∃ x d v, w = x ++ d :: v ∧ run p x = x.length ∧ p d = false := by
  induction w with
  | nil => exact absurd rfl h
  | cons c w ih =>
    cases hc : p c with
    | false => exact ⟨[], c, w, rfl, rfl, hc⟩
    | true =>
      rw [run_cons_of_pos hc, length_cons] at h
      obtain ⟨x, d, v, rfl, hx, hd⟩ := ih (by omega)
      exact ⟨c :: x, d, v, rfl, by rw [run_cons_of_pos hc, hx, length_cons], hd⟩

end Recogniser

/-! ### Numerals of a base -/

def baseDigits? (x : UInt8) : Option (UInt8 → Bool) :=
  if x = 120 || x = 88 then some Hex.isDigit
  else if x = 98 || x = 66 then some isBinaryDigit
  else none

def basedLength (digit : UInt8 → Bool) (s : Bytes) : Nat :=
  run digit s + fraction digit (s.drop (run digit s))

theorem not_digit_point (h : baseDigits? x = some digit) : digit 46 = false := by
  unfold baseDigits? at h
  split at h
  · cases h; rfl
  · split at h
    · cases h; rfl
    · cases h

theorem letter_of_baseDigits? (h : baseDigits? x = some digit) : x = 120 ∨ x = 88 ∨ x = 98 ∨ x = 66 := by
  unfold baseDigits? at h
  split at h
  · next hx => simp at hx; rcases hx with h | h <;> simp [h]
  · split at h
    · next hx => simp at hx; rcases hx with h | h <;> simp [h]
    · cases h

theorem numeral_of_base (h : baseDigits? x = some digit) (t : Bytes) :
    numeral (48 :: x :: t) =
      some (if basedLength digit t = 0 then 1 else basedLength digit t + 2) := by
  have hsimple : ∀ l u : UInt8, (x = l || x = u) = true →
      (based l u digit (48 :: x :: t)).or (basedFraction l u digit (48 :: x :: t)) =
        if basedLength digit t = 0 then none else some (basedLength digit t + 2) := by
    intro l u hx
    simp only [based, basedFraction, hx, if_true, basedLength]
    by_cases hrun : run digit t = 0
    · simp [hrun, Nat.add_comm]
    · simp [hrun, Nat.add_comm, Nat.add_assoc]
  have hother : ∀ l u : UInt8, (x = l || x = u) = false → ∀ p,
      based l u p (48 :: x :: t) = none ∧ basedFraction l u p (48 :: x :: t) = none := by
    intro l u hx p
    simp [based, basedFraction, hx]
  have hdecimal : decimal (48 :: x :: t) = some 1 := by
    rcases letter_of_baseDigits? h with rfl | rfl | rfl | rfl <;> rfl
  unfold baseDigits? at h
  split at h
  · next hx =>
    cases h
    have hb := hother 98 66 (by simp at hx ⊢; rcases hx with rfl | rfl <;> decide) isBinaryDigit
    rw [numeral, ← Option.or_assoc, hsimple 120 88 hx, hb.1, hb.2, hdecimal]
    split <;> simp [*]
  · next hx =>
    split at h
    · next hx' =>
      cases h
      have hb := hother 120 88 (by simpa using hx) Hex.isDigit
      rw [numeral, hb.1, hb.2, Option.none_or, Option.none_or, ← Option.or_assoc,
        hsimple 98 66 hx', hdecimal]
      split <;> simp [*]
    · cases h

def basedRuns (digit : UInt8 → Bool) (w r : Bytes) : Bool :=
  startsWith digit r || (!w.contains 46 && fraction digit r != 0)

theorem marked_append_iff (p : UInt8 → Bool) {k : Nat} (hk : k ≠ 0) (v r : Bytes) :
    (if run p (v ++ r) = 0 then 0 else run p (v ++ r) + k) = v.length + k ↔
      (if run p v = 0 then 0 else run p v + k) = v.length + k ∧ startsWith p r = false := by
  have h := run_append_eq_iff (p := p) (w := v) (r := r)
  constructor
  · intro heq
    split at heq
    · omega
    · obtain ⟨hfull, hr⟩ := h.1 (by omega)
      rw [if_neg (by omega)]
      exact ⟨by omega, hr⟩
  · rintro ⟨heq, hr⟩
    split at heq
    · omega
    · rw [h.2 ⟨by omega, hr⟩, if_neg (by omega)]

theorem fraction_append_iff (v r : Bytes) :
    fraction digit (46 :: (v ++ r)) = v.length + 1 ↔
      fraction digit (46 :: v) = v.length + 1 ∧ startsWith digit r = false :=
  marked_append_iff digit (by decide) v r

theorem basedLength_append_iff (hpoint : digit 46 = false) (t r : Bytes) :
    basedLength digit (t ++ r) = t.length ↔
      basedLength digit t = t.length ∧ basedRuns digit t r = false := by
  unfold basedLength basedRuns
  by_cases hfull : run digit t = t.length
  · have hcontains : t.contains 46 = false := by
      rw [contains_eq_mem, decide_eq_false_iff_not]
      intro hmem
      rw [run_eq_length_iff.mp hfull 46 hmem] at hpoint
      cases hpoint
    have hdrop : (t ++ r).drop (t.length + run digit r) = r.drop (run digit r) := by
      rw [drop_append, drop_eq_nil_of_le (by omega), nil_append,
        Nat.add_sub_cancel_left]
    rw [run_append_of_eq hfull, hdrop, hfull, drop_length, hcontains]
    simp only [fraction, Nat.add_zero, true_and, Bool.or_eq_false_iff, Bool.not_false,
      Bool.true_and, bne_eq_false_iff_eq, ← run_eq_zero_iff]
    constructor
    · intro h
      have hrun : run digit r = 0 := by omega
      rw [hrun, List.drop_zero] at h
      exact ⟨hrun, by omega⟩
    · rintro ⟨hrun, hfrac⟩
      rw [hrun, List.drop_zero]
      omega
  · obtain ⟨x, d, v, rfl, hx, hd⟩ := exists_of_run_ne hfull
    rw [append_assoc, cons_append, run_append_cons hx hd, run_append_cons hx hd,
      drop_left, drop_left, length_append, length_cons]
    by_cases hd46 : d = 46
    · subst hd46
      have hcontains : (x ++ 46 :: v).contains 46 = true := by simp
      rw [hcontains, Nat.add_left_cancel_iff, Nat.add_left_cancel_iff, fraction_append_iff]
      simp
    · rw [fraction_of_ne hd46, fraction_of_ne hd46]
      constructor
      · intro h
        omega
      · rintro ⟨h, -⟩
        omega

/-! ### Decimal numerals -/

def tailLength (s : Bytes) : Nat := openFraction s + power (s.drop (openFraction s))

theorem decimal_eq (s : Bytes) :
    decimal s = if run Bytes.isDigit s = 0 then none
      else some (run Bytes.isDigit s + tailLength (s.drop (run Bytes.isDigit s))) := by
  simp only [decimal, tailLength, drop_drop, Nat.add_assoc]

theorem openFraction_of_ne (h : c ≠ 46) (s : Bytes) : openFraction (c :: s) = 0 := by
  unfold openFraction
  split
  · next heq => simp at heq; exact absurd heq.1 h
  · rfl

theorem openFraction_points (s : Bytes) : openFraction (46 :: 46 :: s) = 0 := rfl

theorem openFraction_point (h : startsWith (· == 46) s = false) :
    openFraction (46 :: s) = 1 + run Bytes.isDigit s := by
  simp only [openFraction]
  split
  · simp at h
  · rfl

theorem power_of_ne (h : ¬(c = 101 ∨ c = 69)) (s : Bytes) : power (c :: s) = 0 := by
  simp [power, h]

def hasPower (w : Bytes) : Bool := w.any fun c => c == 101 || c == 69

theorem power_minus {e : UInt8} (he : e = 101 ∨ e = 69) (s : Bytes) :
    power (e :: 45 :: s) = if run Bytes.isDigit s = 0 then 0 else run Bytes.isDigit s + 2 := by
  simp [power, he]

theorem power_plain {e : UInt8} (he : e = 101 ∨ e = 69) (hs : startsWith (· == 45) s = false) :
    power (e :: s) = if run Bytes.isDigit s = 0 then 0 else run Bytes.isDigit s + 1 := by
  simp only [power]
  split
  · split
    · simp at hs
    · rfl
  · next hne => simp [he] at hne

theorem power_append_iff (u r : Bytes) (hu : u ≠ []) :
    power (u ++ r) = u.length ↔ power u = u.length ∧ startsWith Bytes.isDigit r = false := by
  obtain ⟨e, u, rfl⟩ := exists_cons_of_ne_nil hu
  by_cases he : e = 101 ∨ e = 69
  · cases u with
    | nil =>
      have hne : power (e :: r) ≠ 1 := by
        cases hr : startsWith (· == 45) r with
        | false => rw [power_plain he hr]; split <;> omega
        | true =>
          cases r with
          | nil => cases hr
          | cons d r =>
            rw [beq_iff_eq.mp hr, power_minus he]
            split <;> omega
      have hzero : power [e] = 0 := power_plain he rfl
      simp [hne, hzero]
    | cons d u =>
      by_cases hd : d = 45
      · subst hd
        rw [cons_append, cons_append, power_minus he, power_minus he]
        exact marked_append_iff Bytes.isDigit (by decide) u r
      · have hplain : ∀ s, startsWith (· == 45) (d :: s) = false := fun _ => by simp [hd]
        rw [cons_append, cons_append, power_plain he (hplain _), power_plain he (hplain _)]
        exact marked_append_iff Bytes.isDigit (by decide) (d :: u) r
  · rw [cons_append, power_of_ne he, power_of_ne he]
    simp

theorem hasPower_of_power {u : Bytes} (h : power u ≠ 0) : hasPower u = true := by
  cases u with
  | nil => exact absurd rfl h
  | cons e u =>
    by_cases he : e = 101 ∨ e = 69
    · simp [hasPower, he]
    · exact absurd (power_of_ne he u) h

theorem hasPower_of_digits (h : run Bytes.isDigit w = w.length) : hasPower w = false := by
  rw [hasPower, List.any_eq_false]
  intro c hc
  have hdigit := run_eq_length_iff.mp h c hc
  intro hor
  simp only [Bool.or_eq_true, beq_iff_eq] at hor
  rcases hor with rfl | rfl <;> exact absurd hdigit (by decide)

def endsInPoint (w : Bytes) : Bool := w.drop (run Bytes.isDigit w) == [46]

/-- Whether `r` runs into a decimal numeral.  Two points in a row are an operator, which takes the
point from digits that end in one. -/
def decimalRuns (w r : Bytes) : Bool :=
  startsWith Bytes.isDigit r ||
    (!hasPower w && (power r != 0 || (!w.contains 46 && openFraction r != 0))) ||
      (endsInPoint w && startsWith (· == 46) r)

theorem run_add_power_append_iff (v r : Bytes) :
    run Bytes.isDigit (v ++ r) + power ((v ++ r).drop (run Bytes.isDigit (v ++ r))) = v.length ↔
      run Bytes.isDigit v + power (v.drop (run Bytes.isDigit v)) = v.length ∧
        startsWith Bytes.isDigit r = false ∧ (hasPower v = false → power r = 0) := by
  by_cases hfull : run Bytes.isDigit v = v.length
  · have hdrop : (v ++ r).drop (v.length + run Bytes.isDigit r) = r.drop (run Bytes.isDigit r) := by
      rw [drop_append, drop_eq_nil_of_le (by omega), nil_append,
        Nat.add_sub_cancel_left]
    rw [run_append_of_eq hfull, hdrop, hfull, drop_length, ← run_eq_zero_iff]
    have hnil : power [] = 0 := rfl
    constructor
    · intro h
      have hrun : run Bytes.isDigit r = 0 := by omega
      rw [hrun, List.drop_zero] at h
      exact ⟨by omega, hrun, fun _ => by omega⟩
    · rintro ⟨-, hrun, hpower⟩
      rw [hrun, List.drop_zero, hpower (hasPower_of_digits hfull)]
      rfl
  · obtain ⟨x, d, u, rfl, hx, hd⟩ := exists_of_run_ne hfull
    have hpower := power_append_iff (d :: u) r (by simp)
    rw [append_assoc, cons_append, run_append_cons hx hd, run_append_cons hx hd,
      drop_left, drop_left, length_append, Nat.add_left_cancel_iff,
      Nat.add_left_cancel_iff, ← cons_append, hpower]
    constructor
    · rintro ⟨h1, h2⟩
      have hsome : hasPower (d :: u) = true := hasPower_of_power (by simp [h1])
      have hhas : hasPower (x ++ d :: u) = true := by
        rw [hasPower, List.any_append, ← hasPower, ← hasPower, hsome, Bool.or_true]
      exact ⟨h1, h2, by simp [hhas]⟩
    · rintro ⟨h1, h2, -⟩
      exact ⟨h1, h2⟩

theorem tailLength_append_iff (u r : Bytes) (hu : u ≠ []) :
    tailLength (u ++ r) = u.length ↔
      tailLength u = u.length ∧ startsWith Bytes.isDigit r = false ∧
        (hasPower u = false → power r = 0) ∧ (u = [46] → startsWith (· == 46) r = false) := by
  obtain ⟨d, v, rfl⟩ := exists_cons_of_ne_nil hu
  by_cases hd : d = 46
  · subst hd
    have hpoint : ∀ s, startsWith (· == 46) s = false →
        tailLength (46 :: s) = (run Bytes.isDigit s + power (s.drop (run Bytes.isDigit s))) + 1 := by
      intro s hs
      rw [tailLength, openFraction_point hs, Nat.add_comm 1 (run _ s), drop_succ_cons]
      omega
    have hpoints : ∀ s, tailLength (46 :: 46 :: s) = 0 := fun _ => rfl
    have hrun := run_add_power_append_iff v r
    have hhas : hasPower (46 :: v) = hasPower v := rfl
    rw [cons_append, length_cons, hhas]
    cases v with
    | nil =>
      cases hr : startsWith (· == 46) r with
      | true =>
        cases r with
        | nil => cases hr
        | cons c r =>
          rw [beq_iff_eq.mp hr, nil_append, hpoints]
          simp
      | false =>
        rw [nil_append] at hrun ⊢
        rw [hpoint r hr, hpoint [] rfl, Nat.add_right_cancel_iff, Nat.add_right_cancel_iff, hrun]
        simp
    | cons e v =>
      by_cases he : e = 46
      · subst he
        rw [cons_append, hpoints, hpoints]
        simp
      · have hs : ∀ s, startsWith (· == 46) (e :: s) = false := fun _ => by simp [he]
        rw [hpoint (e :: v ++ r) (hs _), hpoint _ (hs _), Nat.add_right_cancel_iff, Nat.add_right_cancel_iff,
          hrun]
        simp
  · have htail : ∀ s, tailLength (d :: s) = power (d :: s) := by
      intro s
      rw [tailLength, openFraction_of_ne hd, List.drop_zero, Nat.zero_add]
    rw [cons_append, htail, htail, ← cons_append, power_append_iff _ r hu]
    constructor
    · rintro ⟨h1, h2⟩
      have hsome : hasPower (d :: v) = true := hasPower_of_power (by simp [h1])
      exact ⟨h1, h2, by simp [hsome], by simp [hd]⟩
    · rintro ⟨h1, h2, -, -⟩
      exact ⟨h1, h2⟩

theorem decimal_append_iff (hw : startsWith Bytes.isDigit w = true) (r : Bytes) :
    decimal (w ++ r) = some w.length ↔ decimal w = some w.length ∧ decimalRuns w r = false := by
  have hpos : run Bytes.isDigit w ≠ 0 := by
    intro h
    rw [run_eq_zero_iff.mp h] at hw
    cases hw
  rw [decimal_eq, decimal_eq, if_neg hpos]
  by_cases hfull : run Bytes.isDigit w = w.length
  · have hdrop : (w ++ r).drop (w.length + run Bytes.isDigit r) = r.drop (run Bytes.isDigit r) := by
      rw [drop_append, drop_eq_nil_of_le (by omega), nil_append,
        Nat.add_sub_cancel_left]
    have hcontains : w.contains 46 = false := by
      rw [contains_eq_mem, decide_eq_false_iff_not]
      intro hmem
      exact absurd (run_eq_length_iff.mp hfull 46 hmem) (by decide)
    have hends : endsInPoint w = false := by simp [endsInPoint, hfull]
    have hnil : tailLength [] = 0 := rfl
    rw [run_append_of_eq hfull, hdrop, hfull, if_neg (by omega), drop_length, hnil, decimalRuns,
      hasPower_of_digits hfull, hcontains, hends]
    simp only [Option.some.injEq, Nat.add_zero, true_and, Bool.false_and, Bool.or_false,
      Bool.not_false, Bool.true_and, Bool.or_eq_false_iff, bne_eq_false_iff_eq, ← run_eq_zero_iff]
    constructor
    · intro h
      have hrun : run Bytes.isDigit r = 0 := by omega
      rw [hrun, List.drop_zero] at h
      have htail : tailLength r = 0 := by omega
      rw [tailLength] at htail
      have hopen : openFraction r = 0 := by omega
      rw [hopen, List.drop_zero] at htail
      exact ⟨hrun, by omega, hopen⟩
    · rintro ⟨hrun, hpower, hopen⟩
      rw [hrun, List.drop_zero, tailLength, hopen, List.drop_zero, hpower]
      rfl
  · obtain ⟨x, d, v, rfl, hx, hd⟩ := exists_of_run_ne hfull
    have hx46 : x.contains 46 = false := by
      rw [contains_eq_mem, decide_eq_false_iff_not]
      intro hmem
      exact absurd (run_eq_length_iff.mp hx 46 hmem) (by decide)
    have hhas : hasPower (x ++ d :: v) = hasPower (d :: v) := by
      rw [hasPower, List.any_append, ← hasPower, ← hasPower, hasPower_of_digits hx, Bool.false_or]
    have hends : endsInPoint (x ++ d :: v) = (d :: v == [46]) := by
      rw [endsInPoint, run_append_cons hx hd, drop_left]
    rw [run_append_cons hx hd] at hpos
    rw [append_assoc, cons_append, run_append_cons hx hd, run_append_cons hx hd,
      drop_left, drop_left, if_neg hpos, length_append, Option.some.injEq,
      Option.some.injEq, Nat.add_left_cancel_iff, Nat.add_left_cancel_iff, ← cons_append,
      tailLength_append_iff (d :: v) r (by simp), decimalRuns, hhas, hends]
    -- behind the digits stands an exponent, or a point that leaves no room for another
    have hroom : tailLength (d :: v) = (d :: v).length →
        hasPower (d :: v) = true ∨ (x ++ d :: v).contains 46 = true := by
      intro h
      by_cases hd46 : d = 46
      · exact .inr (by simp [hd46])
      · rw [tailLength, openFraction_of_ne hd46, List.drop_zero, Nat.zero_add] at h
        exact .inl (hasPower_of_power (by simp [h]))
    constructor
    · rintro ⟨h1, h2, h3, h4⟩
      refine ⟨h1, ?_⟩
      have hends' : ((d :: v == [46]) && startsWith (· == 46) r) = false := by
        cases hv : (d :: v == [46]) with
        | false => rfl
        | true => rw [h4 (beq_iff_eq.mp hv)]; rfl
      rw [h2, hends']
      cases hp : hasPower (d :: v) with
      | true => rfl
      | false =>
        have hcontains : (x ++ d :: v).contains 46 = true := by
          rcases hroom h1 with h | h
          · rw [hp] at h; cases h
          · exact h
        rw [hcontains, h3 hp]
        rfl
    · rintro ⟨h1, h2⟩
      simp only [Bool.or_eq_false_iff, Bool.and_eq_false_iff, Bool.not_eq_false',
        bne_eq_false_iff_eq, beq_eq_false_iff_ne] at h2
      obtain ⟨⟨hdigit, hpower⟩, hpoint⟩ := h2
      refine ⟨h1, hdigit, fun hp => ?_, fun hv => ?_⟩
      · rcases hpower with h | h
        · rw [hp] at h; cases h
        · exact h.1
      · exact hpoint.resolve_left fun hne => hne hv

theorem pointed_eq (t : Bytes) :
    pointed (46 :: t) =
      if startsWith Bytes.isDigit t then some (tailLength (46 :: t)) else none := by
  cases ht : startsWith Bytes.isDigit t with
  | false =>
    have hrun := run_eq_zero_iff.mpr ht
    simp [pointed, fraction, hrun]
  | true =>
    have hrun : run Bytes.isDigit t ≠ 0 := by
      intro h
      rw [run_eq_zero_iff.mp h] at ht
      cases ht
    have hpoint : startsWith (· == 46) t = false := by
      cases t with
      | nil => rfl
      | cons c t =>
        rw [startsWith_cons, beq_eq_false_iff_ne]
        rintro rfl
        rw [startsWith_cons] at ht
        exact absurd ht (by decide)
    rw [tailLength, openFraction_point hpoint]
    simp [pointed, fraction, hrun, Nat.add_comm]

theorem pointed_append_iff (t r : Bytes) :
    pointed (46 :: (t ++ r)) = some (t.length + 1) ↔
      pointed (46 :: t) = some (t.length + 1) ∧ decimalRuns (46 :: t) r = false := by
  rw [pointed_eq, pointed_eq]
  cases t with
  | nil =>
    have hne : startsWith Bytes.isDigit r = true → tailLength (46 :: r) ≠ 1 := by
      intro hr h
      have := (tailLength_append_iff [46] r (by simp)).mp h
      rw [this.2.1] at hr
      cases hr
    simp only [nil_append, startsWith_nil]
    constructor
    · intro h
      split at h
      · next hr => exact absurd (Option.some.inj h) (hne hr)
      · cases h
    · rintro ⟨h, -⟩
      cases h
  | cons c t =>
    have htail := tailLength_append_iff (46 :: c :: t) r (by simp)
    simp only [cons_append, startsWith_cons, length_cons] at htail ⊢
    by_cases hc : Bytes.isDigit c = true
    · have hends : endsInPoint (46 :: c :: t) = false := by
        rw [endsInPoint, run_cons_of_neg rfl]
        simp
      have hcontains : (46 :: c :: t).contains 46 = true := by simp
      rw [if_pos hc, if_pos hc]
      simp only [Option.some.injEq, htail, decimalRuns, hends, hcontains]
      simp only [Bool.not_true, Bool.false_and, Bool.or_false, Bool.or_eq_false_iff,
        Bool.and_eq_false_iff, Bool.not_eq_false', bne_eq_false_iff_eq, List.cons.injEq,
        reduceCtorEq, and_false, false_implies, and_true]
      cases hasPower (46 :: c :: t) <;> simp
    · rw [if_neg hc, if_neg hc]
      simp

/-! ### All numerals -/

def opensBase : Bytes → Bool
  | x :: t => (baseDigits? x).any fun digit => basedLength digit t != 0
  | [] => false

def base? : Bytes → Option ((UInt8 → Bool) × Bytes)
  | 48 :: x :: t => (baseDigits? x).map fun digit => (digit, t)
  | _ => none

def numeralRuns (w r : Bytes) : Bool :=
  match base? w with
  | some (digit, t) => basedRuns digit t r
  | none => decimalRuns w r || (w == [48] && opensBase r)

theorem numeral_of_not_base (hc : Bytes.isDigit c = true) (h : c = 48 → (s.head?.bind baseDigits?) = none) :
    numeral (c :: s) = decimal (c :: s) := by
  have hsome : decimal (c :: s) ≠ none := by
    rw [decimal_eq, if_neg (by rw [run_cons_of_pos hc]; omega)]
    simp
  have hbased : ∀ l u : UInt8, (baseDigits? l).isSome → (baseDigits? u).isSome → ∀ digit,
      based l u digit (c :: s) = none ∧ basedFraction l u digit (c :: s) = none := by
    intro l u hl hu digit
    by_cases hzero : c = 48
    · subst hzero
      cases s with
      | nil => exact ⟨rfl, rfl⟩
      | cons x t =>
        have hx : baseDigits? x = none := by simpa using h rfl
        have hxl : x ≠ l := by rintro rfl; rw [hx] at hl; cases hl
        have hxu : x ≠ u := by rintro rfl; rw [hx] at hu; cases hu
        simp [based, basedFraction, hxl, hxu]
    · exact ⟨based_of_ne hzero l u digit s, basedFraction_of_ne hzero l u digit s⟩
  obtain ⟨h1, h2⟩ := hbased 120 88 rfl rfl Hex.isDigit
  obtain ⟨h3, h4⟩ := hbased 98 66 rfl rfl isBinaryDigit
  rw [numeral, h1, h2, h3, h4]
  cases hd : decimal (c :: s) with
  | none => exact absurd hd hsome
  | some n => rfl

theorem base_cases (c : UInt8) (s : Bytes) :
    (∃ x t digit, c = 48 ∧ s = x :: t ∧ baseDigits? x = some digit) ∨
      (c = 48 → s.head?.bind baseDigits? = none) := by
  by_cases hc : c = 48
  · cases s with
    | nil => exact .inr fun _ => rfl
    | cons x t =>
      cases hx : baseDigits? x with
      | none => exact .inr fun _ => hx
      | some digit => exact .inl ⟨x, t, digit, hc, rfl, hx⟩
  · exact .inr fun h => absurd h hc

theorem numeral_append_iff (hw : startsWith Bytes.isDigit w = true) (r : Bytes) :
    numeral (w ++ r) = some w.length ↔ numeral w = some w.length ∧ numeralRuns w r = false := by
  cases w with
  | nil => cases hw
  | cons c w =>
    rw [startsWith_cons] at hw
    -- the letter of a base is in the numeral, in the next text, or nowhere
    rcases base_cases c w with ⟨x, t, digit, rfl, rfl, hdigit⟩ | hnone
    · have hbased := basedLength_append_iff (not_digit_point hdigit) t r
      have hruns : numeralRuns (48 :: x :: t) r = basedRuns digit t r := by
        simp [numeralRuns, base?, hdigit]
      rw [cons_append, cons_append, numeral_of_base hdigit, numeral_of_base hdigit,
        hruns]
      simp only [length_cons, Option.some.injEq]
      constructor
      · intro h
        split at h
        · omega
        · obtain ⟨h1, h2⟩ := hbased.1 (by omega)
          rw [if_neg (by omega)]
          exact ⟨by omega, h2⟩
      · rintro ⟨h1, h2⟩
        split at h1
        · omega
        · have := hbased.2 ⟨by omega, h2⟩
          rw [if_neg (by omega)]
          omega
    · have hbase? : base? (c :: w) = none := by
        unfold base?
        split
        · next x t heq =>
          cases heq
          rw [Option.map_eq_none_iff]
          simpa using hnone rfl
        · rfl
      have hruns : numeralRuns (c :: w) r =
          (decimalRuns (c :: w) r || (c :: w == [48] && opensBase r)) := by
        rw [numeralRuns, hbase?]
      rw [hruns, numeral_of_not_base hw hnone]
      by_cases hfollow : c :: w = [48] ∧ (r.head?.bind baseDigits?).isSome = true
      · obtain ⟨hzero, hx⟩ := hfollow
        cases hzero
        cases r with
        | nil => cases hx
        | cons x t =>
          obtain ⟨digit, hdigit⟩ := Option.isSome_iff_exists.mp hx
          have hdigit' : baseDigits? x = some digit := by simpa using hdigit
          have hopens : opensBase (x :: t) = (basedLength digit t != 0) := by
            simp [opensBase, hdigit']
          have hdecimal : decimalRuns [48] (x :: t) = false := by
            rcases letter_of_baseDigits? hdigit' with rfl | rfl | rfl | rfl <;> rfl
          rw [cons_append, nil_append, numeral_of_base hdigit', hopens, hdecimal]
          have hone : decimal [48] = some 1 := rfl
          rw [hone]
          by_cases hl : basedLength digit t = 0
          · simp [hl]
          · simp [hl]
      · have hnone' : c = 48 → (w ++ r).head?.bind baseDigits? = none := by
          intro hc
          cases w with
          | nil =>
            rw [nil_append, ← Option.not_isSome_iff_eq_none]
            exact fun hs => hfollow ⟨by rw [hc], hs⟩
          | cons x t => exact hnone hc
        have hopens : (c :: w == [48] && opensBase r) = false := by
          rw [Bool.and_eq_false_iff]
          by_cases hzero : c :: w = [48]
          · refine .inr ?_
            cases r with
            | nil => rfl
            | cons x t =>
              have hx : baseDigits? x = none := by
                rw [← Option.not_isSome_iff_eq_none]
                exact fun hs => hfollow ⟨hzero, hs⟩
              simp [opensBase, hx]
          · exact .inl (beq_eq_false_iff_ne.mpr hzero)
        rw [cons_append, numeral_of_not_base hw hnone', ← cons_append,
          decimal_append_iff (w := c :: w) hw r, hopens, Bool.or_false]

end Cartridge.Lua
