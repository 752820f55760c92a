import Cartridge.Proofs.Lua.Barrier

/-!
# The texts of numerals

A numeral has the mark of a base and digits of that base, or it is a decimal with an optional exponent.
In both there may be a point.
-/

namespace Cartridge.Lua

open Recogniser List Bytes

variable {digit : UInt8 → Bool} {t u w : Bytes}

def Digits (digit : UInt8 → Bool) (x : Bytes) : Prop := x ≠ [] ∧ ∀ c ∈ x, digit c = true

inductive IsPower : Bytes → Prop
  | none : IsPower []
  | plain {e : UInt8} {x : Bytes} (he : e = 101 ∨ e = 69) (hx : Digits isDigit x) : IsPower (e :: x)
  | minus {e : UInt8} {x : Bytes} (he : e = 101 ∨ e = 69) (hx : Digits isDigit x) : IsPower (e :: 45 :: x)

inductive IsNumeral : Bytes → Prop
  | based {x : UInt8} {digit : UInt8 → Bool} {whole : Bytes} (hx : baseDigits? x = some digit)
      (hwhole : Digits digit whole) : IsNumeral (48 :: x :: whole)
  | basedPart {x : UInt8} {digit : UInt8 → Bool} {whole part : Bytes} (hx : baseDigits? x = some digit)
      (hwhole : ∀ c ∈ whole, digit c = true) (hpart : Digits digit part) :
      IsNumeral (48 :: x :: (whole ++ 46 :: part))
  | decimal {whole power : Bytes} (hwhole : Digits isDigit whole) (hpower : IsPower power) :
      IsNumeral (whole ++ power)
  | decimalPart {whole part power : Bytes} (hdigits : Digits isDigit (whole ++ part)) (hpower : IsPower power) :
      IsNumeral (whole ++ 46 :: (part ++ power))

theorem exists_run (p : UInt8 → Bool) (s : Bytes) :
    ∃ x r, s = x ++ r ∧ run p s = x.length ∧ s.drop (run p s) = r ∧ ∀ c ∈ x, p c = true := by
  have hsplit := (takeWhile_append_dropWhile (p := p) (l := s)).symm
  refine ⟨s.takeWhile p, s.dropWhile p, hsplit, rfl, ?_, fun c hc => all_eq_true.mp all_takeWhile c hc⟩
  exact (congrArg (List.drop (s.takeWhile p).length) hsplit).trans drop_left

theorem digits_of_run (h : (if run digit t = 0 then 0 else run digit t + 1) = t.length + 1) :
    Digits digit t := by
  split at h
  · cases h
  · next hne =>
    refine ⟨fun hnil => hne ?_, run_eq_length_iff.mp (by omega)⟩
    rw [hnil]
    rfl

theorem fraction_cases (h : fraction digit t = t.length) : t = [] ∨ ∃ x, t = 46 :: x ∧ Digits digit x := by
  cases t with
  | nil => exact .inl rfl
  | cons d x =>
    by_cases hd : d = 46
    · subst hd
      exact .inr ⟨x, rfl, digits_of_run h⟩
    · rw [fraction_of_ne hd] at h
      cases h

theorem isPower_of_power (h : power u = u.length) : IsPower u := by
  cases u with
  | nil => exact .none
  | cons e u =>
    by_cases he : e = 101 ∨ e = 69
    · cases hu : startsWith (· == 45) u with
      | false =>
        rw [power_plain he hu, length_cons] at h
        exact .plain he (digits_of_run h)
      | true =>
        cases u with
        | nil => cases hu
        | cons d u =>
          rw [beq_iff_eq.mp hu, power_minus he, length_cons, length_cons] at h
          rw [beq_iff_eq.mp hu]
          exact .minus he (digits_of_run (by split at h <;> simp_all))
    · rw [power_of_ne he] at h
      cases h

theorem tail_cases (h : tailLength u = u.length) :
    IsPower u ∨ ∃ part power, u = 46 :: (part ++ power) ∧ (∀ c ∈ part, isDigit c = true) ∧ IsPower power := by
  cases u with
  | nil => exact .inl .none
  | cons d u =>
    by_cases hd : d = 46
    · subst hd
      cases hu : startsWith (· == 46) u with
      | false =>
        obtain ⟨part, rest, rfl, hrun, hdrop, hpart⟩ := exists_run isDigit u
        rw [tailLength, openFraction_point hu, Nat.add_comm 1, drop_succ_cons, hdrop, hrun, length_cons,
          length_append] at h
        exact .inr ⟨part, rest, rfl, hpart, isPower_of_power (by omega)⟩
      | true =>
        cases u with
        | nil => cases hu
        | cons d u =>
          rw [beq_iff_eq.mp hu] at h
          cases h
    · rw [tailLength, openFraction_of_ne hd, List.drop_zero, Nat.zero_add] at h
      exact .inl (isPower_of_power h)

theorem isNumeral_of_numeral (hw : startsWith isDigit w = true) (h : numeral w = some w.length) :
    IsNumeral w := by
  cases w with
  | nil => cases hw
  | cons c w =>
    rw [startsWith_cons] at hw
    rcases base_cases c w with ⟨x, t, digit, rfl, rfl, hx⟩ | hnone
    · rw [numeral_of_base hx, Option.some.injEq, length_cons, length_cons] at h
      split at h
      · omega
      · next hsome =>
        obtain ⟨whole, rest, rfl, hrun, hdrop, hwhole⟩ := exists_run digit t
        rw [basedLength, hrun, ← hrun, hdrop] at h hsome
        rw [length_append] at h
        rcases fraction_cases (show fraction digit rest = rest.length by omega) with rfl | ⟨part, rfl, hpart⟩
        · rw [append_nil]
          refine .based hx ⟨?_, hwhole⟩
          rintro rfl
          exact hsome rfl
        · exact .basedPart hx hwhole hpart
    · rw [numeral_of_not_base hw hnone, decimal_eq] at h
      split at h
      · cases h
      · next hsome =>
        obtain ⟨whole, rest, hsplit, hrun, hdrop, hwhole⟩ := exists_run isDigit (c :: w)
        rw [hdrop, hrun, Option.some.injEq, hsplit, length_append, Nat.add_left_cancel_iff] at h
        have hne : whole ≠ [] := fun hnil => hsome (by rw [hrun, hnil]; rfl)
        rw [hsplit]
        rcases tail_cases h with hpower | ⟨part, power, rfl, hpart, hpower⟩
        · exact .decimal ⟨hne, hwhole⟩ hpower
        · exact .decimalPart ⟨append_ne_nil_of_left_ne_nil hne part, forall_mem_append.mpr ⟨hwhole, hpart⟩⟩ hpower

theorem isNumeral_of_pointed (h : pointed (46 :: t) = some (t.length + 1)) : IsNumeral (46 :: t) := by
  rw [pointed_eq] at h
  split at h
  · next ht =>
    rcases tail_cases (u := 46 :: t) (Option.some.inj h) with hpower | ⟨part, power, heq, hpart, hpower⟩
    · cases hpower with
      | plain he _ => exact absurd he (by decide)
      | minus he _ => exact absurd he (by decide)
    · rw [cons.injEq] at heq
      obtain ⟨-, rfl⟩ := heq
      refine @IsNumeral.decimalPart [] _ _ ⟨?_, hpart⟩ hpower
      rintro rfl
      cases hpower with
      | none => cases ht
      | plain he _ => rcases he with rfl | rfl <;> cases ht
      | minus he _ => rcases he with rfl | rfl <;> cases ht
  · cases h

/-! ### Bytes of numerals -/

def isNumeralByte (c : UInt8) : Bool := isWord c || c == 46 || c == 45

theorem isNumeralByte_of_digit (hdigit : ∀ c, digit c = true → isWord c = true) {c : UInt8} (hc : digit c = true) :
    isNumeralByte c = true := by
  simp [isNumeralByte, hdigit c hc]

theorem isNumeralByte_of_isPower (h : IsPower u) : ∀ c ∈ u, isNumeralByte c = true := by
  have hdigit : ∀ {x : Bytes}, Digits isDigit x → ∀ c ∈ x, isNumeralByte c = true := fun hx c hc =>
    isNumeralByte_of_digit (fun _ => isWord_of_isDigit) (hx.2 c hc)
  have hletter : ∀ e : UInt8, e = 101 ∨ e = 69 → isNumeralByte e = true := by
    rintro e (rfl | rfl) <;> rfl
  cases h with
  | none => simp
  | plain he hx => exact forall_mem_cons.mpr ⟨hletter _ he, hdigit hx⟩
  | minus he hx => exact forall_mem_cons.mpr ⟨hletter _ he, forall_mem_cons.mpr ⟨rfl, hdigit hx⟩⟩

theorem IsNumeral.isNumeralByte (h : IsNumeral w) : ∀ c ∈ w, isNumeralByte c = true := by
  have hbase : ∀ {x : UInt8} {digit : UInt8 → Bool}, baseDigits? x = some digit → ∀ {s : Bytes},
      (∀ c ∈ s, digit c = true ∨ c = 46) → ∀ c ∈ 48 :: x :: s, Lua.isNumeralByte c = true := by
    intro x digit hx s hs
    refine forall_mem_cons.mpr ⟨rfl, forall_mem_cons.mpr ⟨?_, fun c hc => ?_⟩⟩
    · rcases letter_of_baseDigits? hx with rfl | rfl | rfl | rfl <;> rfl
    · rcases hs c hc with hdigit | rfl
      · exact isNumeralByte_of_digit (fun _ => isWord_of_baseDigits? hx) hdigit
      · rfl
  have hdigits : ∀ {x : Bytes}, (∀ c ∈ x, isDigit c = true) → ∀ c ∈ x, Lua.isNumeralByte c = true := fun hx c hc =>
    isNumeralByte_of_digit (fun _ => isWord_of_isDigit) (hx c hc)
  cases h with
  | based hx hwhole => exact hbase hx fun c hc => .inl (hwhole.2 c hc)
  | basedPart hx hwhole hpart =>
    refine hbase hx (forall_mem_append.mpr ⟨fun c hc => .inl (hwhole c hc), ?_⟩)
    exact forall_mem_cons.mpr ⟨.inr rfl, fun c hc => .inl (hpart.2 c hc)⟩
  | decimal hwhole hpower =>
    exact forall_mem_append.mpr ⟨hdigits hwhole.2, isNumeralByte_of_isPower hpower⟩
  | decimalPart hboth hpower =>
    obtain ⟨hwhole, hpart⟩ := forall_mem_append.mp hboth.2
    refine forall_mem_append.mpr ⟨hdigits hwhole, forall_mem_cons.mpr ⟨rfl, ?_⟩⟩
    exact forall_mem_append.mpr ⟨hdigits hpart, isNumeralByte_of_isPower hpower⟩

end Cartridge.Lua
