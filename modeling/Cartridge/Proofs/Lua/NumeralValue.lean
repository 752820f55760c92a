import Cartridge.Numeral.Value
import Cartridge.Proofs.Lua.TokenText
import Cartridge.Proofs.Text.Hex
import Mathlib.Algebra.Group.Nat.Defs

/-!
# Which numerals have a value

A numeral that the rules find is read again for its value.  Decimals always have one, and so have numerals of a
base, if they are not too long.  But only a small letter is known as the mark of a base, and there have to be
digits between the mark and a point.
-/

namespace Cartridge.Binary64

variable {num : Nat}

theorem roundDiv_le (num den : Nat) : roundDiv num den ≤ num / den + 1 := by
  unfold roundDiv
  dsimp only
  repeat' split
  all_goals omega

theorem scale_one (num : Nat) : num.log2 + 1021 ≤ scale num 1 ∧ scale num 1 ≤ num.log2 + 1022 := by
  have hone : Nat.log2 1 = 0 := by decide
  unfold scale
  simp only [hone]
  split <;> omega

theorem ofRatio_ne_infinity (h : num.log2 < 1000) : ofRatio num 1 ≠ infinity := by
  unfold ofRatio
  split
  · decide
  · obtain ⟨hlow, hhigh⟩ := scale_one num
    have hdiv : num * Nat.pow 2 1074 / (1 * Nat.pow 2 (scale num 1)) < 2 ^ 54 := by
      rw [Nat.one_mul]
      apply (Nat.div_lt_iff_lt_mul (Nat.pow_pos (n := scale num 1) (by decide : 0 < 2))).mpr
      calc num * Nat.pow 2 1074 < 2 ^ (num.log2 + 1) * Nat.pow 2 1074 :=
            Nat.mul_lt_mul_of_pos_right Nat.lt_log2_self (Nat.pow_pos (by decide))
        _ = 2 ^ (num.log2 + 1075) := (Nat.pow_add 2 (num.log2 + 1) 1074).symm
        _ ≤ 2 ^ (54 + scale num 1) := Nat.pow_le_pow_right (by decide) (by omega)
        _ = 2 ^ 54 * 2 ^ scale num 1 := Nat.pow_add ..
    have hround := roundDiv_le (num * Nat.pow 2 1074) (1 * Nat.pow 2 (scale num 1))
    have hunit : Nat.pow 2 52 = 4503599627370496 := by decide
    have hinfinity : infinity = 2047 * 4503599627370496 := by decide
    have hbits : scale num 1 * Nat.pow 2 52 ≤ 2021 * 4503599627370496 := by
      rw [hunit]
      exact Nat.mul_le_mul_right _ (by omega)
    dsimp only
    split <;> omega

end Cartridge.Binary64

namespace Cartridge.Numeral

open Binary64 Bytes List Lua

variable {base : Nat} {letter : UInt8} {digit : UInt8 → Bool} {part power s t whole : Bytes}

/-! ### Integers -/

class IsBase (base : Nat) (letter : UInt8) (digit : UInt8 → Bool) : Prop where
  bits : base = 2 ∨ base = 16
  read : ∀ c, digit c = true → (digit? base c).isSome = true
  plain : ∀ c, digit c = true → c ≠ 95 ∧ c ≠ 45 ∧ c ≠ 43 ∧ c ≠ 46 ∧ isBlank c = false ∧ lowerByte c ≠ letter

instance isBase_hex : IsBase 16 120 Hex.isDigit :=
  ⟨.inr rfl, forall_byte (by decide +kernel), forall_byte (by decide +kernel)⟩

instance isBase_binary : IsBase 2 98 isBinaryDigit :=
  ⟨.inl rfl, forall_byte (by decide +kernel), forall_byte (by decide +kernel)⟩

theorem lt_of_digit? {c : UInt8} {d : Nat} (h : digit? base c = some d) : d < base := by
  unfold digit? at h
  split at h
  · split at h
    · cases h
      assumption
    · cases h
  · cases h

theorem trim_of_plain (h : ∀ c ∈ s, isBlank c = false) : trim s = s := by
  have hdrop : ∀ {x : Bytes}, (∀ c ∈ x, isBlank c = false) → x.dropWhile isBlank = x := by
    intro x hx
    cases x with
    | nil => rfl
    | cons c x => rw [dropWhile_cons, if_neg (by simp [hx c mem_cons_self])]
  rw [trim, trimRight, hdrop h, hdrop fun c hc => h c (mem_reverse.mp hc), reverse_reverse]

theorem takeSign_cons {c : UInt8} (hminus : c ≠ 45) (hplus : c ≠ 43) (s : Bytes) :
    takeSign (c :: s) = (false, c :: s) := by
  unfold takeSign
  split <;> simp_all

theorem exists_afterDigit (hb : IsBase base letter digit) (hs : ∀ c ∈ s, digit c = true) (n : Nat) :
    ∃ m, afterDigit base n s = some m ∧ m < (n + 1) * base ^ s.length := by
  induction s generalizing n with
  | nil => exact ⟨n, rfl, by simp⟩
  | cons c s ih =>
    have hc := hs c mem_cons_self
    obtain ⟨d, hd⟩ := Option.isSome_iff_exists.mp (hb.read c hc)
    obtain ⟨m, hm, hlt⟩ := ih (fun b hmem => hs b (mem_cons_of_mem c hmem)) (n * base + d)
    have hstep : afterDigit base n (c :: s) = afterDigit base (n * base + d) s := by
      rw [afterDigit.eq_def]
      split
      · next heq => cases heq
      · next heq => exact absurd (cons.inj heq).1 (hb.plain c hc).1
      · next heq =>
        cases heq
        rw [hd]
    refine ⟨m, hstep.trans hm, Nat.lt_of_lt_of_le hlt ?_⟩
    have hle : n * base + d + 1 ≤ (n + 1) * base := by
      have := lt_of_digit? hd
      rw [Nat.add_mul]
      omega
    calc (n * base + d + 1) * base ^ s.length ≤ (n + 1) * base * base ^ s.length := Nat.mul_le_mul_right _ hle
      _ = (n + 1) * base ^ (c :: s).length := by rw [length_cons, Nat.pow_succ', Nat.mul_assoc]

theorem exists_natural (hb : IsBase base letter digit) (hs : Digits digit s) :
    ∃ n, natural? base s = some n ∧ n < base ^ s.length := by
  obtain ⟨c, s, rfl⟩ := exists_cons_of_ne_nil hs.1
  obtain ⟨d, hd⟩ := Option.isSome_iff_exists.mp (hb.read c (hs.2 c mem_cons_self))
  obtain ⟨m, hm, hlt⟩ := exists_afterDigit hb (fun b hmem => hs.2 b (mem_cons_of_mem c hmem)) d
  refine ⟨m, by rw [natural?, hd]; exact hm, Nat.lt_of_lt_of_le hlt ?_⟩
  rw [length_cons, Nat.pow_succ']
  exact Nat.mul_le_mul_right _ (lt_of_digit? hd)

theorem IsBase.log2_lt (hb : IsBase base letter digit) {m n : Nat} (hn : n ≤ 200) (hm : m ≤ base ^ n) :
    m.log2 < 1000 := by
  have hle : base ^ n ≤ 2 ^ (4 * n) := by
    rw [Nat.pow_mul]
    apply Nat.pow_le_pow_left
    rcases hb.bits with rfl | rfl <;> decide
  have hlt : m < 2 ^ (4 * n + 1) :=
    Nat.lt_of_le_of_lt (Nat.le_trans hm hle) (Nat.pow_lt_pow_right (by decide) (by omega))
  by_cases hzero : m = 0
  · rw [hzero]
    decide
  · have := (Nat.log2_lt hzero).mpr hlt
    omega

theorem exists_wholeValue (hb : IsBase base letter digit) (hletter : letter = 120 ∨ letter = 98)
    (hs : Digits digit s) (hlength : s.length ≤ 200) :
    (∃ x, wholeValue base letter s = .ok x) ∧ ∃ x, wholeValue base letter (48 :: letter :: s) = .ok x := by
  obtain ⟨n, hn, hlt⟩ := exists_natural hb hs
  have hbig : n.log2 < 1000 := hb.log2_lt hlength (Nat.le_of_lt hlt)
  have hblank : ∀ c ∈ s, isBlank c = false := fun c hc => (hb.plain c (hs.2 c hc)).2.2.2.2.1
  have hvalue : ∀ {x : Bytes}, integer? base letter x = some (n : Int) → ∃ y, wholeValue base letter x = .ok y := by
    intro x hx
    have hdouble : Double.ofInt? n = some ⟨false, ofRatio n 1⟩ := by
      simp [Double.ofInt?, ofRatio_ne_infinity hbig]
    rw [wholeValue, hx]
    dsimp only
    rw [hdouble]
    exact ⟨_, rfl⟩
  obtain ⟨c, r, rfl⟩ := exists_cons_of_ne_nil hs.1
  obtain ⟨hunder, hminus, hplus, -, -, hlower⟩ := hb.plain c (hs.2 c mem_cons_self)
  refine ⟨hvalue ?_, hvalue ?_⟩
  · -- no digit of the base is the letter of its mark
    have hmark : dropMark letter (c :: r) = c :: r := by
      unfold dropMark
      split
      · next x rest heq =>
        obtain ⟨rfl, rfl⟩ := cons.inj heq
        rw [if_neg (hb.plain x (hs.2 x (mem_cons_of_mem _ mem_cons_self))).2.2.2.2.2]
      · rfl
    rw [integer?, trim_of_plain hblank, takeSign_cons hminus hplus]
    dsimp only
    rw [hmark, hn]
    rfl
  · have hplain : ∀ b ∈ 48 :: letter :: c :: r, isBlank b = false := by
      refine forall_mem_cons.mpr ⟨rfl, forall_mem_cons.mpr ⟨?_, hblank⟩⟩
      rcases hletter with rfl | rfl <;> rfl
    have hsame : lowerByte letter = letter := by rcases hletter with rfl | rfl <;> rfl
    have hmark : dropMark letter (48 :: letter :: c :: r) = c :: r := by
      rw [dropMark, if_pos hsame]
      exact fun rest heq => hunder (cons.inj heq).1
    rw [integer?, trim_of_plain hplain, takeSign_cons (by decide) (by decide)]
    dsimp only
    rw [hmark, hn]
    rfl

/-! ### Numerals of a base -/

theorem splitFrom_of_not_mem {sep : UInt8} (h : sep ∉ s) (current : Bytes) :
    splitFrom sep current s = [current.reverse ++ s] := by
  induction s generalizing current with
  | nil => simp [splitFrom]
  | cons c s ih =>
    rw [splitFrom, if_neg (ne_of_not_mem_cons h).symm, ih (not_mem_of_not_mem_cons h)]
    simp

theorem splitFrom_append {sep : UInt8} (h : sep ∉ s) (current t : Bytes) :
    splitFrom sep current (s ++ sep :: t) = (current.reverse ++ s) :: split sep t := by
  induction s generalizing current with
  | nil => simp [splitFrom, split]
  | cons c s ih =>
    rw [cons_append, splitFrom, if_neg (ne_of_not_mem_cons h).symm, ih (not_mem_of_not_mem_cons h)]
    simp

section Based

variable (hb : IsBase base letter digit) (hletter : letter = 120 ∨ letter = 98)
include hb hletter

theorem point_not_mem (hs : ∀ c ∈ s, digit c = true) : (46 : UInt8) ∉ 48 :: letter :: s := by
  intro hmem
  rcases mem_cons.mp hmem with h | hmem
  · cases h
  · rcases mem_cons.mp hmem with h | hmem
    · rcases hletter with rfl | rfl <;> cases h
    · exact (hb.plain _ (hs _ hmem)).2.2.2.1 rfl

theorem exists_basedValue (hwhole : Digits digit whole) (hlength : whole.length ≤ 200) :
    ∃ x, basedValue base letter (48 :: letter :: whole) = .ok x := by
  obtain ⟨x, hx⟩ := (exists_wholeValue hb hletter hwhole hlength).2
  rw [basedValue, split, splitFrom_of_not_mem (point_not_mem hb hletter hwhole.2)]
  exact ⟨x, hx⟩

theorem basedValue_part (hwhole : ∀ c ∈ whole, digit c = true) (hpart : Digits digit part)
    (hlength : whole.length + part.length ≤ 200) :
    if whole = [] then basedValue base letter (48 :: letter :: (whole ++ 46 :: part)) = .error .unfitValue
    else ∃ x, basedValue base letter (48 :: letter :: (whole ++ 46 :: part)) = .ok x := by
  have hnot : (46 : UInt8) ∉ part := fun hmem => (hb.plain _ (hpart.2 _ hmem)).2.2.2.1 rfl
  have hsplit : split 46 (48 :: letter :: (whole ++ 46 :: part)) = [48 :: letter :: whole, part] := by
    rw [split, ← cons_append, ← cons_append, splitFrom_append (point_not_mem hb hletter hwhole), split,
      splitFrom_of_not_mem hnot]
    rfl
  rw [basedValue, hsplit]
  split
  · next hnil =>
    subst hnil
    rcases hletter with rfl | rfl <;> rcases hb.bits with rfl | rfl <;> rfl
  · next hne =>
    obtain ⟨x, hx⟩ := (exists_wholeValue hb hletter ⟨hne, hwhole⟩ (by omega)).2
    obtain ⟨y, hy⟩ := (exists_wholeValue hb hletter hpart (by omega)).1
    have hfits : ofRatio (Nat.pow base part.length) 1 ≠ infinity := ofRatio_ne_infinity (hb.log2_lt (show part.length ≤ 200 by omega) (Nat.le_refl _))
    refine ⟨x.add (y.div (Nat.pow base part.length)), ?_⟩
    simp only [hx, hy, bind, Except.bind, if_neg hfits]

end Based

/-! ### Decimals -/

theorem underscoresOk_of_not_mem (h : 95 ∉ s) (b : Bool) : underscoresOk b s = true := by
  induction s generalizing b with
  | nil => rfl
  | cons c s ih =>
    rw [underscoresOk]
    · exact ih (not_mem_of_not_mem_cons h) _
    · exact fun hc => ne_of_not_mem_cons h hc.symm

def isInner (c : UInt8) : Bool := !isBlank c && c != 95

theorem decimal?_eq {c : UInt8} (hc : isDigit c = true ∨ c = 46) (hs : ∀ b ∈ c :: s, isInner b = true) :
    decimal? (c :: s) = (unsigned? (c :: s)).map fun size => .double ⟨false, size⟩ := by
  have hinner : ∀ b, isInner b = true → isBlank b = false ∧ b ≠ 95 := by
    intro b hb
    simpa [isInner] using hb
  have hunder : 95 ∉ c :: s := fun hmem => (hinner 95 (hs 95 hmem)).2 rfl
  have hfilter : (c :: s).filter (· != 95) = c :: s :=
    filter_eq_self.mpr fun b hb => by simpa using (hinner b (hs b hb)).2
  have hfacts : ∀ c : UInt8, isDigit c = true ∨ c = 46 →
      c ≠ 45 ∧ c ≠ 43 ∧ lowerByte c ≠ 105 ∧ lowerByte c ≠ 110 := forall_byte (by decide +kernel)
  obtain ⟨hminus, hplus, hi, hn⟩ := hfacts c hc
  have hword : ∀ {d : UInt8} {x : Bytes}, lowerByte c ≠ d → lower (c :: s) ≠ d :: x := by
    intro d x hd heq
    rw [lower, map_cons, cons.injEq] at heq
    exact hd heq.1
  have hinf : lower (c :: s) ≠ ofText "inf" := hword hi
  have hinfinity : lower (c :: s) ≠ ofText "infinity" := hword hi
  have hnan : lower (c :: s) ≠ ofText "nan" := hword hn
  rw [decimal?, trim_of_plain fun b hb => (hinner b (hs b hb)).1]
  dsimp only
  rw [underscoresOk_of_not_mem hunder, hfilter, takeSign_cons hminus hplus]
  simp [hinf, hinfinity, hnan]

theorem exists_exponent (h : IsPower power) : ∃ e, exponent? power = some e := by
  have hdigits : ∀ {x : Bytes}, Digits isDigit x → (x.isEmpty || !x.all isDigit) = false := by
    intro x hx
    simp [hx.1, all_eq_true.mpr hx.2]
  cases h with
  | none => exact ⟨0, rfl⟩
  | @plain e x he hx =>
    obtain ⟨c, r, rfl⟩ := exists_cons_of_ne_nil hx.1
    have hc := hx.2 c mem_cons_self
    have hsign : takeSign (c :: r) = (false, c :: r) := by
      apply takeSign_cons <;> · rintro rfl; cases hc
    simp only [exponent?, hsign, hdigits hx]
    rcases he with rfl | rfl <;> exact ⟨_, rfl⟩
  | @minus e x he hx =>
    simp only [exponent?, takeSign, hdigits hx]
    rcases he with rfl | rfl <;> exact ⟨_, rfl⟩

theorem isDigit_of_isPower (h : IsPower power) : startsWith isDigit power = false := by
  cases h with
  | none => rfl
  | plain he _ => rcases he with rfl | rfl <;> rfl
  | minus he _ => rcases he with rfl | rfl <;> rfl

theorem takeWhile_digits (hs : ∀ c ∈ s, isDigit c = true) (ht : startsWith isDigit t = false) :
    (s ++ t).takeWhile isDigit = s :=
  takeWhile_of_run (Recogniser.run_append_eq_iff.mpr ⟨Recogniser.run_eq_length_iff.mpr hs, ht⟩)

theorem exists_unsigned (hwhole : Digits isDigit whole) (hpower : IsPower power) :
    ∃ n, unsigned? (whole ++ power) = some n := by
  obtain ⟨e, he⟩ := exists_exponent hpower
  have hempty : (whole.isEmpty && [].isEmpty (α := UInt8)) = false := by simp [hwhole.1]
  simp only [unsigned?, takeWhile_digits hwhole.2 (isDigit_of_isPower hpower), drop_left]
  split
  · cases hpower with
    | plain h _ => exact absurd h (by decide)
    | minus h _ => exact absurd h (by decide)
  · simp only [hempty, he]
    exact ⟨_, rfl⟩

theorem exists_unsigned_part (hdigits : Digits isDigit (whole ++ part)) (hpower : IsPower power) :
    ∃ n, unsigned? (whole ++ 46 :: (part ++ power)) = some n := by
  obtain ⟨e, he⟩ := exists_exponent hpower
  obtain ⟨hwhole, hpart⟩ := forall_mem_append.mp hdigits.2
  have hne : (whole.isEmpty && part.isEmpty) = false := by
    simpa using hdigits.1
  have hpoint : startsWith isDigit (46 :: (part ++ power)) = false := rfl
  simp only [unsigned?, takeWhile_digits hwhole hpoint, drop_left,
    takeWhile_digits hpart (isDigit_of_isPower hpower), hne, he]
  exact ⟨_, rfl⟩

/-! ### All numerals -/

/-- Whether a numeral has the mark of a base in a capital letter, or no digits between its mark and a point. -/
def misread : Bytes → Bool
  | 48 :: x :: c :: _ => x == 88 || x == 66 || ((x == 120 || x == 98) && c == 46)
  | _ => false

theorem value_capital {x : UInt8} (hx : x = 88 ∨ x = 66 ∧ 98 ∉ t) (hmark : 120 ∉ t)
    (ht : ∀ c ∈ t, isInner c = true) : value (48 :: x :: t) = .error .unfitValue := by
  have hx' : x = 88 ∨ x = 66 := hx.imp_right And.left
  have hhex : (48 :: x :: t).contains 120 = false := by
    rcases hx' with rfl | rfl <;> simpa using hmark
  rw [value, if_neg (by rw [hhex]; decide)]
  split
  · next hbinary =>
    -- the letter of base two stands among the digits of base sixteen
    have hx : x = 88 := by
      rcases hx with rfl | ⟨rfl, hnot⟩
      · rfl
      · exact absurd (by simpa using hbinary) hnot
    subst hx
    have hwhole : ∀ a : Bytes, (∀ c ∈ a, isInner c = true) → wholeValue 2 98 (48 :: 88 :: a) = .error .unfitValue := by
      intro a ha
      have hplain : ∀ b ∈ 48 :: 88 :: a, isBlank b = false := by
        refine forall_mem_cons.mpr ⟨rfl, forall_mem_cons.mpr ⟨rfl, fun b hb => ?_⟩⟩
        have hinner := ha b hb
        simp only [isInner, Bool.and_eq_true, Bool.not_eq_true'] at hinner
        exact hinner.1
      rw [wholeValue, integer?, trim_of_plain hplain, takeSign_cons (by decide) (by decide)]
      rfl
    by_cases hpoint : 46 ∈ t
    · obtain ⟨a, b, rfl, ha⟩ := eq_append_cons_of_mem hpoint
      have hfirst := hwhole a fun c hc => ht c (mem_append_left _ hc)
      have hsplit : split 46 (48 :: 88 :: (a ++ 46 :: b)) = (48 :: 88 :: a) :: split 46 b :=
        splitFrom_append (s := 48 :: 88 :: a) (by simpa using ha) [] b
      rw [basedValue, hsplit]
      split
      · next heq => rw [← (cons.inj heq).1, hfirst]; rfl
      · next heq => rw [← (cons.inj heq).1, hfirst]; rfl
      · rfl
    · have hsplit : split 46 (48 :: 88 :: t) = [48 :: 88 :: t] :=
        splitFrom_of_not_mem (s := 48 :: 88 :: t) (by simpa using hpoint) []
      rw [basedValue, hsplit]
      exact congrArg (Except.map Value.double) (hwhole t ht)
  · have hinner : ∀ b ∈ 48 :: x :: t, isInner b = true := by
      refine forall_mem_cons.mpr ⟨rfl, forall_mem_cons.mpr ⟨?_, ht⟩⟩
      rcases hx' with rfl | rfl <;> rfl
    have hnone : unsigned? (48 :: x :: t) = none := by
      rcases hx' with rfl | rfl <;> rfl
    rw [decimal?_eq (.inl rfl) hinner, hnone]
    rfl

theorem letter_cases {x : UInt8} (hx : baseDigits? x = some digit) :
    (∃ base, (x = 120 ∨ x = 98) ∧ IsBase base x digit ∧ ∀ t, (∀ c ∈ t, digit c = true ∨ c = 46) →
        value (48 :: x :: t) = (basedValue base x (48 :: x :: t)).map .double) ∨
      (x = 88 ∨ x = 66) ∧ ∀ t, (∀ c ∈ t, digit c = true ∨ c = 46) →
        value (48 :: x :: t) = .error .unfitValue := by
  have hhex : ∀ c : UInt8, Hex.isDigit c = true ∨ c = 46 → isInner c = true ∧ c ≠ 120 :=
    forall_byte (by decide +kernel)
  have hbinary : ∀ c : UInt8, isBinaryDigit c = true ∨ c = 46 → isInner c = true ∧ c ≠ 120 ∧ c ≠ 98 :=
    forall_byte (by decide +kernel)
  unfold baseDigits? at hx
  split at hx
  · next hletter =>
    cases hx
    simp only [Bool.or_eq_true, decide_eq_true_eq] at hletter
    rcases hletter with rfl | rfl
    · refine .inl ⟨16, .inl rfl, isBase_hex, fun t _ => ?_⟩
      rw [value, if_pos (by simp)]
    · exact .inr ⟨.inl rfl, fun t ht =>
        value_capital (.inl rfl) (fun hmem => (hhex _ (ht _ hmem)).2 rfl) fun c hc => (hhex c (ht c hc)).1⟩
  · split at hx
    · next hletter =>
      cases hx
      simp only [Bool.or_eq_true, decide_eq_true_eq] at hletter
      have hnot : ∀ t : Bytes, (∀ c ∈ t, isBinaryDigit c = true ∨ c = 46) → 120 ∉ t := fun t ht hmem =>
        (hbinary _ (ht _ hmem)).2.1 rfl
      rcases hletter with rfl | rfl
      · refine .inl ⟨2, .inr rfl, isBase_binary, fun t ht => ?_⟩
        rw [value, if_neg (by simpa using hnot t ht), if_pos (by simp)]
      · exact .inr ⟨.inr rfl, fun t ht => value_capital (.inr ⟨rfl, fun hmem => (hbinary _ (ht _ hmem)).2.2 rfl⟩)
          (hnot t ht) fun c hc => (hbinary c (ht c hc)).1⟩
    · cases hx

def isDecimalByte (c : UInt8) : Bool := isDigit c || c == 46 || c == 101 || c == 69 || c == 45

theorem isDecimalByte_of_digits (hs : ∀ c ∈ s, isDigit c = true) : ∀ c ∈ s, isDecimalByte c = true := by
  intro c hc
  simp [isDecimalByte, hs c hc]

theorem isDecimalByte_of_isPower (h : IsPower power) : ∀ c ∈ power, isDecimalByte c = true := by
  have hletter : ∀ e : UInt8, e = 101 ∨ e = 69 → isDecimalByte e = true := by
    rintro e (rfl | rfl) <;> rfl
  cases h with
  | none => simp
  | plain he hx => exact forall_mem_cons.mpr ⟨hletter _ he, isDecimalByte_of_digits hx.2⟩
  | minus he hx =>
    exact forall_mem_cons.mpr ⟨hletter _ he, forall_mem_cons.mpr ⟨rfl, isDecimalByte_of_digits hx.2⟩⟩

theorem value_decimal {c : UInt8} (hc : isDigit c = true ∨ c = 46) (hs : ∀ b ∈ c :: s, isDecimalByte b = true)
    (h : ∃ n, unsigned? (c :: s) = some n) :
    if misread (c :: s) then value (c :: s) = .error .unfitValue else ∃ v, value (c :: s) = .ok v := by
  have hfacts : ∀ b : UInt8, isDecimalByte b = true → isInner b = true ∧ b ≠ 120 ∧ b ≠ 98 ∧ b ≠ 88 ∧ b ≠ 66 :=
    forall_byte (by decide +kernel)
  obtain ⟨n, hn⟩ := h
  have hnot : ∀ x : UInt8, isDecimalByte x = false → (c :: s).contains x = false := by
    intro x hx
    rw [contains_eq_mem, decide_eq_false_iff_not]
    intro hmem
    rw [hs x hmem] at hx
    cases hx
  have hread : misread (c :: s) = false := by
    unfold misread
    split
    · next x d r heq =>
      have hx : x ∈ c :: s := heq ▸ mem_cons_of_mem _ mem_cons_self
      simp [(hfacts x (hs x hx)).2]
    · rfl
  rw [hread, value, hnot 120 rfl, hnot 98 rfl, decimal?_eq hc fun b hb => (hfacts b (hs b hb)).1, hn]
  exact ⟨_, rfl⟩

theorem value_of_isNumeral {w : Bytes} (h : IsNumeral w) (hlength : w.length ≤ 200) :
    if misread w then value w = .error .unfitValue else ∃ v, value w = .ok v := by
  cases h with
  | @based x digit whole hx hwhole =>
    have ht : ∀ c ∈ whole, digit c = true ∨ c = 46 := fun c hc => .inl (hwhole.2 c hc)
    obtain ⟨c, r, rfl⟩ := exists_cons_of_ne_nil hwhole.1
    rcases letter_cases hx with ⟨base, hletter, hb, hvalue⟩ | ⟨hletter, hvalue⟩
    · obtain ⟨y, hy⟩ := exists_basedValue hb hletter hwhole (by simp only [length_cons] at hlength ⊢; omega)
      have hc := (hb.plain c (hwhole.2 c mem_cons_self)).2.2.2.1
      have hread : misread (48 :: x :: c :: r) = false := by
        rcases hletter with rfl | rfl <;> simp [misread, hc]
      rw [hread, hvalue _ ht, hy]
      exact ⟨_, rfl⟩
    · have hread : misread (48 :: x :: c :: r) = true := by
        rcases hletter with rfl | rfl <;> simp [misread]
      rw [hread, if_pos rfl, hvalue _ ht]
  | @basedPart x digit whole part hx hwhole hpart =>
    have ht : ∀ c ∈ whole ++ 46 :: part, digit c = true ∨ c = 46 :=
      forall_mem_append.mpr ⟨fun c hc => .inl (hwhole c hc),
        forall_mem_cons.mpr ⟨.inr rfl, fun c hc => .inl (hpart.2 c hc)⟩⟩
    rcases letter_cases hx with ⟨base, hletter, hb, hvalue⟩ | ⟨hletter, hvalue⟩
    · have hbased := basedValue_part hb hletter hwhole hpart
        (by simp only [length_cons, length_append] at hlength; omega)
      rw [hvalue _ ht]
      cases whole with
      | nil =>
        have hread : misread (48 :: x :: 46 :: part) = true := by
          rcases hletter with rfl | rfl <;> rfl
        rw [if_pos rfl] at hbased
        rw [nil_append] at hbased ⊢
        rw [hread, if_pos rfl, hbased]
        rfl
      | cons c whole =>
        have hc := (hb.plain c (hwhole c mem_cons_self)).2.2.2.1
        have hread : misread (48 :: x :: (c :: whole ++ 46 :: part)) = false := by
          rcases hletter with rfl | rfl <;> simp [misread, hc]
        rw [if_neg (cons_ne_nil c whole)] at hbased
        obtain ⟨y, hy⟩ := hbased
        rw [hread, hy]
        exact ⟨_, rfl⟩
    · have hread : misread (48 :: x :: (whole ++ 46 :: part)) = true := by
        cases whole <;> rcases hletter with rfl | rfl <;> simp [misread]
      rw [hread, if_pos rfl, hvalue _ ht]
  | @decimal whole power hwhole hpower =>
    have hbytes : ∀ b ∈ whole ++ power, isDecimalByte b = true :=
      forall_mem_append.mpr ⟨isDecimalByte_of_digits hwhole.2, isDecimalByte_of_isPower hpower⟩
    have hsome := exists_unsigned hwhole hpower
    obtain ⟨c, r, rfl⟩ := exists_cons_of_ne_nil hwhole.1
    exact value_decimal (.inl (hwhole.2 c mem_cons_self)) hbytes hsome
  | @decimalPart whole part power hdigits hpower =>
    obtain ⟨hwhole, hpart⟩ := forall_mem_append.mp hdigits.2
    have hbytes : ∀ b ∈ whole ++ 46 :: (part ++ power), isDecimalByte b = true :=
      forall_mem_append.mpr ⟨isDecimalByte_of_digits hwhole, forall_mem_cons.mpr ⟨rfl,
        forall_mem_append.mpr ⟨isDecimalByte_of_digits hpart, isDecimalByte_of_isPower hpower⟩⟩⟩
    have hsome := exists_unsigned_part hdigits hpower
    cases whole with
    | nil => exact value_decimal (.inr rfl) hbytes hsome
    | cons c whole => exact value_decimal (.inl (hwhole c mem_cons_self)) hbytes hsome

end Cartridge.Numeral

namespace Cartridge.Lua

open List

theorem isNumeral_of_firstMatch {s : Bytes} {n : Nat} (h : firstMatch standardRules s = some (.number, n)) :
    IsNumeral (s.take n) := by
  obtain ⟨hpos, hle⟩ := firstMatch_bounds h
  have hsucc : ∃ m, n = m + 1 := ⟨n - 1, by omega⟩
  generalize hk : TokenKind.number = k at h
  cases found_of_firstMatch h with
  | word s hc =>
    rw [wordKind] at hk
    split at hk <;> cases hk
  | @numeral c s _ hc hnum =>
    obtain ⟨m, rfl⟩ := hsucc
    have hlength : (c :: s.take m).length = m + 1 := by simp at hle ⊢; omega
    have hw : startsWith Bytes.isDigit (c :: s.take m) = true := (startsWith_cons _ _ _).trans hc
    rw [← take_append_drop m s, ← cons_append, ← hlength] at hnum
    exact isNumeral_of_numeral hw ((numeral_append_iff hw _).mp hnum).1
  | @pointed s _ hnum =>
    obtain ⟨m, rfl⟩ := hsucc
    have hlength : (s.take m).length = m := by simp at hle ⊢; omega
    have hnum' : Recogniser.pointed (46 :: (s.take m ++ s.drop m)) = some ((s.take m).length + 1) := by
      rw [take_append_drop, hlength, hnum]
    exact isNumeral_of_pointed ((pointed_append_iff _ _).mp hnum').1
  | _ => cases hk

namespace Scanner

variable {P : Array Token → Prop}

theorem run_keeps (hstep : ∀ sc s, P sc.tokens → P (act standardRules sc s).1.tokens) (fuel : Nat) (sc : Scanner)
    (s : Bytes) (h : P sc.tokens) : P (run fuel sc s).1.tokens := by
  have htokens : ∀ sc s, (step sc s).1.tokens = (act standardRules sc s).1.tokens := by
    intro sc s
    unfold step stepWith
    split <;> simp [*]
  induction fuel generalizing sc s with
  | zero => exact h
  | succ fuel ih =>
    have hnext : P (step sc s).1.tokens := (htokens sc s).symm ▸ hstep sc s h
    unfold run
    split
    · next heq => simpa [heq] using hnext
    · next heq => simpa [heq] using hnext
    · next heq => exact ih _ _ (by simpa [heq] using hnext)

theorem feed_keeps (hstep : ∀ sc s, P sc.tokens → P (act standardRules sc s).1.tokens) (sc : Scanner)
    (source : List Bytes) (h : P sc.tokens) : P (feed sc source).1.tokens := by
  have hchunk : ∀ sc s, P sc.tokens → P (chunk sc s).1.tokens := by
    intro sc s h
    have := run_keeps hstep (s.length + 1) sc s h
    unfold chunk
    split <;> simpa [*] using this
  have hchunks : P (chunks sc source).1.tokens := by
    induction source generalizing sc with
    | nil => exact h
    | cons s source ih =>
      have hnext := hchunk sc s h
      unfold chunks
      split
      · next heq => exact ih _ (by simpa [heq] using hnext)
      · next heq => simpa [heq] using hnext
  unfold feed feedFrom
  split <;> simpa [*] using hchunks

def Numerals (ts : Array Token) : Prop := ∀ t ∈ ts, t.kind = .number → IsNumeral t.data

theorem numerals_act (sc : Scanner) (s : Bytes) (h : Numerals sc.tokens) :
    Numerals (act standardRules sc s).1.tokens := by
  have hemit : ∀ t : Token, (t.kind = .number → IsNumeral t.data) → Numerals (sc.emit t).tokens := by
    intro t ht u hu
    rcases Array.mem_push.mp hu with hu | rfl
    · exact h u hu
    · exact ht
  unfold act
  split
  · split
    · exact hemit _ fun hk => by cases hk
    · exact h
    · exact h
  · split
    · exact hemit _ fun hk => by cases hk
    · exact h
  · split
    · exact hemit _ fun hk => by cases hk
    · exact h
  · split
    · exact h
    split
    · exact h
    split
    · exact h
    split
    · exact h
    split
    · next hmatch =>
      refine hemit _ fun hk => ?_
      subst hk
      exact isNumeral_of_firstMatch hmatch
    · exact h

end Scanner

/-- **Which number tokens have a value.**  Every numeral of at most 200 bytes that is cut out of source has one, but
those with the mark of a base in a capital letter and those without digits between their mark and a point. -/
theorem value_of_feed {source : List Bytes} {t : Token} (ht : t ∈ (Scanner.feed {} source).1.tokens)
    (hkind : t.kind = .number) (hlength : t.data.length ≤ 200) :
    if Numeral.misread t.data then Numeral.value t.data = .error .unfitValue
    else ∃ v, Numeral.value t.data = .ok v := by
  have hnone : Scanner.Numerals #[] := fun t ht => by simp at ht
  have h := Scanner.feed_keeps (P := Scanner.Numerals) Scanner.numerals_act {} source hnone
  exact Numeral.value_of_isNumeral (h t ht hkind) hlength

theorem value_of_feed_sample :
    let t : Token := { kind := .number, data := Bytes.ofText "0x1.8", place := some ⟨0, 2⟩ }
    (t ∈ (Scanner.feed {} [Bytes.ofText "x=0x1.8\n"]).1.tokens ∧ t.kind = .number ∧ t.data.length ≤ 200) ∧
      ∃ v, Numeral.value t.data = .ok v := by
  intro t
  have ht : t ∈ (Scanner.feed {} [Bytes.ofText "x=0x1.8\n"]).1.tokens := by decide +kernel
  have hlength : t.data.length ≤ 200 := by decide
  exact ⟨⟨ht, rfl, hlength⟩, by simpa [show Numeral.misread t.data = false from rfl] using value_of_feed ht rfl hlength⟩

theorem capital_without_value :
    let t : Token := { kind := .number, data := Bytes.ofText "0X1F", place := some ⟨0, 2⟩ }
    t ∈ (Scanner.feed {} [Bytes.ofText "x=0X1F\n"]).1.tokens ∧ t.data.length ≤ 200 ∧
      ¬∃ v, Numeral.value t.data = .ok v := by
  refine ⟨by decide +kernel, by decide, ?_⟩
  rintro ⟨v, hv⟩
  have hnone : Numeral.value (Bytes.ofText "0X1F") = .error .unfitValue := rfl
  cases hnone.symm.trans hv

end Cartridge.Lua
