import Cartridge.Lua.Scan

/-!
# Strings between quotes

Inside quotes the source is a run of units: a byte by itself, or a backslash with what it escapes.
A unit never reaches past a byte that is no digit unless it escapes that byte, so a string that is
read in pieces cut behind newlines is the string that is read at once.
-/

namespace Cartridge.Lua

open List Bytes

namespace Quoted

variable {b c d mark : UInt8}

def digits (s : Bytes) : Bytes := (s.take 3).takeWhile isDigit

def value (ds : Bytes) : Nat := ds.foldl (fun n d => n * 10 + digitValue d) 0

/-- The byte of the unit that starts with `c` and goes on in `s`, and how many bytes of `s` belong to
it; none for a decimal escape above 255. -/
def unit? (c : UInt8) (s : Bytes) : Option (UInt8 × Nat) :=
  if c = backslash then
    if digits s = [] then
      match s.head?.bind unescape? with
      | some x => some (x, 1)
      | none => some (c, 0)
    else if value (digits s) ≤ 255 then some (UInt8.ofNat (value (digits s)), (digits s).length)
    else none
  else some (c, 0)

theorem unit?_of_ne (h : c ≠ backslash) (s : Bytes) : unit? c s = some (c, 0) := if_neg h

theorem length_digits_le (s : Bytes) : (digits s).length ≤ s.length := by
  unfold digits
  have h1 := (List.takeWhile_prefix isDigit (l := s.take 3)).length_le
  have h2 := length_take_le 3 s
  have h3 := length_take_le' 3 s
  omega

theorem le_length_of_unit? {x : UInt8} {s : Bytes} {n : Nat} (h : unit? c s = some (x, n)) : n ≤ s.length := by
  unfold unit? at h
  split at h
  · split at h
    · split at h
      · next hx =>
        cases h
        cases s with
        | nil => simp at hx
        | cons d s => simp
      · cases h
        exact Nat.zero_le _
    · split at h
      · cases h
        exact length_digits_le s
      · cases h
  · cases h
    exact Nat.zero_le _

theorem digits_append_cons (hb : isDigit b = false) (p r : Bytes) : digits (p ++ b :: r) = digits p := by
  unfold digits
  have key : ∀ (k : Nat) (l : Bytes), ((l ++ b :: r).take k).takeWhile isDigit
      = (l.take k).takeWhile isDigit := by
    intro k l
    induction l generalizing k with
    | nil => cases k <;> simp [hb]
    | cons a l ih => cases k <;> simp [takeWhile_cons, ih]
  exact key 3 p

theorem unit?_append_cons (hb : isDigit b = false) (c : UInt8) (p r r' : Bytes) :
    unit? c (p ++ b :: r) = unit? c (p ++ b :: r') := by
  have hhead : (p ++ b :: r).head? = (p ++ b :: r').head? := by cases p <;> rfl
  unfold unit?
  rw [digits_append_cons hb, digits_append_cons hb, hhead]

end Quoted

open Quoted

@[simp] theorem scanQuoted_nil (mark : UInt8) (data : Bytes) (taken : Nat) :
    scanQuoted mark data taken [] = .unclosed data.reverse taken := by rw [scanQuoted]

theorem digitValue_le (h : isDigit d = true) : digitValue d ≤ 9 := by
  simp only [isDigit, Bool.and_eq_true, decide_eq_true_eq] at h
  have := UInt8.le_iff_toNat_le.mp h.2
  simp only [UInt8.reduceToNat] at this
  unfold digitValue
  omega

theorem scanQuoted_cons (mark : UInt8) (data : Bytes) (taken : Nat) (c : UInt8) (s : Bytes) :
    scanQuoted mark data taken (c :: s) =
      if c = mark then .closed data.reverse (taken + 1)
      else match unit? c s with
        | some (x, n) => scanQuoted mark (x :: data) (taken + 1 + n) (s.drop n)
        | none => .badEscape data.reverse := by
  rw [scanQuoted.eq_def]
  simp only
  split
  · rfl
  · split
    · next hback =>
      rw [unit?, if_pos hback]
      rcases s with _ | ⟨d, s⟩
      · simp [digits]
      · cases hd : isDigit d with
        | false =>
          -- a letter, a quote, a newline, or a byte that means nothing special
          cases hx : unescape? d <;> simp [digits, hd, hx]
        | true =>
          have hd9 := digitValue_le hd
          rcases s with _ | ⟨e, s⟩
          · have hle : digitValue d ≤ 255 := by omega
            simp [digits, hd, value, hle]
          · cases he : isDigit e with
            | false =>
              have hle : digitValue d ≤ 255 := by omega
              simp [digits, hd, he, value, hle]
            | true =>
              have he9 := digitValue_le he
              have hle : digitValue d * 10 + digitValue e ≤ 255 := by omega
              rcases s with _ | ⟨f, s⟩
              · simp [digits, hd, he, value, hle]
              · cases hf : isDigit f with
                | false => simp [digits, hd, he, hf, value, hle]
                | true =>
                  -- three digits: the only escape that can be above 255
                  have hsum : (digitValue d * 10 + digitValue e) * 10 + digitValue f
                      = digitValue d * 100 + digitValue e * 10 + digitValue f := by omega
                  simp only [digits, value, hsum, hd, he, hf, take_succ_cons, take_zero,
                    takeWhile_cons, takeWhile_nil, foldl_cons, foldl_nil,
                    if_true, Nat.zero_mul, Nat.zero_add, reduceCtorEq, if_false]
                  split <;> simp
    · next hback => simp [unit?_of_ne hback]

/-! ### Starting later -/

def QuotedScan.after (before : Bytes) (taken : Nat) : QuotedScan → QuotedScan
  | .closed data n => .closed (before ++ data) (taken + n)
  | .unclosed data n => .unclosed (before ++ data) (taken + n)
  | .badEscape data => .badEscape (before ++ data)

theorem scanQuoted_eq_after (mark : UInt8) : ∀ (s data : Bytes) (taken : Nat),
    scanQuoted mark data taken s = (scanQuoted mark [] 0 s).after data.reverse taken := by
  intro s
  induction h : s.length using Nat.strongRecOn generalizing s with
  | _ k ih =>
    intro data taken
    cases s with
    | nil => simp [QuotedScan.after]
    | cons c s =>
      rw [scanQuoted_cons, scanQuoted_cons]
      split
      · simp [QuotedScan.after]
      · cases hu : unit? c s with
        | none => simp [QuotedScan.after]
        | some u =>
          obtain ⟨x, n⟩ := u
          have hlt : (s.drop n).length < k := by
            rw [length_drop, ← h, length_cons]
            omega
          simp only
          rw [ih _ hlt _ rfl (x :: data), ih _ hlt _ rfl [x]]
          cases scanQuoted mark [] 0 (s.drop n) <;>
            simp [QuotedScan.after, Nat.add_assoc]

theorem taken_of_unclosed :
    ∀ {s data more : Bytes} {taken n : Nat},
    scanQuoted mark data taken s = .unclosed more n → n = taken + s.length := by
  intro s
  induction h : s.length using Nat.strongRecOn generalizing s with
  | _ k ih =>
    intro data more taken n hscan
    cases s with
    | nil =>
      rw [scanQuoted_nil] at hscan
      cases hscan
      simp at h
      omega
    | cons c s =>
      rw [scanQuoted_cons] at hscan
      split at hscan
      · cases hscan
      · cases hu : unit? c s with
        | none => rw [hu] at hscan; cases hscan
        | some u =>
          obtain ⟨x, m⟩ := u
          rw [hu] at hscan
          have hm := le_length_of_unit? hu
          rw [length_cons] at h
          have := ih (s.drop m).length (by rw [length_drop]; omega) rfl hscan
          rw [length_drop] at this
          omega

/-- **Scanning may stop behind a newline and go on there.**  The newline may itself be escaped, but
no escape reaches past it. -/
theorem scanQuoted_append_newline (hmark : mark ≠ newline) (r : Bytes) :
    ∀ (p data : Bytes) (taken : Nat),
      scanQuoted mark data taken (p ++ newline :: r) =
        match scanQuoted mark data taken (p ++ [newline]) with
        | .closed more n => .closed more n
        | .unclosed more n => scanQuoted mark more.reverse n r
        | .badEscape more => .badEscape more := by
  have hdigit : isDigit newline = false := rfl
  have hback : newline ≠ backslash := by decide
  intro p
  induction h : p.length using Nat.strongRecOn generalizing p with
  | _ k ih =>
    intro data taken
    cases p with
    | nil =>
      rw [nil_append, nil_append, scanQuoted_cons, scanQuoted_cons, if_neg hmark.symm,
        if_neg hmark.symm, unit?_of_ne hback, unit?_of_ne hback]
      simp
    | cons c p =>
      rw [cons_append, cons_append, scanQuoted_cons, scanQuoted_cons,
        unit?_append_cons hdigit c p r []]
      split
      · rfl
      · cases hu : unit? c (p ++ [newline]) with
        | none => rfl
        | some u =>
          obtain ⟨x, n⟩ := u
          have hn := le_length_of_unit? hu
          rw [length_append, length_singleton] at hn
          simp only
          rcases Nat.lt_or_ge p.length n with hlt | hge
          · -- the unit ends with the newline
            have hn' : n = p.length + 1 := by omega
            have hr : (p ++ newline :: r).drop n = r := by
              rw [hn', ← drop_drop, drop_left]
              rfl
            have hnil : (p ++ [newline]).drop n = [] := by
              rw [drop_eq_nil_iff, length_append, hn']
              exact Nat.le_refl _
            rw [hr, hnil, scanQuoted_nil]
            simp
          · -- the newline is left for later units
            rw [drop_append_of_le_length hge, drop_append_of_le_length hge]
            refine ih _ ?_ _ rfl _ _
            rw [length_drop, ← h, length_cons]
            omega

/-! ### Closed strings -/

theorem exists_of_scanQuoted_closed (hmark : isDigit mark = false) :
    ∀ {s data more : Bytes} {taken n : Nat}, scanQuoted mark data taken s = .closed more n →
      ∃ body rest, s = body ++ mark :: rest ∧ n = taken + body.length + 1 ∧
        ∀ r, scanQuoted mark data taken (body ++ mark :: r) = .closed more n := by
  intro s
  induction h : s.length using Nat.strongRecOn generalizing s with
  | _ k ih =>
    intro data more taken n hscan
    cases s with
    | nil => rw [scanQuoted_nil] at hscan; cases hscan
    | cons c s =>
      rw [scanQuoted_cons] at hscan
      split at hscan
      · next hc =>
        cases hscan
        refine ⟨[], s, by rw [hc]; rfl, by simp, ?_⟩
        intro r
        rw [nil_append, scanQuoted_cons, if_pos rfl]
      · next hc =>
        cases hu : unit? c s with
        | none => rw [hu] at hscan; cases hscan
        | some u =>
          obtain ⟨x, m⟩ := u
          rw [hu] at hscan
          have hm := le_length_of_unit? hu
          rw [length_cons] at h
          obtain ⟨body, rest, hs, hn, hall⟩ :=
            ih (s.drop m).length (by rw [length_drop]; omega) rfl hscan
          have hsplit : s = (s.take m ++ body) ++ mark :: rest := by
            rw [append_assoc, ← hs, take_append_drop]
          refine ⟨c :: (s.take m ++ body), rest, by rw [cons_append, ← hsplit], ?_, ?_⟩
          · rw [hn, length_cons, length_append, length_take]
            omega
          · intro r
            have hu' : unit? c ((s.take m ++ body) ++ mark :: r) = some (x, m) := by
              rw [unit?_append_cons hmark c _ r rest, ← hsplit, hu]
            have hdrop : ((s.take m ++ body) ++ mark :: r).drop m = body ++ mark :: r := by
              rw [append_assoc, drop_left' (by rw [length_take]; omega)]
            rw [cons_append, scanQuoted_cons, if_neg hc, hu']
            simp only
            rw [hdrop]
            exact hall r

theorem scanQuoted_plain :
    ∀ (body : Bytes) (data : Bytes) (taken : Nat) (r : Bytes),
    mark ∉ body → backslash ∉ body →
      scanQuoted mark data taken (body ++ mark :: r)
        = .closed (data.reverse ++ body) (taken + body.length + 1) := by
  intro body
  induction body with
  | nil =>
    intro data taken r _ _
    rw [nil_append, scanQuoted_cons, if_pos rfl]
    simp
  | cons c body ih =>
    intro data taken r hm hb
    rw [mem_cons, not_or] at hm hb
    rw [cons_append, scanQuoted_cons, if_neg (Ne.symm hm.1), unit?_of_ne (Ne.symm hb.1)]
    simp only [drop_zero]
    rw [ih _ _ r hm.2 hb.2]
    simp
    omega

/-! ### Escaping -/

theorem unescape?_of_escapeLetter? {letter : UInt8} (h : Token.escapeLetter? c = some letter) :
    unescape? letter = some c ∧ isDigit letter = false := by
  unfold Token.escapeLetter? at h
  split at h <;> cases h <;> exact ⟨rfl, rfl⟩

theorem unit?_backslash (hd : isDigit d = false) (hx : unescape? d = some c) (s : Bytes) :
    unit? backslash (d :: s) = some (c, 1) := by
  simp [unit?, digits, hd, hx]

def isQuote (c : UInt8) : Bool := c == 39 || c == 34

theorem isQuote_iff : isQuote c = true ↔ c = 39 ∨ c = 34 := by
  simp [isQuote]

theorem scanQuoted_escape (hmark : isQuote mark = true) (r : Bytes) :
    ∀ (text data : Bytes) (taken : Nat),
      scanQuoted mark data taken (text.flatMap (Token.escape [mark]) ++ mark :: r)
        = .closed (data.reverse ++ text)
            (taken + (text.flatMap (Token.escape [mark])).length + 1) := by
  have hquote : mark ≠ backslash ∧ unescape? mark = some mark ∧
      isDigit mark = false := by
    rcases isQuote_iff.mp hmark with rfl | rfl <;> decide
  obtain ⟨hback, hself, hdigit⟩ := hquote
  intro text
  induction text with
  | nil =>
    intro data taken
    rw [flatMap_nil, nil_append, scanQuoted_cons, if_pos rfl]
    simp
  | cons c text ih =>
    intro data taken
    rw [flatMap_cons, append_assoc, Token.escape]
    cases hletter : Token.escapeLetter? c with
    | some letter =>
      obtain ⟨hx, hd⟩ := unescape?_of_escapeLetter? hletter
      simp only [cons_append, nil_append]
      rw [scanQuoted_cons, if_neg hback.symm, unit?_backslash hd hx]
      simp only [drop_succ_cons, drop_zero]
      rw [ih]
      simp
      omega
    | none =>
      have hc : c ≠ backslash := by rintro rfl; exact absurd hletter (by decide)
      simp only
      split
      · next hcm =>
        have hcm' : c = mark := by simpa using hcm
        subst hcm'
        simp only [cons_append, nil_append]
        rw [scanQuoted_cons, if_neg hback.symm, unit?_backslash hdigit hself]
        simp only [drop_succ_cons, drop_zero]
        rw [ih]
        simp
        omega
      · next hcm =>
        have hcm' : c ≠ mark := by simpa using hcm
        simp only [cons_append, nil_append]
        rw [scanQuoted_cons, if_neg hcm', unit?_of_ne hc]
        simp only [drop_zero]
        rw [ih]
        simp
        omega

theorem flatMap_escape_of_plain :
    ∀ {text : Bytes},
    mark ∉ text → backslash ∉ text → (∀ c ∈ text, ¬(7 ≤ c ∧ c ≤ 13)) →
      text.flatMap (Token.escape [mark]) = text := by
  intro text
  induction text with
  | nil => intro _ _ _; rfl
  | cons c text ih =>
    intro hm hb hctrl
    rw [mem_cons, not_or] at hm hb
    have hc := hctrl c mem_cons_self
    have hletter : Token.escapeLetter? c = none := by
      unfold Token.escapeLetter?
      split <;> first | rfl | (exfalso; exact hc (by decide)) | (exfalso; exact hb.1 rfl)
    have hne : ([c] == [mark]) = false := by simpa using Ne.symm hm.1
    rw [flatMap_cons, ih hm.2 hb.2 (fun d hd => hctrl d (mem_cons_of_mem _ hd)),
      Token.escape, hletter]
    simp [hne]

end Cartridge.Lua
