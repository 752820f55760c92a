import Cartridge.Lua.Scan

/-!
# The first rule that fits

The rules are many, but the first byte of the source rules out nearly all of them: a letter starts a
word, a digit a numeral, and only a point, a colon, a minus sign and a slash start tokens of two
kinds.  What the rules find is stated here by the first byte.
-/

namespace Cartridge.Lua

open Recogniser List Bytes

variable {c : UInt8}

def isSpace (c : UInt8) : Bool := c == 32 || c == 9

def Recogniser.numeral : Recogniser := fun s =>
  (based 120 88 Hex.isDigit s).or <| (basedFraction 120 88 Hex.isDigit s).or <|
    (based 98 66 isBinaryDigit s).or <| (basedFraction 98 66 isBinaryDigit s).or <|
      (decimal s).or (pointed s)

def symbolMatch (s : Bytes) : Option Nat := symbols.findSome? fun u => literal u s

def keywordMatch (reserved : List Bytes) (s : Bytes) : Option Nat :=
  reserved.findSome? fun u => word u s

def tagged (k : TokenKind) (n : Option Nat) : Option (TokenKind × Nat) := n.map fun n => (k, n)

@[simp] theorem tagged_none (k : TokenKind) : tagged k none = none := rfl

@[simp] theorem tagged_some (k : TokenKind) (n : Nat) : tagged k (some n) = some (k, n) := rfl

theorem firstMatch_cons (r : Rule) (rs : List Rule) (s : Bytes) :
    firstMatch (r :: rs) s = (tagged r.kind (r.recogniser s)).or (firstMatch rs s) := by
  unfold firstMatch tagged
  rw [findSome?_cons]
  cases h : (r.recogniser s).map fun n => (r.kind, n) <;> rfl

theorem firstMatch_append (rs rs' : List Rule) (s : Bytes) :
    firstMatch (rs ++ rs') s = (firstMatch rs s).or (firstMatch rs' s) :=
  findSome?_append

theorem firstMatch_map (k : TokenKind) (f : Bytes → Recogniser) (ws : List Bytes) (s : Bytes) :
    firstMatch (ws.map fun w => ⟨k, f w⟩) s = tagged k (ws.findSome? fun w => f w s) := by
  induction ws with
  | nil => rfl
  | cons w ws ih =>
    rw [map_cons, firstMatch_cons, ih, findSome?_cons]
    cases h : f w s <;> simp [h]

theorem tagged_or (k : TokenKind) (a b : Option Nat) :
    tagged k (a.or b) = (tagged k a).or (tagged k b) := by
  cases a <;> rfl

theorem firstMatch_rules (reserved : List Bytes) (s : Bytes) :
    firstMatch (rules reserved) s =
      ((tagged .comment (toLineEnd [45, 45] s)).or <| (tagged .comment (toLineEnd [47, 47] s)).or <|
        (tagged .space (many isSpace s)).or <| (tagged .newline (literal [13, 10] s)).or <|
          (tagged .newline (literal [10] s)).or <| (tagged .newline (literal [13] s)).or <|
            (tagged .number (numeral s)).or <| (tagged .label (label s)).or <|
              (tagged .keyword (keywordMatch reserved s)).or <|
                (tagged .symbol (symbolMatch s)).or <|
                  (tagged .name (name s)).or (tagged .name (literal [63] s))) := by
  have hdashes : ofText "--" = [45, 45] := rfl
  have hslashes : ofText "//" = [47, 47] := rfl
  unfold rules
  rw [firstMatch_append, firstMatch_append, firstMatch_append, firstMatch_map, firstMatch_map,
    hdashes, hslashes]
  simp only [firstMatch_cons, numeral, tagged_or, Option.or_assoc, keywordMatch, symbolMatch]
  have hnil : firstMatch [] s = none := rfl
  rw [hnil]
  simp only [Option.or_none, Option.none_or]
  rfl

/-! ### Rules that a first byte rules out -/

theorem literal_of_ne {d : UInt8} (h : d ≠ c) (t s : Bytes) : literal (d :: t) (c :: s) = none := by
  simp [literal, isPrefixOf_cons_cons, h]

theorem toLineEnd_of_ne {d : UInt8} (h : d ≠ c) (t s : Bytes) : toLineEnd (d :: t) (c :: s) = none := by
  simp [toLineEnd, isPrefixOf_cons_cons, h]

theorem many_of_not {p : UInt8 → Bool} (h : p c = false) (s : Bytes) : many p (c :: s) = none := by
  simp [many, Recogniser.run, h]

theorem label_of_ne (h : c ≠ 58) (s : Bytes) : label (c :: s) = none := by
  unfold label
  split
  · next heq => simp at heq; exact absurd heq.1 h
  · rfl

theorem name_of_not (h : isNameStart c = false) (s : Bytes) : name (c :: s) = none := by
  simp [name, h]

theorem based_of_ne (h : c ≠ 48) (l u : UInt8) (p : UInt8 → Bool) (s : Bytes) :
    based l u p (c :: s) = none := by
  unfold based
  split
  · next heq => simp at heq; exact absurd heq.1 h
  · rfl

theorem basedFraction_of_ne (h : c ≠ 48) (l u : UInt8) (p : UInt8 → Bool) (s : Bytes) :
    basedFraction l u p (c :: s) = none := by
  unfold basedFraction
  split
  · next heq => simp at heq; exact absurd heq.1 h
  · rfl

theorem decimal_of_not (h : isDigit c = false) (s : Bytes) : decimal (c :: s) = none := by
  simp [decimal, Recogniser.run, h]

theorem fraction_of_ne (h : c ≠ 46) (p : UInt8 → Bool) (s : Bytes) : fraction p (c :: s) = 0 := by
  unfold fraction
  split
  · next heq => simp at heq; exact absurd heq.1 h
  · rfl

theorem pointed_of_ne (h : c ≠ 46) (s : Bytes) : pointed (c :: s) = none := by
  simp [pointed, fraction_of_ne h]

theorem numeral_of_not (h : isDigit c = false) (hpoint : c ≠ 46) (s : Bytes) :
    numeral (c :: s) = none := by
  have hzero : c ≠ 48 := by rintro rfl; exact absurd h (by decide)
  simp [numeral, based_of_ne hzero, basedFraction_of_ne hzero, decimal_of_not h,
    pointed_of_ne hpoint]

theorem isNameStart_of_mem_keywords : ∀ u ∈ keywords, u ≠ [] ∧ ∀ c ∈ u, isNameStart c := by
  have hall : keywords.all (fun u => !u.isEmpty && u.all isNameStart) = true := by decide +kernel
  simpa using hall

theorem isWord_of_isNameStart (h : isNameStart c = true) : isWord c = true := by
  simp [isWord, h]

theorem keywordMatch_of_not (h : isNameStart c = false) (s : Bytes) :
    keywordMatch keywords (c :: s) = none := by
  unfold keywordMatch
  rw [findSome?_eq_none_iff]
  intro u hu
  obtain ⟨hne, hletters⟩ := isNameStart_of_mem_keywords u hu
  cases u with
  | nil => exact absurd rfl hne
  | cons d u =>
    have hd := hletters d mem_cons_self
    have hdc : d ≠ c := by rintro rfl; rw [h] at hd; cases hd
    simp [word, isPrefixOf_cons_cons, hdc]

def isSymbolStart (c : UInt8) : Bool := symbols.any fun u => u.head? == some c

theorem symbolMatch_of_not (h : isSymbolStart c = false) (s : Bytes) : symbolMatch (c :: s) = none := by
  unfold symbolMatch
  rw [findSome?_eq_none_iff]
  intro u hu
  have hhead : u.head? ≠ some c := by
    intro heq
    simp only [isSymbolStart, any_eq_false] at h
    exact h u hu (by simp [heq])
  have hne : u ≠ [] := by
    have : ∀ u ∈ symbols, u ≠ [] := by decide
    exact this u hu
  cases u with
  | nil => exact absurd rfl hne
  | cons d u => exact literal_of_ne (by rintro rfl; exact hhead rfl) u s

theorem isSymbolStart_eq_false (h : isWord c = true ∨ isSpace c = true ∨ c = 10 ∨ c = 13 ∨ c = 63) :
    isSymbolStart c = false := by
  have hheads : ∀ u ∈ symbols, u.head?.all fun d =>
      !isWord d && !isSpace d && d != 10 && d != 13 && d != 63 := by decide
  rw [isSymbolStart, any_eq_false]
  intro u hu heq
  have hall := hheads u hu
  rw [beq_iff_eq.mp heq] at hall
  simp only [Option.all_some, Bool.and_eq_true, Bool.not_eq_true', bne_iff_ne] at hall
  obtain ⟨⟨⟨⟨hword, hspace⟩, h10⟩, h13⟩, h63⟩ := hall
  rcases h with h | h | h | h | h
  · rw [hword] at h; cases h
  · rw [hspace] at h; cases h
  · exact h10 h
  · exact h13 h
  · exact h63 h

/-! ### Words -/

theorem word_eq {u : Bytes} (hword : ∀ c ∈ u, isWord c = true) (s : Bytes) :
    word u s = if s.takeWhile isWord = u then some u.length else none := by
  induction u generalizing s with
  | nil =>
    cases s with
    | nil => simp [word]
    | cons c s => cases hc : isWord c <;> simp [word, hc]
  | cons d u ih =>
    cases s with
    | nil => simp [word]
    | cons c s =>
      have hd := hword d mem_cons_self
      have ihs := ih (fun c hc => hword c (mem_cons_of_mem d hc)) s
      by_cases hcd : d = c
      · subst hcd
        have hstep : word (d :: u) (d :: s) = (word u s).map (· + 1) := by
          simp only [word, isPrefixOf_cons_cons, beq_self_eq_true, Bool.true_and,
            length_cons, drop_succ_cons]
          split <;> rfl
        rw [hstep, ihs, takeWhile_cons, if_pos hd]
        split <;> simp_all
      · have hne : (c :: s).takeWhile isWord ≠ d :: u := by
          rw [takeWhile_cons]
          split
          · intro heq
            exact hcd (cons.inj heq).1.symm
          · intro heq
            cases heq
        rw [if_neg hne]
        simp [word, isPrefixOf_cons_cons, hcd]

theorem keywordMatch_eq {reserved : List Bytes}
    (hres : ∀ u ∈ reserved, ∀ c ∈ u, isWord c = true) (s : Bytes) :
    keywordMatch reserved s =
      if s.takeWhile isWord ∈ reserved then some (s.takeWhile isWord).length
      else none := by
  unfold keywordMatch
  induction reserved with
  | nil => simp
  | cons u reserved ih =>
    rw [findSome?_cons, word_eq (hres u mem_cons_self),
      ih fun v hv => hres v (mem_cons_of_mem u hv)]
    by_cases h : s.takeWhile isWord = u
    · simp [h]
    · simp [h]

def wordKind (w : Bytes) : TokenKind := if w ∈ keywords then .keyword else .name

/-! ### What the rules find -/

theorem isDigit_of_isNameStart (h : isNameStart c = true) : isDigit c = false := by
  rw [Bool.eq_false_iff]
  intro hd
  simp only [isDigit, isNameStart, isLetter, Bool.and_eq_true, Bool.or_eq_true,
    decide_eq_true_eq, beq_iff_eq, UInt8.le_iff_toNat_le] at hd h
  simp only [UInt8.reduceToNat] at hd h
  rcases h with (h | h) | rfl
  · omega
  · omega
  · simp at hd

theorem firstMatch_word (h : isNameStart c = true) (s : Bytes) :
    firstMatch standardRules (c :: s) =
      some (wordKind ((c :: s).takeWhile isWord),
        ((c :: s).takeWhile isWord).length) := by
  have hword := isWord_of_isNameStart h
  have hspace : isSpace c = false := by
    rw [Bool.eq_false_iff]
    intro hs
    simp only [isSpace, Bool.or_eq_true, beq_iff_eq] at hs
    rcases hs with rfl | rfl <;> exact absurd h (by decide)
  have hdigit := isDigit_of_isNameStart h
  have hne : ∀ d : UInt8, isNameStart d = false → d ≠ c := by
    rintro d hd rfl
    rw [h] at hd
    cases hd
  have hres : ∀ u ∈ keywords, ∀ d ∈ u, isWord d = true :=
    fun u hu d hd => isWord_of_isNameStart ((isNameStart_of_mem_keywords u hu).2 d hd)
  rw [standardRules, firstMatch_rules, toLineEnd_of_ne (hne 45 rfl), toLineEnd_of_ne (hne 47 rfl),
    many_of_not hspace, literal_of_ne (hne 13 rfl), literal_of_ne (hne 10 rfl),
    literal_of_ne (hne 13 rfl), numeral_of_not hdigit (hne 46 rfl).symm,
    label_of_ne (hne 58 rfl).symm, keywordMatch_eq hres,
    symbolMatch_of_not (isSymbolStart_eq_false (.inl hword)), wordKind]
  have hname : name (c :: s) = some ((c :: s).takeWhile isWord).length := by
    simp [name, h, Recogniser.run, hword, Nat.add_comm]
  rw [hname]
  split <;> simp

theorem firstMatch_of_not (hname : isNameStart c = false) (hspace : isSpace c = false) (h10 : c ≠ 10)
    (h13 : c ≠ 13) (h63 : c ≠ 63) (s : Bytes) :
    firstMatch standardRules (c :: s) =
      ((tagged .comment (toLineEnd [45, 45] (c :: s))).or <|
        (tagged .comment (toLineEnd [47, 47] (c :: s))).or <|
          (tagged .number (numeral (c :: s))).or <| (tagged .label (label (c :: s))).or <|
            tagged .symbol (symbolMatch (c :: s))) := by
  rw [standardRules, firstMatch_rules, many_of_not hspace, literal_of_ne h13.symm,
    literal_of_ne h10.symm, literal_of_ne h13.symm, keywordMatch_of_not hname, name_of_not hname,
    literal_of_ne h63.symm]
  simp

theorem firstMatch_digit (h : isDigit c = true) (s : Bytes) :
    firstMatch standardRules (c :: s) = tagged .number (numeral (c :: s)) := by
  have hword : isWord c = true := by simp [isWord, h]
  have hne : ∀ d : UInt8, isDigit d = false → d ≠ c := by
    rintro d hd rfl
    rw [h] at hd
    cases hd
  have hname : isNameStart c = false := by
    rw [Bool.eq_false_iff]
    intro hn
    rw [isDigit_of_isNameStart hn] at h
    cases h
  have hspace : isSpace c = false := by
    simp [isSpace, (hne 32 rfl).symm, (hne 9 rfl).symm]
  rw [firstMatch_of_not hname hspace (hne 10 rfl).symm (hne 13 rfl).symm (hne 63 rfl).symm,
    toLineEnd_of_ne (hne 45 rfl), toLineEnd_of_ne (hne 47 rfl), label_of_ne (hne 58 rfl).symm,
    symbolMatch_of_not (isSymbolStart_eq_false (.inl hword))]
  simp

theorem firstMatch_point (s : Bytes) :
    firstMatch standardRules (46 :: s) =
      (tagged .number (pointed (46 :: s))).or (tagged .symbol (symbolMatch (46 :: s))) := by
  rw [firstMatch_of_not rfl rfl (by decide) (by decide) (by decide), toLineEnd_of_ne (by decide),
    toLineEnd_of_ne (by decide), label_of_ne (by decide), numeral, based_of_ne (by decide),
    basedFraction_of_ne (by decide), based_of_ne (by decide), basedFraction_of_ne (by decide),
    decimal_of_not rfl]
  simp

theorem firstMatch_colon (s : Bytes) :
    firstMatch standardRules (58 :: s) =
      (tagged .label (label (58 :: s))).or (tagged .symbol (symbolMatch (58 :: s))) := by
  rw [firstMatch_of_not rfl rfl (by decide) (by decide) (by decide), toLineEnd_of_ne (by decide),
    toLineEnd_of_ne (by decide), numeral_of_not rfl (by decide)]
  simp

theorem firstMatch_minus (s : Bytes) :
    firstMatch standardRules (45 :: s) =
      (tagged .comment (toLineEnd [45, 45] (45 :: s))).or
        (tagged .symbol (symbolMatch (45 :: s))) := by
  rw [firstMatch_of_not rfl rfl (by decide) (by decide) (by decide),
    toLineEnd_of_ne (d := 47) (by decide), numeral_of_not rfl (by decide), label_of_ne (by decide)]
  simp

theorem firstMatch_slash (s : Bytes) :
    firstMatch standardRules (47 :: s) =
      (tagged .comment (toLineEnd [47, 47] (47 :: s))).or
        (tagged .symbol (symbolMatch (47 :: s))) := by
  rw [firstMatch_of_not rfl rfl (by decide) (by decide) (by decide),
    toLineEnd_of_ne (d := 45) (by decide), numeral_of_not rfl (by decide), label_of_ne (by decide)]
  simp

theorem firstMatch_other (hname : isNameStart c = false) (hdigit : isDigit c = false)
    (hspace : isSpace c = false) (hc : c ≠ 10 ∧ c ≠ 13 ∧ c ≠ 63 ∧ c ≠ 45 ∧ c ≠ 47 ∧ c ≠ 46 ∧ c ≠ 58)
    (s : Bytes) : firstMatch standardRules (c :: s) = tagged .symbol (symbolMatch (c :: s)) := by
  obtain ⟨h10, h13, h63, h45, h47, h46, h58⟩ := hc
  rw [firstMatch_of_not hname hspace h10 h13 h63, toLineEnd_of_ne h45.symm,
    toLineEnd_of_ne h47.symm, numeral_of_not hdigit h46, label_of_ne h58]
  simp

theorem firstMatch_space (h : isSpace c = true) (s : Bytes) :
    firstMatch standardRules (c :: s) = some (.space, ((c :: s).takeWhile isSpace).length) := by
  have hne : ∀ d : UInt8, isSpace d = false → d ≠ c := by
    rintro d hd rfl
    rw [h] at hd
    cases hd
  have hmany : many isSpace (c :: s) = some ((c :: s).takeWhile isSpace).length := by
    simp [many, Recogniser.run, h]
  rw [standardRules, firstMatch_rules, toLineEnd_of_ne (hne 45 rfl), toLineEnd_of_ne (hne 47 rfl),
    hmany]
  rfl

theorem firstMatch_newline (s : Bytes) :
    firstMatch standardRules (10 :: s) = some (.newline, 1) := by
  rw [standardRules, firstMatch_rules, toLineEnd_of_ne (by decide), toLineEnd_of_ne (by decide),
    many_of_not rfl, literal_of_ne (d := 13) (by decide)]
  rfl

theorem firstMatch_return (s : Bytes) :
    firstMatch standardRules (13 :: s) = some (.newline, if s.head? = some 10 then 2 else 1) := by
  rw [standardRules, firstMatch_rules, toLineEnd_of_ne (by decide), toLineEnd_of_ne (by decide),
    many_of_not rfl]
  cases s with
  | nil => rfl
  | cons d s =>
    by_cases hd : d = 10
    · subst hd
      rfl
    · simp [literal, isPrefixOf_cons_cons, hd, Ne.symm hd]

theorem firstMatch_question (s : Bytes) : firstMatch standardRules (63 :: s) = some (.name, 1) := by
  rw [standardRules, firstMatch_rules, toLineEnd_of_ne (by decide), toLineEnd_of_ne (by decide),
    many_of_not rfl, literal_of_ne (d := 13) (by decide), literal_of_ne (d := 10) (by decide),
    literal_of_ne (d := 13) (by decide), numeral_of_not rfl (by decide), label_of_ne (by decide),
    keywordMatch_of_not rfl, symbolMatch_of_not (isSymbolStart_eq_false (by simp)),
    name_of_not rfl]
  rfl

end Cartridge.Lua
