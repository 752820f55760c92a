import Cartridge.Proofs.Lua.Echo

/-!
# What words weigh

Dashes, slashes and digits are the bytes that can open a comment or spell another byte.  A token never
spells more of them than its source has, and the source that is written for a token has just as many;
but a comment takes two of them at least away.  So a text in which a comment appears that was not
written there is short of some word.
-/

namespace Cartridge.Lua

variable {mark x : UInt8} {s w : Bytes} {t : Token}

def isHeavy (c : UInt8) : Bool := c == 45 || c == 47 || Bytes.isDigit c

def weight (s : Bytes) : Nat := s.countP isHeavy

@[simp] theorem weight_nil : weight [] = 0 := rfl

@[simp] theorem weight_append (s s' : Bytes) : weight (s ++ s') = weight s + weight s' :=
  List.countP_append

theorem weight_cons (c : UInt8) (s : Bytes) : weight (c :: s) = weight [c] + weight s :=
  weight_append [c] s

theorem weight_eq_zero (h : ∀ c ∈ s, isHeavy c = false) : weight s = 0 := by
  refine List.countP_eq_zero.mpr fun c hc => ?_
  rw [h c hc]
  exact Bool.false_ne_true

theorem weight_singleton_le (c : UInt8) : weight [c] ≤ 1 := List.countP_le_length

/-! ### Strings -/

theorem isHeavy_of_unescape? {d : UInt8} (h : unescape? d = some x) : isHeavy x = false := by
  unfold unescape? at h
  split at h <;> cases h <;> rfl

theorem Quoted.weight_unit? {c : UInt8} {n : Nat} (h : Quoted.unit? c s = some (x, n)) :
    weight [x] ≤ weight (c :: s.take n) := by
  rw [weight_cons c]
  unfold Quoted.unit? at h
  split at h
  · next hback =>
    split at h
    · split at h
      · next y hy =>
        cases h
        obtain ⟨d, -, hd⟩ := Option.bind_eq_some_iff.mp hy
        have hzero : weight [x] = 0 :=
          weight_eq_zero fun e he => List.mem_singleton.mp he ▸ isHeavy_of_unescape? hd
        omega
      · cases h
        exact Nat.le_add_right _ _
    · next hdigits =>
      split at h
      · cases h
        -- one digit at least was taken, and it weighs as much as any byte
        obtain ⟨d, ds, hds⟩ := List.exists_cons_of_ne_nil hdigits
        have hd : Bytes.isDigit d = true := by
          have hmem : d ∈ Quoted.digits s := hds ▸ List.mem_cons_self
          exact List.all_eq_true.mp List.all_takeWhile d hmem
        have hheavy : weight [d] = 1 := by simp [weight, isHeavy, hd]
        have htake : s.take (Quoted.digits s).length = d :: ds := by
          have hp : Quoted.digits s <+: s :=
            (List.takeWhile_prefix _).trans (List.take_prefix 3 s)
          rw [← List.prefix_iff_eq_take.mp hp, hds]
        have hle := weight_singleton_le (UInt8.ofNat (Quoted.value (Quoted.digits s)))
        rw [htake, weight_cons d ds]
        omega
      · cases h
  · cases h
    exact Nat.le_add_right _ _

theorem weight_scanQuoted :
    ∀ {s data more : Bytes} {taken n : Nat},
    scanQuoted mark data taken s = .closed more n → weight more ≤ weight data + weight s := by
  intro s
  induction h : s.length using Nat.strongRecOn generalizing s with
  | _ k ih =>
    intro data more taken n hscan
    cases s with
    | nil => rw [scanQuoted_nil] at hscan; cases hscan
    | cons c s =>
      rw [scanQuoted_cons] at hscan
      split at hscan
      · cases hscan
        have hreverse : weight data.reverse = weight data := List.countP_reverse
        omega
      · cases hu : Quoted.unit? c s with
        | none => rw [hu] at hscan; cases hscan
        | some u =>
          obtain ⟨x, m⟩ := u
          rw [hu] at hscan
          have hlt : (s.drop m).length < k := by
            rw [List.length_drop, ← h, List.length_cons]
            omega
          have hrest := ih _ hlt rfl hscan
          have hunit := Quoted.weight_unit? hu
          have hsplit := weight_append (s.take m) (s.drop m)
          rw [List.take_append_drop] at hsplit
          rw [weight_cons x data] at hrest
          rw [weight_cons c] at hunit ⊢
          omega

theorem weight_escape (c : UInt8) : weight (Token.escape [mark] c) = weight [c] := by
  have hback : weight [Bytes.backslash] = 0 := rfl
  unfold Token.escape
  cases hc : Token.escapeLetter? c with
  | some letter =>
    unfold Token.escapeLetter? at hc
    split at hc <;> cases hc <;> rfl
  | none =>
    dsimp only
    split
    · rw [weight_cons, hback, Nat.zero_add]
    · rfl

theorem weight_flatMap_escape (s : Bytes) : weight (s.flatMap (Token.escape [mark])) = weight s := by
  induction s with
  | nil => rfl
  | cons c s ih => rw [List.flatMap_cons, weight_append, weight_escape, ih, ← weight_cons]

/-! ### Tokens -/

theorem weight_brackets {signs : Bytes} (hsigns : ∀ c ∈ signs, c = 61) :
    weight (openingBracket signs) = 0 ∧ weight (closingBracket signs) = 0 := by
  have hzero : weight signs = 0 := weight_eq_zero fun c hc => hsigns c hc ▸ rfl
  have hopen : weight [91] = 0 := rfl
  have hclose : weight [93] = 0 := rfl
  refine ⟨?_, ?_⟩
  · rw [openingBracket, weight_cons, weight_append, hzero, hopen]
  · rw [closingBracket, weight_append, weight_cons, hzero, hclose]

theorem weight_mark (h : isQuote mark = true) : weight [mark] = 0 := by
  rcases isQuote_iff.mp h with rfl | rfl <;> rfl

theorem Lexeme.weight_data_le (h : Lexeme w t) : weight t.data ≤ weight w := by
  cases h with
  | comment hcut => exact Nat.le_refl _
  | @bracket signs x hsigns hcut =>
    rw [weight_append, weight_append]
    exact Nat.le_trans (Nat.le_add_left _ _) (Nat.le_add_right _ _)
  | @quoted mark body data hmark hscan =>
    have hle := weight_scanQuoted hscan
    rw [weight_nil, Nat.zero_add] at hle
    rw [weight_cons]
    exact Nat.le_trans hle (Nat.le_add_left _ _)
  | plain hcomment hbracket hquote hfirst => exact Nat.le_refl _

theorem Lexeme.weight_code (h : Lexeme w t) : weight t.code = weight t.data := by
  cases h with
  | comment hcut => rfl
  | @bracket signs x hsigns hcut =>
    obtain ⟨hopen, hclose⟩ := weight_brackets hsigns
    rw [code_longString, weight_append, weight_append, hopen, hclose, Nat.zero_add, Nat.add_zero]
    rfl
  | @quoted mark body data hmark hscan =>
    rw [code_quotedString, weight_cons, weight_append, weight_flatMap_escape, weight_mark hmark,
      Nat.zero_add, Nat.add_zero]
    rfl
  | plain hcomment hbracket hquote hfirst => rw [code_plainToken hfirst]; rfl

/-! ### Words -/

def words (ts : List Token) : List (TokenKind × Bytes) :=
  (ts.filter fun t => !t.isGap).map fun t => (t.kind, t.data)

theorem words_cons_of_gap (h : t.isGap = true) (ts : List Token) : words (t :: ts) = words ts := by
  simp [words, h]

theorem words_cons_of_word (h : t.isGap = false) (ts : List Token) :
    words (t :: ts) = (t.kind, t.data) :: words ts := by
  simp [words, h]

def wordsWeight (ws : List (TokenKind × Bytes)) : Nat := weight (ws.map Prod.snd).flatten

theorem wordsWeight_cons (k : TokenKind) (x : Bytes) (ws : List (TokenKind × Bytes)) :
    wordsWeight ((k, x) :: ws) = weight x + wordsWeight ws := by
  rw [wordsWeight, List.map_cons, List.flatten_cons, weight_append]
  rfl

theorem Lexed.wordsWeight_le {ls : List (Bytes × Token)} (h : Lexed s ls) :
    wordsWeight (words (ls.map Prod.snd)) ≤ weight s := by
  induction h with
  | nil => exact Nat.le_refl _
  | @cons w r t ls hw hruns hr ih =>
    rw [List.map_cons, weight_append]
    cases ht : t.isGap with
    | true =>
      rw [words_cons_of_gap ht]
      exact Nat.le_trans ih (Nat.le_add_left _ _)
    | false =>
      rw [words_cons_of_word ht, wordsWeight_cons]
      exact Nat.add_le_add hw.weight_data_le ih

end Cartridge.Lua
