import Cartridge.Proofs.Lua.Stepwise

/-!
# Brackets

Every phrase closes the brackets that it opens, and no others.  Among the phrases that are tried before
it is known what they are, none has a `function` outside brackets.  So a `function` that opens a statement
is never passed over by trying: where a statement of the outermost block starts, no bracket is open.

The rules are gone through once, by a check of their rows that computes.
-/

namespace Cartridge.Lua

def Token.nesting (t : Token) : Int :=
  if ["(", "[", "\x7b"].any fun s => t.agrees (Token.symbol s) then 1
  else if [")", "]", "\x7d"].any fun s => t.agrees (Token.symbol s) then -1
  else 0

theorem Token.nesting_of_agrees {t u : Token} (h : t.agrees u = true) : t.nesting = u.nesting := by
  have hsame : ∀ v, t.agrees v = u.agrees v := fun v => Token.fits_of_agrees h (.exact v)
  simp only [Token.nesting, hsame]

theorem Token.nesting_of_kind {t : Token} (h : t.kind ≠ .symbol) : t.nesting = 0 := by
  have hnot : ∀ s, t.agrees (Token.symbol s) = false := by
    intro s
    by_contra hagrees
    exact h (Grammar.kind_eq_of_agrees (Bool.not_eq_false _ ▸ hagrees))
  simp [Token.nesting, hnot]

theorem Token.nesting_of_isGap {t : Token} (h : t.isGap = true) : t.nesting = 0 := by
  refine Token.nesting_of_kind fun hkind => ?_
  rw [Token.isGap, hkind] at h
  cases h

/-- How the tokens that fit a pattern change the number of open brackets, if they all do the same. -/
def Pattern.nesting : Pattern → Option Int
  | .exact t => some t.nesting
  | .kind .symbol | .kind .general => none
  | .kind _ => some 0

theorem Pattern.nesting_of_fits {p : Pattern} {n : Int} (hp : p.nesting = some n) {t : Token}
    (ht : t.fits p = true) : t.nesting = n := by
  cases p with
  | exact u =>
    rw [Token.nesting_of_agrees ht]
    exact Option.some.inj hp
  | kind k =>
    have hkind : k ≠ .general → t.kind = k := fun hk => by
      cases k <;> simp_all [Token.fits]
    cases k with
    | symbol | general => cases hp
    | _ =>
      rw [Token.nesting_of_kind (by rw [hkind (by decide)]; decide)]
      exact Option.some.inj hp

namespace Grammar

def depth (toks : Array Token) : Nat → Int
  | 0 => 0
  | i + 1 => depth toks i + (toks[i]?.map Token.nesting).getD 0

section Depth

variable {toks : Array Token} {i j x : Nat} {t : Token}

theorem depth_zero (toks : Array Token) : depth toks 0 = 0 := rfl

theorem depth_succ (ht : toks[i]? = some t) : depth toks (i + 1) = depth toks i + t.nesting := by
  rw [depth, ht]
  rfl

theorem Blank.depth_eq (h : Blank toks i j) (hix : i ≤ x) (hxj : x ≤ j) : depth toks x = depth toks i := by
  induction x with
  | zero => rw [Nat.le_zero.mp hix]
  | succ x ih =>
    rcases Nat.eq_or_lt_of_le hix with rfl | hlt
    · rfl
    · obtain ⟨t, ht, hgap⟩ := h.gap x (by omega) (by omega)
      rw [depth_succ ht, Token.nesting_of_isGap hgap, ih (by omega) (by omega), Int.add_zero]

end Depth

/-! ### Rows -/

/-- The phrases that are tried before it is known what they are, and what they are made of outside
brackets. -/
def Category.isTried : Category → Bool
  | .chain | .base | .arguments | .table | .variables | .nothing => true
  | _ => false

/-- What becomes of `n` open brackets behind one of some words, if the words agree on that.  If the row
is tried, `function` stands within brackets. -/
def passes (tried : Bool) (n : Nat) (ps : List Pattern) (rest : Nat → Bool) : Bool :=
  if ps.all (·.nesting == some 1) then rest (n + 1)
  else if ps.all (·.nesting == some (-1)) then decide (0 < n) && rest (n - 1)
  else ps.all (·.nesting == some 0) &&
    (!tried || decide (0 < n) || ps.all fun p => !p.meets (.exact (Token.keyword "function"))) && rest n

def closes (tried : Bool) : Nat → List Item → Bool
  | n, [] => n == 0
  | n, .word ws :: items => passes tried n (ws.map Word.pattern) (closes tried · items)
  | n, .leaf ps _ :: items => passes tried n ps (closes tried · items)
  | n, .part s _ :: items => (!tried || decide (0 < n) || s.isTried) && closes tried n items
  | n, .place _ :: items | n, .semicolons :: items | n, .clear :: items => closes tried n items

theorem closes_flatMap {α : Type} {tried : Bool} {n : Nat} {f : α → List Item}
    (hf : ∀ a items, closes tried n (f a ++ items) = closes tried n items) (as : List α)
    (items : List Item) : closes tried n (as.flatMap f ++ items) = closes tried n items := by
  induction as with
  | nil => rfl
  | cons a as ih => rw [List.flatMap_cons, List.append_assoc, hf, ih]

theorem Rule.closes_items {s : Category} {i j : Nat} {t : Tree} {items : List Item} (h : Rule s i j t items) :
    closes s.isTried 0 items = true := by
  cases h with
  | block _ _ stats last =>
    rw [closes_flatMap (fun _ _ => rfl), closes_flatMap (fun _ _ => rfl)]
    rfl
  | longIf _ _ condition block rest other =>
    change closes false 0 (rest.flatMap _ ++ _) = true
    rw [closes_flatMap (fun _ _ => rfl), closes_flatMap (fun _ _ => rfl)]
    rfl
  | shortIf _ _ h block other => cases other <;> rfl
  | forStep _ _ counter first last step block => cases counter <;> cases step <;> rfl
  | localVariables _ _ names exps => cases exps <;> rfl
  | give _ _ exps => cases exps <;> rfl
  | names _ _ first rest =>
    change closes false 0 (rest.flatMap _) = true
    rw [← List.append_nil (rest.flatMap _), closes_flatMap (fun _ _ => rfl)]
    rfl
  | path _ _ first rest method =>
    change closes false 0 (rest.flatMap _ ++ _) = true
    rw [closes_flatMap (fun _ _ => rfl)]
    cases method <;> rfl
  | body _ _ names dots block => cases names <;> cases dots <;> rfl
  | table _ _ first rest closing =>
    cases first
    all_goals
      change closes true 1 (rest.flatMap _ ++ _) = true
      rw [closes_flatMap (fun _ _ => rfl)]
      cases closing <;> rfl
  | givenArguments _ _ exps => cases exps <;> rfl
  | «variables» _ _ first rest =>
    change closes true 0 (rest.flatMap _) = true
    rw [← List.append_nil (rest.flatMap _), closes_flatMap (fun _ _ => rfl)]
    rfl
  | expressions _ _ first rest =>
    change closes false 0 (rest.flatMap _) = true
    rw [← List.append_nil (rest.flatMap _), closes_flatMap (fun _ _ => rfl)]
    rfl
  | constant _ _ h =>
    simp only [constants, List.mem_cons, Prod.mk.injEq, List.not_mem_nil, or_false] at h
    obtain ⟨rfl, -⟩ | ⟨rfl, -⟩ | ⟨rfl, -⟩ := h
    all_goals rfl
  | literal _ _ h => obtain rfl | rfl := h <;> rfl
  | _ => rfl

/-! ### Phrases -/

/-- The brackets of the tokens from `i` up to `j`, when `b` brackets are open around them. -/
structure Balanced (toks : Array Token) (tried : Bool) (b : Int) (i j : Nat) : Prop where
  stop : depth toks j = b
  le : ∀ {x : Nat}, i ≤ x → x ≤ j → b ≤ depth toks x
  inside : tried = true → ∀ {x : Nat} {t : Token}, i ≤ x → x < j → toks[x]? = some t →
    t.agrees (Token.keyword "function") = true → b < depth toks x

section Phrases

variable {toks : Array Token} {tried : Bool} {b : Int} {i j m k n : Nat} {t : Token}

theorem Balanced.nil (h : depth toks i = b) : Balanced toks tried b i i where
  stop := h
  le hix hxi := by
    obtain rfl := Nat.le_antisymm hxi hix
    exact Int.le_of_eq h.symm
  inside _ {x} _ hix hxi := by omega

theorem Balanced.word (hblank : Blank toks i m) (ht : toks[m]? = some t) (hle : b ≤ depth toks i)
    (hinside : tried = true → t.agrees (Token.keyword "function") = true → b < depth toks i)
    (rest : Balanced toks tried b (m + 1) j) : Balanced toks tried b i j where
  stop := rest.stop
  le {x} hix hxj := by
    rcases Nat.lt_or_ge m x with hlt | hge
    · exact rest.le hlt hxj
    · rw [hblank.depth_eq hix hge]
      exact hle
  inside htried {x u} hix hxj hu hfunction := by
    rcases Nat.lt_trichotomy x m with hlt | rfl | hgt
    · obtain ⟨v, hv, hgap⟩ := hblank.gap x hix hlt
      rw [hu, Option.some.injEq] at hv
      rw [← hv, Token.isGap, kind_eq_of_agrees hfunction] at hgap
      cases hgap
    · rw [ht, Option.some.injEq] at hu
      rw [hblank.depth_eq hix (Nat.le_refl _)]
      exact hinside htried (hu ▸ hfunction)
    · exact rest.inside htried hgt hxj hu hfunction

theorem Balanced.part {tried' : Bool} (first : Balanced toks tried' (depth toks i) i k)
    (hle : b ≤ depth toks i) (hinside : tried = true → tried' = true ∨ b < depth toks i)
    (rest : Balanced toks tried b k j) : Balanced toks tried b i j where
  stop := rest.stop
  le {x} hix hxj := by
    rcases Nat.le_total x k with hxk | hkx
    · exact Int.le_trans hle (first.le hix hxk)
    · exact rest.le hkx hxj
  inside htried {x u} hix hxj hu hfunction := by
    rcases Nat.lt_or_ge x k with hxk | hkx
    · obtain htried' | hlt := hinside htried
      · exact Int.lt_of_le_of_lt hle (first.inside htried' hix hxk hu hfunction)
      · exact Int.lt_of_lt_of_le hlt (first.le hix (Nat.le_of_lt hxk))
    · exact rest.inside htried hkx hxj hu hfunction

theorem exists_of_passes {ps : List Pattern} {rest : Nat → Bool} (h : passes tried n ps rest = true)
    {p : Pattern} (hp : p ∈ ps) (hfits : t.fits p = true) :
    ∃ n', rest n' = true ∧ (n' : Int) = n + t.nesting ∧
      (tried = true → t.agrees (Token.keyword "function") = true → 0 < n) := by
  have hnesting : ∀ {k : Int}, ps.all (·.nesting == some k) = true → t.nesting = k := by
    intro k hall
    exact Pattern.nesting_of_fits (beq_iff_eq.mp (List.all_eq_true.mp hall p hp)) hfits
  have hfunction : t.agrees (Token.keyword "function") = true → t.nesting = 0 := fun hagrees =>
    Token.nesting_of_agrees hagrees
  rw [passes] at h
  split at h
  · next hall =>
    have hone := hnesting hall
    refine ⟨n + 1, h, by omega, fun _ hagrees => ?_⟩
    have := hfunction hagrees
    omega
  · split at h
    · next hall =>
      have hone := hnesting hall
      rw [Bool.and_eq_true, decide_eq_true_eq] at h
      exact ⟨n - 1, h.2, by omega, fun _ _ => h.1⟩
    · rw [Bool.and_eq_true, Bool.and_eq_true] at h
      have hzero := hnesting h.1.1
      refine ⟨n, h.2, by omega, fun htried hagrees => ?_⟩
      have hno := h.1.2
      rw [htried, Bool.not_true, Bool.false_or, Bool.or_eq_true, decide_eq_true_eq] at hno
      refine hno.resolve_right fun hall => ?_
      have hmeets := List.all_eq_true.mp hall p hp
      rw [Pattern.meets_of_fits hfits (q := .exact (Token.keyword "function")) hagrees] at hmeets
      cases hmeets

theorem Semicolons.balanced (h : Semicolons toks i k) (hle : b ≤ depth toks i)
    (rest : depth toks k = depth toks i → Balanced toks tried b k j) : Balanced toks tried b i j := by
  induction h with
  | nil i => exact rest rfl
  | @cons i m j t h _ ih =>
    obtain ⟨p, hp, hfits⟩ := h.fits
    rw [List.mem_singleton] at hp
    subst hp
    have hdepth : depth toks (m + 1) = depth toks i := by
      rw [depth_succ h.get, h.blank.depth_eq h.blank.le (Nat.le_refl _),
        Token.nesting_of_agrees (u := Token.symbol ";") hfits]
      exact Int.add_zero _
    refine .word h.blank h.get hle (fun _ hagrees => ?_) (ih (by rw [hdepth]; exact hle) fun heq => rest (by rw [heq, hdepth]))
    have hmeets : (Token.keyword "function").fits (.exact (Token.symbol ";")) = true := by
      rw [← Token.fits_of_agrees hagrees]
      exact hfits
    exact absurd hmeets (by decide)

theorem Takes.balanced {ps : List Pattern} {rest : Nat → Bool} (h : Takes toks ps i t m)
    (hpasses : passes tried n ps rest = true) (hdepth : depth toks i = b + n)
    (hrest : ∀ {n' : Nat}, rest n' = true → depth toks (m + 1) = b + n' → Balanced toks tried b (m + 1) j) :
    Balanced toks tried b i j := by
  obtain ⟨p, hp, hfits⟩ := h.fits
  obtain ⟨n', hn', hnesting, hinside⟩ := exists_of_passes hpasses hp hfits
  refine .word h.blank h.get (by omega) (fun htried hagrees => ?_) (hrest hn' ?_)
  · have := hinside htried hagrees
    omega
  · rw [depth_succ h.get, h.blank.depth_eq h.blank.le (Nat.le_refl _)]
    omega

theorem Spans.balanced {ok : Category → Tree → Nat → Nat → Prop} {items : List Item}
    (row : Spans toks ok items i j)
    (hok : ∀ {s t i j}, ok s t i j → Balanced toks s.isTried (depth toks i) i j)
    (hcloses : closes tried n items = true) (hdepth : depth toks i = b + n) :
    Balanced toks tried b i j := by
  induction row generalizing n with
  | nil i =>
    rw [closes, beq_iff_eq] at hcloses
    subst hcloses
    exact .nil (by omega)
  | word h rest ih => exact h.balanced hcloses hdepth fun hn' hdepth' => ih hn' hdepth'
  | leaf h rest ih => exact h.balanced hcloses hdepth fun hn' hdepth' => ih hn' hdepth'
  | part h rest ih =>
    rw [closes, Bool.and_eq_true] at hcloses
    have hpart := hok h
    refine hpart.part (by omega) (fun htried => ?_) (ih hcloses.2 (by rw [hpart.stop, hdepth]))
    have hpass := hcloses.1
    rw [htried, Bool.not_true, Bool.false_or, Bool.or_eq_true, decide_eq_true_eq] at hpass
    obtain hpos | htried' := hpass
    · exact .inr (by omega)
    · exact .inl htried'
  | place rest ih => exact ih hcloses hdepth
  | semicolons h rest ih =>
    exact h.balanced (by omega) fun heq => ih hcloses (by rw [heq, hdepth])
  | clear h rest ih => exact ih hcloses hdepth

/-- **Every phrase closes the brackets that it opens**, and if it is tried, it has `function` within
brackets only. -/
theorem Derived.balanced {s : Category} {t : Tree} (h : Derived toks s t i j) :
    Balanced toks s.isTried (depth toks i) i j :=
  h.induct fun rule row => row.balanced And.right rule.closes_items (by omega)

theorem Tried.le_of_function (h : Tried toks i j) (hi : i ≤ m) (ht : toks[m]? = some t)
    (hfunction : t.agrees (Token.keyword "function") = true) (hdepth : depth toks m ≤ depth toks i) :
    j ≤ m := by
  have hbalanced : Balanced toks true (depth toks i) i j := by
    obtain ⟨u, h | h | h | h⟩ := h
    · exact h.balanced
    · exact h.balanced
    · exact h.balanced
    · exact h.balanced (n := 0) Derived.balanced rfl (by omega)
  by_contra hlt
  have := hbalanced.inside rfl hi (Nat.lt_of_not_le hlt) ht hfunction
  omega

end Phrases

end Grammar
end Cartridge.Lua
