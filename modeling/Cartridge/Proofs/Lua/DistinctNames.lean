import Cartridge.Proofs.Lua.ShortNames
import Mathlib.Data.List.Nodup
import Mathlib.Data.List.Perm.Subperm
import Mathlib.Tactic.Linarith
import Mathlib.Tactic.Ring

/-!
# Short names are different

A number is spelled by its digits in base 26, where each quotient is computed in doubles.  For a
number below `2 ^ 53` the rounding never reaches the next whole number, so the letters spell the
number and different numbers have different names.  The search for a name that is not preserved
ends, since there are fewer preserved names than it may pass.
-/

namespace Cartridge

open List

namespace Binary64

variable {fuel k n : Nat} {ps : List (Bytes × Bytes)} {t t' : Table}

/-! ### Rounding -/

variable {num den : Nat}

theorem pow_of_add {i j : Nat} (h : i + j = k) : Nat.pow 2 k = Nat.pow 2 i * Nat.pow 2 j :=
  h ▸ Nat.pow_add 2 i j

theorem roundDiv_bounds (num : Nat) (hden : 0 < den) :
    2 * num ≤ 2 * (den * roundDiv num den) + den ∧ 2 * (den * roundDiv num den) ≤ 2 * num + den := by
  have hdiv := Nat.div_add_mod num den
  have hmod := Nat.mod_lt num hden
  have hsucc : den * (num / den + 1) = den * (num / den) + den := Nat.mul_succ _ _
  unfold roundDiv
  dsimp only
  split_ifs <;> constructor <;> omega

theorem roundDiv_mul_right {c : Nat} (hc : 0 < c) :
    roundDiv (num * c) (den * c) = roundDiv num den := by
  have hlt : 2 * (num % den * c) < den * c ↔ 2 * (num % den) < den := by
    rw [← Nat.mul_assoc, Nat.mul_lt_mul_right hc]
  have hgt : den * c < 2 * (num % den * c) ↔ den < 2 * (num % den) := by
    rw [← Nat.mul_assoc, Nat.mul_lt_mul_right hc]
  simp only [roundDiv, Nat.mul_div_mul_right _ _ hc, Nat.mul_mod_mul_right, hlt, hgt]

/-- Bits that are made of a scale and a rounded ratio stand for that ratio at that scale, also if it
was rounded up to the next scale. -/
theorem decode_scaled {bits e r : Nat} (hlow : Nat.pow 2 52 ≤ r) (hhigh : r ≤ 2 * Nat.pow 2 52)
    (hbits : bits = e * Nat.pow 2 52 + r) :
    (decode bits).1 * Nat.pow 2 (decode bits).2 = r * Nat.pow 2 e := by
  have hunit : 0 < Nat.pow 2 52 := Nat.pos_of_ne_zero (by decide)
  unfold decode
  -- only its size matters, and only here is it small enough to be computed with
  generalize Nat.pow 2 52 = unit at hunit hlow hhigh hbits ⊢
  obtain ⟨s, rfl⟩ := Nat.exists_eq_add_of_le hlow
  obtain rfl : bits = s + (e + 1) * unit := by rw [hbits]; ring
  simp only [Nat.add_mul_div_right _ _ hunit, Nat.add_mul_mod_self_right]
  rcases Nat.lt_or_ge s unit with hlt | hge
  · rw [Nat.div_eq_of_lt hlt, Nat.mod_eq_of_lt hlt, Nat.zero_add, if_neg (Nat.succ_ne_zero e),
      Nat.add_sub_cancel, Nat.add_comm s]
  · obtain rfl : s = unit := by omega
    have hpow : Nat.pow 2 (1 + e) = 2 * Nat.pow 2 e := pow_of_add rfl
    rw [Nat.div_self hunit, Nat.mod_self, if_neg (by omega), Nat.zero_add,
      show 1 + (e + 1) - 1 = 1 + e by omega, hpow]
    ring

end Binary64

namespace Lua.ShortName

open Binary64

theorem scale_26 (hpos : n ≠ 0) (hlt : n < 2 ^ 53) :
    ∃ up, scale n 26 + up = 1074 ∧ 4 ≤ up ∧ 26 * Nat.pow 2 52 ≤ n * Nat.pow 2 up ∧
      n * Nat.pow 2 up ≤ 26 * (2 * Nat.pow 2 52) := by
  have hlog : n.log2 < 53 := (Nat.log2_lt hpos).mpr hlt
  have hle : Nat.pow 2 n.log2 ≤ n := Nat.log2_self_le hpos
  have hgt : n < Nat.pow 2 n.log2 * 2 := Nat.lt_log2_self
  obtain ⟨k, hk⟩ : ∃ k, n.log2 + k = 52 := ⟨52 - n.log2, by omega⟩
  have hunit : Nat.pow 2 52 = Nat.pow 2 n.log2 * Nat.pow 2 k := pow_of_add hk
  have hmoved : Nat.pow 2 (k + 4) = Nat.pow 2 k * 16 := pow_of_add rfl
  have hmoved' : Nat.pow 2 (k + 5) = Nat.pow 2 k * 32 := pow_of_add rfl
  have hfloor : Nat.pow 2 52 ≤ n * Nat.pow 2 k := hunit ▸ Nat.mul_le_mul_right _ hle
  have hceil : n * Nat.pow 2 k ≤ 2 * Nat.pow 2 52 := by
    have h := Nat.mul_le_mul_right (Nat.pow 2 k) hgt.le
    rw [hunit]
    linarith
  have hscale : scale n 26 =
      if n * Nat.pow 2 (k + 4) < 26 * Nat.pow 2 52 then 1017 + n.log2 else 1017 + n.log2 + 1 := by
    have hguess : n.log2 + 1074 - Nat.log2 26 - 53 = 1017 + n.log2 := by
      have hfour : Nat.log2 26 = 4 := by decide
      omega
    have hnum : 1074 = k + 4 + (1017 + n.log2 + 1) := by omega
    have hden : Nat.pow 2 (1017 + n.log2 + 53) = Nat.pow 2 52 * Nat.pow 2 (1017 + n.log2 + 1) :=
      pow_of_add (by omega)
    have hpow : 0 < Nat.pow 2 (1017 + n.log2 + 1) := Nat.pow_pos (by decide)
    unfold scale
    dsimp only
    rw [hguess, hnum, pow_of_add rfl, hden, ← Nat.mul_assoc, ← Nat.mul_assoc]
    simp only [Nat.mul_lt_mul_right hpow]
  rw [hscale, hmoved]
  split
  · exact ⟨k + 5, by omega, by omega, by rw [hmoved']; linarith, by rw [hmoved']; linarith⟩
  · exact ⟨k + 4, by omega, by omega, by rw [hmoved]; linarith, by rw [hmoved]; linarith⟩

theorem roundDiv_26 (hk : 16 ≤ k) : roundDiv (n * k) 26 / k = n / 26 := by
  obtain ⟨hle, hge⟩ := roundDiv_bounds (n * k) (show 0 < 26 by decide)
  have hmod : n % 26 * k ≤ 25 * k := Nat.mul_le_mul_right k (by omega)
  have hsplit : n * k = 26 * (n / 26 * k) + n % 26 * k := by
    rw [← Nat.mul_assoc, ← Nat.add_mul, Nat.div_add_mod]
  refine Nat.div_eq_of_lt_le ?_ ?_
  · omega
  · rw [Nat.add_mul]
    omega

theorem quotient?_eq (hpos : n ≠ 0) (hlt : n < 2 ^ 53) : quotient? n = some (n / 26) := by
  obtain ⟨up, hup, hfour, hlow, hhigh⟩ := scale_26 hpos hlt
  have hunit : 0 < Nat.pow 2 52 := Nat.pow_pos (by decide)
  have hpow : 0 < Nat.pow 2 (scale n 26) := Nat.pow_pos (by decide)
  have hsixteen : 16 ≤ Nat.pow 2 up := Nat.pow_le_pow_right (show 0 < 2 by decide) hfour
  have hsplit : Nat.pow 2 (scale n 26 + up) = Nat.pow 2 up * Nat.pow 2 (scale n 26) :=
    pow_of_add (Nat.add_comm _ _)
  obtain ⟨hle, hge⟩ := roundDiv_bounds (n * Nat.pow 2 up) (show 0 < 26 by decide)
  have hfinite : scale n 26 * Nat.pow 2 52 + roundDiv (n * Nat.pow 2 up) 26 < infinity := by
    have hscale : scale n 26 * Nat.pow 2 52 ≤ 1070 * Nat.pow 2 52 :=
      Nat.mul_le_mul_right _ (by omega)
    unfold infinity
    omega
  have hbits : ofRatio n 26 = scale n 26 * Nat.pow 2 52 + roundDiv (n * Nat.pow 2 up) 26 := by
    rw [ofRatio, if_neg hpos]
    dsimp only
    rw [← hup, hsplit, ← Nat.mul_assoc, roundDiv_mul_right hpow, if_neg (Nat.not_le.mpr hfinite)]
  have hvalue := decode_scaled (by omega) (by omega) hbits
  unfold quotient?
  dsimp only
  rw [if_neg (by rw [hbits]; exact hfinite.ne), ← hup, hsplit, hvalue, Nat.mul_div_mul_right _ _ hpow,
    roundDiv_26 hsixteen]

/-! ### Spelling -/

def value (b : Bytes) : Nat := b.foldl (fun n c => n * 26 + (c.toNat - 97)) 0

theorem value_append (front : Bytes) (n : Nat) :
    value (front ++ [letter n]) = value front * 26 + n % 26 := by
  have htoNat : (letter n).toNat = 97 + n % 26 := by
    rw [letter, UInt8.toNat_ofNat_of_lt' (by show 97 + n % 26 < 256; omega)]
  rw [value, foldl_append, foldl_cons, foldl_nil, htoNat, Nat.add_sub_cancel_left,
    value]

theorem value_of_spellWithin {b : Bytes} (hlt : n < 2 ^ 53) (h : spellWithin fuel n = some b) :
    value b = n := by
  induction fuel generalizing n b with
  | zero => cases h
  | succ fuel ih =>
    rw [spellWithin] at h
    split at h
    · next hsmall =>
      cases h
      rw [← nil_append [letter n], value_append, Nat.mod_eq_of_lt hsmall]
      exact Nat.zero_add n
    · next hlarge =>
      rw [quotient?_eq (by omega) hlt] at h
      obtain ⟨front, hfront, rfl⟩ := Option.map_eq_some_iff.mp h
      rw [value_append, ih (by omega) hfront]
      omega

theorem exists_spellWithin (hlt : n < 2 ^ 53) (hfuel : n < 2 ^ fuel) :
    ∃ b, spellWithin (fuel + 1) n = some b := by
  induction fuel generalizing n with
  | zero => exact ⟨[letter n], by rw [spellWithin, if_pos (by omega)]⟩
  | succ fuel ih =>
    rw [spellWithin]
    split
    · exact ⟨_, rfl⟩
    · next hlarge =>
      rw [Nat.pow_succ] at hfuel
      obtain ⟨front, hfront⟩ := ih (n := n / 26) (by omega) (by omega)
      exact ⟨front ++ [letter n], by rw [quotient?_eq (by omega) hlt]; simp only [hfront, Option.map_some]⟩

theorem exists_spell (hlt : n < 2 ^ 53) : ∃ b, spell n = some b ∧ value b = n := by
  obtain ⟨b, hb⟩ := exists_spellWithin hlt (Nat.lt_log2_self (n := n))
  exact ⟨b, hb, value_of_spellWithin hlt hb⟩

/-! ### The search for a name -/

/-- The search for a name from the number `n` on ends at the number `m` with the name `short`. -/
structure Finds (n m : Nat) (short : Bytes) : Prop where
  le : n ≤ m
  spell : spell m = some short
  not_preserved : short ∉ preserved
  passes : ∀ k, n ≤ k → k < m → ∃ b ∈ preserved, ShortName.spell k = some b

theorem le_next_draw (fuel n : Nat) : n ≤ (draw fuel n).2 := by
  induction fuel generalizing n with
  | zero => exact Nat.le_refl n
  | succ fuel ih =>
    rw [draw]
    split
    · exact Nat.le_of_succ_le (ih (n + 1))
    · exact Nat.le_succ n

theorem draw_finds (hlt : (draw fuel n).2 ≤ 2 ^ 53) :
    (∃ m, Finds n m (draw fuel n).1 ∧ (draw fuel n).2 = m + 1) ∨
      n + fuel ≤ 2 ^ 53 ∧ ∀ k, n ≤ k → k < n + fuel → ∃ b ∈ preserved, spell k = some b := by
  induction fuel generalizing n with
  | zero => exact .inr ⟨hlt, fun k hle hk => by omega⟩
  | succ fuel ih =>
    rw [draw] at hlt ⊢
    have hn : n < 2 ^ 53 := by
      split at hlt
      · exact Nat.lt_of_lt_of_le (Nat.lt_of_succ_le (le_next_draw fuel (n + 1))) hlt
      · exact hlt
    obtain ⟨b, hb, -⟩ := exists_spell hn
    simp only [hb, Option.getD_some] at hlt ⊢
    split
    · next hmem =>
      rw [if_pos hmem] at hlt
      rw [contains_iff_mem] at hmem
      -- the number is passed, and so are those that the rest of the search passes
      have hpass : ∀ m, (∀ k, n + 1 ≤ k → k < m → ∃ b ∈ preserved, spell k = some b) →
          ∀ k, n ≤ k → k < m → ∃ b ∈ preserved, spell k = some b := by
        intro m hrest k hle hk
        rcases Nat.eq_or_lt_of_le hle with rfl | hlt
        · exact ⟨b, hmem, hb⟩
        · exact hrest k hlt hk
      rcases ih hlt with ⟨m, hm, hnext⟩ | ⟨hle, hall⟩
      · exact .inl ⟨m, ⟨Nat.le_of_succ_le hm.le, hm.spell, hm.not_preserved, hpass m hm.passes⟩, hnext⟩
      · exact .inr ⟨by omega, fun k hk hk' => hpass _ hall k hk (by omega)⟩
    · next hmem =>
      rw [contains_iff_mem] at hmem
      exact .inl ⟨n, ⟨Nat.le_refl n, hb, hmem, fun k hle hk => by omega⟩, rfl⟩

/-- **A search is allowed to go on for long enough**: so many numbers have too many names for all of
them to be preserved. -/
theorem exists_finds_draw (hlt : (draw (preserved.length + 1) n).2 ≤ 2 ^ 53) :
    ∃ m, Finds n m (draw (preserved.length + 1) n).1 ∧
      (draw (preserved.length + 1) n).2 = m + 1 := by
  refine (draw_finds hlt).resolve_right ?_
  rintro ⟨hle, hall⟩
  let names := (range (preserved.length + 1)).map fun k => (spell (n + k)).getD []
  have hvalue : names.map value = (range (preserved.length + 1)).map (n + ·) := by
    rw [map_map]
    refine map_congr_left fun k hk => ?_
    rw [mem_range] at hk
    obtain ⟨b, hb, hv⟩ := exists_spell (show n + k < 2 ^ 53 by omega)
    rw [Function.comp_apply, hb, Option.getD_some, hv]
  have hnodup : names.Nodup := by
    refine Nodup.of_map value ?_
    rw [hvalue]
    exact nodup_range.map fun i j h => Nat.add_left_cancel h
  have hsubset : names ⊆ preserved := by
    intro x hx
    obtain ⟨k, hk, rfl⟩ := mem_map.mp hx
    rw [mem_range] at hk
    obtain ⟨b, hmem, hb⟩ := hall (n + k) (Nat.le_add_right n k) (by omega)
    rwa [hb]
  have hlength := (subperm_of_subset hnodup hsubset).length_le
  rw [length_map, length_range] at hlength
  omega

/-! ### Calls -/

namespace Table

/-- **The three ways in which a table answers** for a name, with the table after that. -/
inductive Call (t : Table) (x : Bytes) : Bytes → Table → Prop
  | kept (h : x ∈ preserved) : Call t x x t
  | known {short : Bytes} (h : x ∉ preserved) (hgiven : (x, short) ∈ t.given) : Call t x short t
  | drawn {short : Bytes} {m : Nat} (h : x ∉ preserved) (hgiven : x ∉ t.given.map Prod.fst)
      (hm : Finds t.next m short) :
      Call t x short { given := t.given ++ [(x, short)], next := m + 1 }

theorem le_next_lookup (t : Table) (x : Bytes) : t.next ≤ (t.lookup x).2.next := by
  rw [lookup]
  split
  · exact Nat.le_refl _
  · split
    · exact Nat.le_refl _
    · exact le_next_draw _ _

theorem call_lookup {x : Bytes} (hlt : (t.lookup x).2.next ≤ 2 ^ 53) :
    Call t x (t.lookup x).1 (t.lookup x).2 := by
  rw [lookup] at hlt ⊢
  split
  · next hmem => exact .kept (contains_iff_mem.mp hmem)
  · next hmem =>
    rw [if_neg hmem] at hlt
    rw [contains_iff_mem] at hmem
    split
    · next p hp =>
      obtain rfl : p.1 = x := by simpa using find?_some hp
      exact .known hmem (mem_of_find?_eq_some hp)
    · next hnone =>
      rw [hnone] at hlt
      obtain ⟨m, hm, hnext⟩ := exists_finds_draw hlt
      have hgiven : x ∉ t.given.map Prod.fst := by
        intro hx
        obtain ⟨p, hp, rfl⟩ := mem_map.mp hx
        simpa using find?_eq_none.mp hnone p hp
      dsimp only
      rw [hnext]
      exact .drawn hmem hgiven hm

/-- A table that has given different short names to different names, by the numbers up to its
next one. -/
structure Distinct (t : Table) : Prop where
  names : (t.given.map Prod.fst).Nodup
  shorts : (t.given.map Prod.snd).Nodup
  fresh : ∀ p ∈ t.given, Fresh p.2
  below : ∀ p ∈ t.given, value p.2 < t.next

theorem distinct_empty : Distinct {} := ⟨.nil, .nil, by simp, by simp⟩

theorem Distinct.call {t t' : Table} {x short : Bytes} (h : t.Distinct) (hcall : Call t x short t')
    (hlt : t'.next ≤ 2 ^ 53) : t'.Distinct := by
  cases hcall with
  | kept hmem => exact h
  | known hmem hgiven => exact h
  | @drawn short m hmem hgiven hm =>
    have hvalue : value short = m := value_of_spellWithin hlt hm.spell
    have hnew : short ∉ t.given.map Prod.snd := by
      intro hs
      obtain ⟨p, hp, rfl⟩ := mem_map.mp hs
      have := h.below p hp
      have := hm.le
      omega
    have hmem_iff : ∀ p, p ∈ t.given ++ [(x, short)] → p ∈ t.given ∨ p = (x, short) := by simp
    refine ⟨?_, ?_, fun p hp => ?_, fun p hp => ?_⟩
    · rw [map_append]
      exact h.names.append (nodup_singleton _) (by simpa using hgiven)
    · rw [map_append]
      exact h.shorts.append (nodup_singleton _) (by simpa using hnew)
    · rcases hmem_iff p hp with hp | rfl
      · exact h.fresh p hp
      · obtain ⟨hne, hletters⟩ := spellWithin_letters hm.spell
        exact ⟨hne, hletters, hm.not_preserved⟩
    · rcases hmem_iff p hp with hp | rfl
      · exact Nat.lt_succ_of_le ((h.below p hp).le.trans hm.le)
      · exact Nat.lt_succ_of_le hvalue.le

/-! ### Many calls -/

def asked (t : Table) : List Bytes → Table
  | [] => t
  | x :: xs => asked (t.lookup x).2 xs

def answers (t : Table) : List Bytes → List (Bytes × Bytes)
  | [] => []
  | x :: xs => (x, (t.lookup x).1) :: answers (t.lookup x).2 xs

inductive Calls : Table → List (Bytes × Bytes) → Table → Prop
  | nil {t : Table} : Calls t [] t
  | cons {t t₁ t' : Table} {x short : Bytes} {ps : List (Bytes × Bytes)}
      (hcall : Call t x short t₁) (hrest : Calls t₁ ps t') : Calls t ((x, short) :: ps) t'

theorem le_next_asked (t : Table) (xs : List Bytes) : t.next ≤ (t.asked xs).next := by
  induction xs generalizing t with
  | nil => exact Nat.le_refl _
  | cons x xs ih => exact (t.le_next_lookup x).trans (ih _)

theorem calls_answers {xs : List Bytes} (hlt : (t.asked xs).next ≤ 2 ^ 53) :
    Calls t (t.answers xs) (t.asked xs) := by
  induction xs generalizing t with
  | nil => exact .nil
  | cons x xs ih => exact .cons (call_lookup ((le_next_asked _ xs).trans hlt)) (ih hlt)

theorem Calls.le_next (h : Calls t ps t') : t.next ≤ t'.next := by
  induction h with
  | nil => exact Nat.le_refl _
  | cons hcall _ ih =>
    cases hcall with
    | kept h => exact ih
    | known h hgiven => exact ih
    | drawn h hgiven hm => exact (hm.le.trans (Nat.le_succ _)).trans ih

theorem Calls.given_subset (h : Calls t ps t') : t.given ⊆ t'.given := by
  induction h with
  | nil => exact Subset.refl _
  | cons hcall _ ih =>
    cases hcall with
    | kept h => exact ih
    | known h hgiven => exact ih
    | drawn h hgiven hm => exact Subset.trans (subset_append_left _ _) ih

theorem Distinct.calls {t t' : Table} {ps : List (Bytes × Bytes)} (h : t.Distinct)
    (hcalls : Calls t ps t') (hlt : t'.next ≤ 2 ^ 53) : t'.Distinct := by
  induction hcalls with
  | nil => exact h
  | cons hcall hrest ih => exact ih (h.call hcall (hrest.le_next.trans hlt)) hlt

theorem Calls.answer (h : Calls t ps t') :
    ∀ p ∈ ps, p.1 ∈ preserved ∧ p.2 = p.1 ∨ p.1 ∉ preserved ∧ p ∈ t'.given := by
  induction h with
  | nil => exact fun p hp => absurd hp not_mem_nil
  | cons hcall hrest ih =>
    intro p hp
    rcases mem_cons.mp hp with rfl | hp
    · cases hcall with
      | kept h => exact .inl ⟨h, rfl⟩
      | known h hgiven => exact .inr ⟨h, hrest.given_subset hgiven⟩
      | drawn h hgiven hm => exact .inr ⟨h, hrest.given_subset (by simp)⟩
    · exact ih p hp

/-- **Short names never clash.**  However often a table is asked, as long as it draws no more numbers
than have a double of their own: each call ends; two calls have the same answer exactly if they were
for the same name; a preserved name is answered by itself, and any other by lower-case letters that
are no preserved name. -/
theorem answers_never_clash (xs : List Bytes) (hlt : (asked {} xs).next ≤ 2 ^ 53) :
    Calls {} (answers {} xs) (asked {} xs) ∧
      (∀ p ∈ answers {} xs, ∀ q ∈ answers {} xs, p.2 = q.2 ↔ p.1 = q.1) ∧
      ∀ p ∈ answers {} xs, (p.1 ∈ preserved → p.2 = p.1) ∧ (p.1 ∉ preserved → Fresh p.2) := by
  have hcalls := calls_answers hlt
  have hdistinct := distinct_empty.calls hcalls hlt
  have hinj : ∀ p ∈ (asked {} xs).given, ∀ q ∈ (asked {} xs).given, p.2 = q.2 ↔ p.1 = q.1 := by
    intro p hp q hq
    exact ⟨fun h => congrArg Prod.fst (List.inj_on_of_nodup_map hdistinct.shorts hp hq h),
      fun h => congrArg Prod.snd (List.inj_on_of_nodup_map hdistinct.names hp hq h)⟩
  refine ⟨hcalls, fun p hp q hq => ?_, fun p hp => ?_⟩
  · rcases hcalls.answer p hp with ⟨hp, hself⟩ | ⟨hp, hgiven⟩ <;>
      rcases hcalls.answer q hq with ⟨hq, hself'⟩ | ⟨hq, hgiven'⟩
    · rw [hself, hself']
    · exact ⟨fun h => absurd ((hself.symm.trans h) ▸ hp) (hdistinct.fresh q hgiven').not_preserved,
        fun h => absurd (h ▸ hp) hq⟩
    · exact ⟨fun h => absurd ((h.trans hself').symm ▸ hq) (hdistinct.fresh p hgiven).not_preserved,
        fun h => absurd (h ▸ hq) hp⟩
    · exact hinj p hgiven q hgiven'
  · rcases hcalls.answer p hp with ⟨hp, hself⟩ | ⟨hp, hgiven⟩
    · exact ⟨fun _ => hself, fun h => absurd hp h⟩
    · exact ⟨fun h => absurd h hp, fun _ => hdistinct.fresh p hgiven⟩

/-- Names that keep their spelling, one name that is asked for twice, and enough others for a short
name of two letters. -/
def nameSample : List Bytes :=
  [Bytes.ofText "_draw", [95, 0], Bytes.ofText "end"] ++ (range 27).map fun n => [95, n.toUInt8]

theorem answers_never_clash_sample :
    (asked {} nameSample).next ≤ 2 ^ 53 ∧
      (answers {} nameSample).getLast? = some ([95, 26], Bytes.ofText "ba") ∧
      ∀ p ∈ answers {} nameSample, ∀ q ∈ answers {} nameSample, p.2 = q.2 ↔ p.1 = q.1 := by
  have h : (asked {} nameSample).next ≤ 2 ^ 53 ∧
      (answers {} nameSample).getLast? = some ([95, 26], Bytes.ofText "ba") := by decide +kernel
  exact ⟨h.1, h.2, (answers_never_clash nameSample h.1).2.1⟩

end Table

end Lua.ShortName

end Cartridge
