import Cartridge.Proofs.Flip.HalfTurn
import Cartridge.Proofs.Memory.SoundRegisters

/-!
# Sounds played backwards, and carts turned twice

A pattern is reversed note by note, and the bounds of its loop are counted from the other end.  These stay
bounds of a loop, so that the pattern can be reversed again.  The last pattern stays as it is.
-/

namespace Cartridge.Flip

open Sounds (Register Call)

variable {r : Region} {id k : Nat}

def LoopsFit (r : Region) : Prop :=
  ∀ id : Nat, id < 64 → ∀ s, Sounds.settings r id = .ok s → s.loopStart.toNat ≤ 63 ∧ s.loopEnd.toNat ≤ 63

theorem loopsFit_iff (hr : r.size = 4352) :
    LoopsFit r ↔ ∀ id < 64, ((Register.setting id .loopStart).value r).toNat ≤ 63 ∧
      ((Register.setting id .loopEnd).value r).toNat ≤ 63 := by
  refine forall₂_congr fun id hid => ?_
  rw [Sounds.settings_eq (by omega)]
  constructor
  · intro h
    exact h _ rfl
  · rintro h s hs
    cases hs
    exact h

theorem loopsFit_of_le (hr : r.size = 4352) (h : ∀ k, (Sounds.byteAt r k).toNat ≤ 63) : LoopsFit r :=
  (loopsFit_iff hr).mpr fun _ _ => ⟨h _, h _⟩

/-! ### One pattern -/

def stored (id k : Nat) (notes : List Note) : Register → Option UInt8
  | .note id' n p => if id' = id ∧ k ≤ n then notes[n - k]?.map p.ofNote else none
  | .setting _ _ => none

theorem stored_cons (a : Note) (notes : List Note) (g : Register) :
    stored id k (a :: notes) g = (stored id (k + 1) notes g).or (stored id k [a] g) := by
  cases g with
  | setting id' p => rfl
  | note id' n p =>
    simp only [stored]
    by_cases hid : id' = id ∧ k ≤ n
    · rw [if_pos hid, if_pos hid]
      by_cases hn : k + 1 ≤ n
      · have hindex : n - k = n - (k + 1) + 1 := by omega
        rw [if_pos ⟨hid.1, hn⟩, hindex]
        simp
      · have hindex : n - k = 0 := by omega
        rw [if_neg (by omega), hindex]
        rfl
    · rw [if_neg hid, if_neg hid, if_neg (by omega)]
      rfl

theorem exists_storeNotes (hr : r.size = 4352) (hid : id < 64) {notes : List Note}
    (hk : k + notes.length ≤ 32)
    (hnotes : ∀ a ∈ notes, ∀ p : NotePart, (p.ofNote a).toNat ≤ p.most.toNat) :
    ∃ r', (storeNotes id k notes).run r = .ok () r' ∧ r'.size = 4352 ∧
      ∀ g : Register, g.InRange → g.value r' = (stored id k notes g).getD (g.value r) := by
  induction notes generalizing k r with
  | nil =>
    refine ⟨r, rfl, hr, fun g _ => ?_⟩
    cases g <;> simp [stored]
  | cons a notes ih =>
    rw [List.length_cons] at hk
    have hgiven : ∀ p : NotePart, p.given (allOf a) = some ((p.ofNote a).toNat : Int) := by
      intro p
      cases p <;> rfl
    have hfits : (Call.note id k (allOf a)).Fits := by
      refine ⟨⟨hid, by omega⟩, fun p v hv => ?_⟩
      rw [hgiven, Option.mem_some_iff] at hv
      have hle := hnotes a List.mem_cons_self p
      omega
    obtain ⟨r₁, hrun₁, hr₁, hvalue₁⟩ := Sounds.exists_setNote hr hfits
    obtain ⟨r₂, hrun₂, hr₂, hvalue₂⟩ :=
      ih hr₁ (show k + 1 + notes.length ≤ 32 by omega) fun b hb => hnotes b (List.mem_cons_of_mem a hb)
    refine ⟨r₂, run_seq hrun₁ hrun₂, hr₂, fun g hg => ?_⟩
    have hone : g.value r₁ = (stored id k [a] g).getD (g.value r) := by
      refine Sounds.byte_inj ((hvalue₁ g hg).trans ?_)
      cases g with
      | setting id' p => rfl
      | note id' n p =>
        rw [Call.given, hgiven, stored]
        by_cases hsame : id' = id ∧ n = k
        · rw [if_pos hsame, if_pos (by omega), hsame.2, Nat.sub_self]
          rfl
        · rw [if_neg hsame]
          split
          · rw [List.getElem?_eq_none (by rw [List.length_singleton]; omega)]
            rfl
          · rfl
    rw [hvalue₂ g hg, hone, stored_cons a notes]
    cases stored id (k + 1) notes g <;> rfl

theorem exists_setLoop (hr : r.size = 4352) (hloops : LoopsFit r) (hid : id < 64) (b : Prop) [Decidable b]
    (change : SettingsChange) (hchange : ∀ p : Setting, ∀ v ∈ p.given change, 0 ≤ v ∧ v ≤ 63) :
    ∃ r', (if b then Sounds.setSettings id change else pure ()).run r = .ok () r' ∧ r'.size = 4352 ∧
      LoopsFit r' ∧ ∀ id' < 64, ∀ n < 32, ∀ p : NotePart,
        (Register.note id' n p).value r' = (Register.note id' n p).value r := by
  by_cases hb : b
  · have hfits : (Call.settings id change).Fits :=
      ⟨hid, fun p v hv => ⟨(hchange p v hv).1, Int.le_trans (hchange p v hv).2 (by decide)⟩⟩
    obtain ⟨r', hrun, hr', hvalue⟩ := Sounds.exists_setSettings hr hfits
    have hkept : ∀ id' < 64, ∀ p : Setting, ((Register.setting id' p).value r).toNat ≤ 63 →
        ((Register.setting id' p).value r').toNat ≤ 63 := by
      intro id' hid' p hle
      have hsetting := hvalue (.setting id' p) hid'
      rw [Call.given] at hsetting
      split at hsetting
      · cases hgiven : p.given change with
        | none =>
          rw [hgiven, Option.getD_none] at hsetting
          omega
        | some v =>
          have hv := hchange p v hgiven
          rw [hgiven, Option.getD_some] at hsetting
          omega
      · rw [Option.getD_none] at hsetting
        omega
    rw [loopsFit_iff hr] at hloops
    refine ⟨r', by rw [if_pos hb, hrun], hr', (loopsFit_iff hr').mpr fun id' hid' => ?_,
      fun id' hid' n hn p => Sounds.byte_inj (hvalue (.note id' n p) ⟨hid', hn⟩)⟩
    exact ⟨hkept id' hid' _ (hloops id' hid').1, hkept id' hid' _ (hloops id' hid').2⟩
  · exact ⟨r, by rw [if_neg hb]; rfl, hr, hloops, fun _ _ _ _ _ => rfl⟩

theorem run_if_seq {b : Prop} [Decidable b] {e e' : Region.Edit Unit} {r₁ r₂ : Region}
    (h : (if b then e else pure ()).run r = .ok () r₁) (h' : e'.run r₁ = .ok () r₂) :
    (if b then (do e; e') else e').run r = .ok () r₂ := by
  by_cases hb : b
  · rw [if_pos hb] at h ⊢
    exact run_seq h h'
  · rw [if_neg hb] at h ⊢
    cases h
    exact h'

theorem exists_pattern (hr : r.size = 4352) (hloops : LoopsFit r) (hid : id < 64) :
    ∃ r', (pattern id).run r = .ok () r' ∧ r'.size = 4352 ∧ LoopsFit r' ∧
      ∀ id' < 64, ∀ n < 32, ∀ p : NotePart, (Register.note id' n p).value r' =
        (Register.note id' (if id' = id then 31 - n else n) p).value r := by
  have hnotes := Sounds.notes_eq (show 68 * id + 67 < r.size by omega)
  have hlength : 0 + ((List.range 32).map fun n => (Sounds.noteBytesAt r id n).note).reverse.length ≤ 32 := by
    simp
  obtain ⟨r₁, hrun₁, hr₁, hvalue₁⟩ := exists_storeNotes hr hid hlength fun a ha => by
    simp only [List.mem_reverse, List.mem_map] at ha
    obtain ⟨n, -, rfl⟩ := ha
    exact fun p => p.ofNote_le _
  have hloops₁ : LoopsFit r₁ := by
    rw [loopsFit_iff hr] at hloops
    refine (loopsFit_iff hr₁).mpr fun id' hid' => ?_
    rw [hvalue₁ (.setting id' .loopStart) hid', hvalue₁ (.setting id' .loopEnd) hid']
    exact hloops id' hid'
  obtain ⟨s, hsettings⟩ : ∃ s, Sounds.settings r₁ id = .ok s := ⟨_, Sounds.settings_eq (by omega)⟩
  have hbounds := hloops₁ id hid s hsettings
  obtain ⟨r₂, hrun₂, hr₂, hloops₂, hvalue₂⟩ := exists_setLoop hr₁ hloops₁ hid (s.loopStart ≠ 0)
    { loopStart := some (63 - s.loopEnd.toNat) } fun p v hv => by
      cases p <;> cases hv
      omega
  obtain ⟨r₃, hrun₃, hr₃, hloops₃, hvalue₃⟩ := exists_setLoop hr₂ hloops₂ hid (s.loopEnd ≠ 0)
    { loopEnd := some (63 - s.loopStart.toNat) } fun p v hv => by
      cases p <;> cases hv
      omega
  refine ⟨r₃, ?_, hr₃, hloops₃, fun id' hid' n hn p => ?_⟩
  · refine (run_look (f := fun r => (List.range 32).mapM fun (n : Nat) => Sounds.note r id n) hnotes _).trans ?_
    refine run_seq hrun₁ ((run_look (f := fun r => Sounds.settings r id) hsettings _).trans ?_)
    exact run_if_seq hrun₂ hrun₃
  · rw [hvalue₃ id' hid' n hn, hvalue₂ id' hid' n hn, hvalue₁ (.note id' n p) ⟨hid', hn⟩, stored]
    by_cases hsame : id' = id
    · subst hsame
      rw [if_pos ⟨rfl, Nat.zero_le n⟩, if_pos rfl, getElem?_reverse_range, Nat.sub_zero, if_pos hn]
      rfl
    · rw [if_neg (by omega), if_neg hsame]
      rfl

/-! ### All patterns, and the whole cart -/

theorem exists_forM_pattern (hr : r.size = 4352) (hloops : LoopsFit r) {m : Nat} (hm : m ≤ 64) :
    ∃ r', ((List.range m).forM pattern).run r = .ok () r' ∧ r'.size = 4352 ∧ LoopsFit r' ∧
      ∀ id < 64, ∀ n < 32, ∀ p : NotePart, (Register.note id n p).value r' =
        (Register.note id (if id < m then 31 - n else n) p).value r := by
  induction m with
  | zero => exact ⟨r, rfl, hr, hloops, fun id _ n _ p => by rw [if_neg (Nat.not_lt_zero id)]⟩
  | succ m ih =>
    obtain ⟨r₁, hrun₁, hr₁, hloops₁, hvalue₁⟩ := ih (by omega)
    obtain ⟨r₂, hrun₂, hr₂, hloops₂, hvalue₂⟩ := exists_pattern hr₁ hloops₁ (show m < 64 by omega)
    refine ⟨r₂, run_forM_range_succ hrun₁ hrun₂, hr₂, hloops₂, fun id hid n hn p => ?_⟩
    rw [hvalue₂ id hid n hn]
    by_cases hsame : id = m
    · rw [if_pos hsame, if_pos (by omega), hvalue₁ id hid _ (by omega), if_neg (by omega)]
    · rw [if_neg hsame, hvalue₁ id hid n hn]
      simp only [show id < m + 1 ↔ id < m by omega]

theorem exists_onSounds {c : Cart} (hsounds : c.sounds.size = 4352) (hloops : LoopsFit c.sounds) (b : Bool) :
    ∃ r, (if b then onSounds sounds else pure ()).run c = .ok () { c with sounds := r } ∧ r.size = 4352 ∧
      LoopsFit r ∧ ∀ id < 64, ∀ n < 32, ∀ p : NotePart, (Register.note id n p).value r =
        (Register.note id (if b ∧ id < 63 then 31 - n else n) p).value c.sounds := by
  cases b with
  | false => exact ⟨c.sounds, rfl, hsounds, hloops, fun id _ n _ p => by simp⟩
  | true =>
    obtain ⟨r, hrun, hr, hloops', hvalue⟩ := exists_forM_pattern hsounds hloops (show 63 ≤ 64 by decide)
    refine ⟨r, ?_, hr, hloops', fun id hid n hn p => by simpa using hvalue id hid n hn p⟩
    rw [if_pos rfl, EStateM.run, onSounds, sounds, hrun]

theorem exists_cart {c : Cart} (hsprites : c.sprites.size = 8192) (htiles : c.tiles.size = 4096)
    (hsounds : c.sounds.size = 4352) (hloops : LoopsFit c.sounds) (o : Options) :
    ∃ c', (cart o).run c = .ok () c' ∧ Pictures o c c' ∧ c'.sounds.size = 4352 ∧ LoopsFit c'.sounds ∧
      ∀ id < 64, ∀ n < 32, ∀ p : NotePart, (Register.note id n p).value c'.sounds =
        (Register.note id (if o.sounds ∧ id < 63 then 31 - n else n) p).value c.sounds := by
  obtain ⟨c₁, hrun₁, hpictures, hsame⟩ := exists_pictures hsprites htiles o
  rw [← hsame] at hsounds hloops ⊢
  obtain ⟨r, hrun, hr, hloops', hvalue⟩ := exists_onSounds hsounds hloops o.sounds
  refine ⟨{ c₁ with sounds := r }, ?_, ⟨hpictures.1, hpictures.2, hpictures.3, hpictures.4⟩, hr, hloops', hvalue⟩
  have hcart : cart o = (do
      (do onSprites (sprites o); onTileMap (tiles o))
      if o.sounds then onSounds sounds else pure ()) := (bind_assoc _ _ _).symm
  rw [hcart]
  exact run_seq hrun₁ hrun

theorem exists_note {r' : Region} {m n : Nat} (hr : r.size = 4352) (hr' : r'.size = 4352) (hid : id < 64)
    (hm : m < 32) (hn : n < 32)
    (h : ∀ p : NotePart, (Register.note id n p).value r' = (Register.note id m p).value r) :
    ∃ a, Sounds.note r id m = .ok a ∧ Sounds.note r' id n = .ok a := by
  refine ⟨_, Sounds.note_eq (by omega), ?_⟩
  rw [Sounds.note_eq (by omega)]
  exact congrArg Except.ok (NotePart.eq_of_parts h)

/-- **A cart that is turned twice is as before**: its sprites, its map and its notes. -/
theorem cart_twice {c : Cart} (hsprites : c.sprites.size = 8192) (htiles : c.tiles.size = 4096)
    (hsounds : c.sounds.size = 4352) (hloops : LoopsFit c.sounds) (o : Options) :
    ∃ c' c'', (cart o).run c = .ok () c' ∧ (cart o).run c' = .ok () c'' ∧
      c''.sprites = c.sprites ∧ c''.tiles = c.tiles ∧
      ∀ id : Nat, id < 64 → ∀ n : Nat, n < 32 → ∃ a, Sounds.note c.sounds id n = .ok a ∧
        Sounds.note c''.sounds id n = .ok a := by
  obtain ⟨c', hrun, hpictures, hsounds', hloops', hvalue⟩ := exists_cart hsprites htiles hsounds hloops o
  obtain ⟨c'', hrun', hpictures', hsounds'', -, hvalue'⟩ :=
    exists_cart hpictures.size_sprites hpictures.size_tiles hsounds' hloops' o
  obtain ⟨hsprites', htiles'⟩ := hpictures.twice hsprites htiles hpictures'
  refine ⟨c', c'', hrun, hrun', hsprites', htiles', fun id hid n hn =>
    exists_note hsounds hsounds'' hid hn hn fun p => ?_⟩
  have hback := (hvalue' id hid n hn p).trans (hvalue id hid _ (by split <;> omega) p)
  by_cases hturned : o.sounds ∧ id < 63
  · rw [if_pos hturned, if_pos hturned, show 31 - (31 - n) = n by omega] at hback
    exact hback
  · rw [if_neg hturned, if_neg hturned] at hback
    exact hback

/-- A sheet of stripes, which is not the same when it is turned once. -/
theorem cart_twice_stripes :
    let c := { Cart.blank 8 with sprites := Array.replicate 8192 7, sounds := Array.replicate 4352 0 }
    (c.sprites.size = 8192 ∧ c.tiles.size = 4096 ∧ c.sounds.size = 4352 ∧ LoopsFit c.sounds) ∧
      ∃ c' c'', (cart { sounds := true }).run c = .ok () c' ∧ (cart { sounds := true }).run c' = .ok () c'' ∧
        c''.sprites = c.sprites := by
  intro c
  have hsprites : c.sprites.size = 8192 := Array.size_replicate
  have htiles : c.tiles.size = 4096 := by
    show TileMap.blank.size = 4096
    exact Array.size_replicate
  have hsounds : c.sounds.size = 4352 := Array.size_replicate
  have hloops : LoopsFit c.sounds := by
    refine loopsFit_of_le hsounds fun k => ?_
    simp only [Sounds.byteAt, c, Array.getD_eq_getD_getElem?, Array.getElem?_replicate]
    split <;> decide
  obtain ⟨c', c'', hrun, hrun', hback, -⟩ := cart_twice hsprites htiles hsounds hloops { sounds := true }
  exact ⟨⟨hsprites, htiles, hsounds, hloops⟩, c', c'', hrun, hrun', hback⟩

end Cartridge.Flip
