import Cartridge.Proofs.Packed.CodeRegion
import Cartridge.Proofs.Packed.Suffixes

/-!
# The line for the sixty-frame update

A text that speaks of the sixty-frame update is packed with a line added to its end, but the header
in front of the packed text gives the length of the text alone.  Reading goes on to the end of the
operation that reaches this length.  It finds the text if an operation of the plan ends there; a
copy that goes on into the line that was added is read to its end, and leaves bytes of the line
behind the text.  A text that ends with such a line itself loses it.
-/

namespace Cartridge.Packed

variable {ops : List Op} {text text' : Bytes}

/-! ### Operations that stop at a text -/

def StopsAt (text : Bytes) (ops : List Op) : Prop := ∃ first, first <+: ops ∧ expand [] first = text

theorem prefix_expand (text : Bytes) (ops : List Op) : text <+: expand text ops := by
  induction ops generalizing text with
  | nil => exact List.prefix_rfl
  | cons op ops ih =>
    have hop : text <+: op.apply text := by cases op <;> exact List.prefix_append _ _
    exact hop.trans (ih (op.apply text))

theorem AllFit.of_append {ops' : List Op} (h : AllFit text (ops ++ ops')) : AllFit text ops := by
  induction ops generalizing text with
  | nil => trivial
  | cons op ops ih => exact ⟨h.1, ih h.2⟩

theorem upTo_prefix (goal : Nat) (text : Bytes) (ops : List Op) : upTo goal text ops <+: ops := by
  induction ops generalizing text with
  | nil => exact List.prefix_rfl
  | cons op ops ih =>
    rw [upTo]
    split
    · exact List.nil_prefix
    · exact List.cons_prefix_cons.mpr ⟨rfl, ih _⟩

theorem stopsAt_iff (hfit : AllFit [] ops) :
    StopsAt text ops ↔ expand [] (upTo text.length [] ops) = text := by
  constructor
  · rintro ⟨first, ⟨rest, rfl⟩, rfl⟩
    rw [upTo_append hfit.of_append]
  · intro h
    exact ⟨_, upTo_prefix _ _ _, h⟩

/-! ### What is made beyond the goal -/

theorem length_apply_le {op : Op} (hfit : op.Fits text.length) :
    (op.apply text).length ≤ text.length + 17 := by
  cases op with
  | char c => simp [Op.apply]
  | escaped b => simp [Op.apply]
  | copy offset length =>
    obtain ⟨h2, h17, hlo, hon, ho⟩ := hfit
    simp only [Op.apply, List.length_append, List.length_take, List.length_drop]
    omega

theorem length_expand_upTo_le {goal : Nat} (hfit : AllFit text ops) (htext : text.length ≤ goal + 16) :
    (expand text (upTo goal text ops)).length ≤ goal + 16 := by
  induction ops generalizing text with
  | nil => exact htext
  | cons op ops ih =>
    obtain ⟨hop, hops⟩ := hfit
    by_cases hle : goal ≤ text.length
    · rwa [upTo_of_le hle, expand_nil]
    · have hadd := length_apply_le hop
      rw [upTo_of_lt (by omega), expand_cons]
      exact ih hops (by omega)

def reached (text : Bytes) : Bytes := expand [] (upTo text.length [] (plan (withFallback text)))

theorem withFallback_eq_append (text : Bytes) :
    ∃ added, withFallback text = text ++ added ∧ 0 ∉ added := by
  have hline : (0 : UInt8) ∉ fallback := by decide
  unfold withFallback
  split
  · split
    · exact ⟨fallback, rfl, hline⟩
    · exact ⟨fallback, rfl, hline⟩
    · exact ⟨[Bytes.newline] ++ fallback, List.append_assoc _ _ _, by
        simpa using ⟨by decide, hline⟩⟩
  · exact ⟨[], (List.append_nil _).symm, List.not_mem_nil⟩

theorem exists_reached (text : Bytes) :
    ∃ more, reached text = text ++ more ∧ more.length ≤ 16 ∧ 0 ∉ more := by
  obtain ⟨added, hadded, hzero⟩ := withFallback_eq_append text
  have hplan := expand_plan (withFallback text)
  have hfit := allFit_plan (withFallback text)
  have hlong : text.length ≤ (reached text).length := by
    apply le_length_expand_upTo
    rw [hplan, hadded, List.length_append]
    omega
  have hshort : (reached text).length ≤ text.length + 16 :=
    length_expand_upTo_le hfit (Nat.zero_le _)
  -- both the text and what is made are at the front of the text with the line
  have hreached : reached text <+: text ++ added := by
    obtain ⟨rest, hrest⟩ := upTo_prefix text.length [] (plan (withFallback text))
    rw [← hadded, ← hplan, ← hrest, expand_append]
    exact prefix_expand _ _
  obtain ⟨more, hmore⟩ := List.prefix_of_prefix_length_le (List.prefix_append text added) hreached
    hlong
  rw [← hmore] at hshort hreached
  refine ⟨more, hmore.symm, ?_, ?_⟩
  · rw [List.length_append] at hshort
    omega
  · intro hmem
    exact hzero (((List.prefix_append_right_inj text).mp hreached).subset hmem)

theorem trimByte_reached (hfirst : text.head? ≠ some 0) (hlast : text.getLast? ≠ some 0) :
    (reached text).trimByte 0 = reached text := by
  obtain ⟨more, hmore, -, hzero⟩ := exists_reached text
  rw [hmore]
  apply trimByte_zero
  · rw [List.head?_append]
    cases text with
    | nil => intro h; exact hzero (List.mem_of_head? h)
    | cons c text => exact hfirst
  · rw [List.getLast?_append]
    cases h : more.getLast? with
    | none => exact hlast
    | some c =>
      rintro ⟨rfl⟩
      exact hzero (List.mem_of_getLast? h)

/-! ### The end of the text -/

theorem dropEnd_eq_ok {line : Bytes} (h : dropEnd line text = .ok text') :
    text' = text ∧ ¬line <:+ text ∨ text'.length + line.length ≤ text.length := by
  by_cases hline : line <:+ text
  · have hle := hline.length_le
    rw [dropEnd, if_pos (List.isSuffixOf_iff_suffix.mpr hline)] at h
    right
    simp only at h
    split at h
    · cases h
    · cases h
      split
      · rw [List.length_dropLast, List.length_take]
        omega
      · rw [List.length_take]
        omega
  · rw [dropEnd_of_not_suffix hline] at h
    cases h
    exact .inl ⟨rfl, hline⟩

theorem length_fallbacks : earlyFallback.length = 56 ∧ fallback.length = 73 := by decide

theorem dropEnd_fallbacks (hearly : ¬earlyFallback <:+ text) (hlate : ¬fallback <:+ text) :
    (dropEnd earlyFallback text >>= dropEnd fallback) = .ok text := by
  simp only [dropEnd_of_not_suffix hearly, dropEnd_of_not_suffix hlate, bind, Except.bind]

/-- A text with at most 16 more bytes comes out of the cuts at its end as long as it was just if
there are no more bytes and there is nothing to cut: a line has more bytes than 16. -/
theorem dropEnd_fallbacks_iff {more : Bytes} (hmore : more.length ≤ 16)
    (hlength : text'.length = text.length) :
    (dropEnd earlyFallback (text ++ more) >>= dropEnd fallback) = .ok text' ↔
      more = [] ∧ text' = text ∧ ¬earlyFallback <:+ text ∧ ¬fallback <:+ text := by
  constructor
  · intro h
    cases hcut : dropEnd earlyFallback (text ++ more) with
    | error e => rw [hcut] at h; cases h
    | ok t =>
      simp only [hcut, bind, Except.bind] at h
      have hlen : (text ++ more).length = text.length + more.length := List.length_append
      have hcuts := dropEnd_eq_ok hcut
      have hcuts' := dropEnd_eq_ok h
      rw [length_fallbacks.1] at hcuts
      rw [length_fallbacks.2] at hcuts'
      obtain ⟨rfl, he⟩ | ht := hcuts
      · obtain ⟨rfl, hl⟩ | ht' := hcuts'
        · obtain rfl : more = [] := List.eq_nil_of_length_eq_zero (by omega)
          rw [List.append_nil] at he hl ⊢
          exact ⟨rfl, rfl, he, hl⟩
        · omega
      · obtain ⟨rfl, -⟩ | ht' := hcuts' <;> omega
  · rintro ⟨rfl, rfl, he, hl⟩
    rw [List.append_nil]
    exact dropEnd_fallbacks he hl

end Cartridge.Packed

namespace Cartridge.CodeRegion

open Packed

theorem read_ofText_eq (hlength : text.length < 65536)
    (hfirst : text.head? ≠ some 0) (hlast : text.getLast? ≠ some 0)
    (hshorter : (pack text).length < text.length) {version : Int} (hversion : version ≠ 0) :
    ∃ region, ofText text = .ok region ∧
      region.length = max size (8 + (pack text).length) ∧
      read version region = (do
        let text' ← dropEnd earlyFallback (reached text) >>= dropEnd fallback
        return { length := text.length
                 text := text'.map fun c => if c = 13 then 32 else c
                 packedSize := some (8 +
                   ((upTo text.length [] (plan (withFallback text))).flatMap Op.encode).length) }) := by
  have hmark : mark.length = 4 := rfl
  have hlong : text.length ≤ (expand [] (plan (withFallback text))).length := by
    obtain ⟨added, hadded, -⟩ := withFallback_eq_append text
    rw [expand_plan, hadded, List.length_append]
    omega
  refine ⟨_, ofText_eq hlength hshorter, ?_, ?_⟩
  · rw [← packed_eq_framed, List.length_append, List.length_replicate, ← pack, length_packed]
    omega
  · rw [read_of_mark hversion rfl, unpack_framed hmark (allFit_plan _) (by omega) hlong,
      ← reached, trimByte_reached hfirst hlast]
    simp only [bind_assoc, pure_bind]

/-- **When a text is read from the region as it was put in**: exactly if an operation of its plan
ends where the text ends, and the text does not end with a line for the sixty-frame update. -/
theorem read_ofText_iff_stopsAt {text : Bytes} (hlength : text.length < 65536)
    (hreturn : 13 ∉ text) (hfirst : text.head? ≠ some 0) (hlast : text.getLast? ≠ some 0)
    (hshorter : (pack text).length < text.length) (hfits : 8 + (pack text).length ≤ 0x3d00) :
    ∃ region, ofText text = .ok region ∧ region.length = 0x3d00 ∧
      ((∃ u, read 8 region = .ok u ∧ u.text = text) ↔
        StopsAt text (plan (withFallback text)) ∧ ¬earlyFallback <:+ text ∧ ¬fallback <:+ text) := by
  obtain ⟨more, hmore, hshort, -⟩ := exists_reached text
  obtain ⟨region, hregion, hsize, hread⟩ :=
    read_ofText_eq hlength hfirst hlast hshorter (by decide : (8 : Int) ≠ 0)
  have hstops : StopsAt text (plan (withFallback text)) ↔ more = [] := by
    rw [stopsAt_iff (allFit_plan _), ← reached, hmore, List.append_right_eq_self]
  rw [hmore] at hread
  refine ⟨region, hregion, ?_, ?_⟩
  · rw [hsize, size]
    omega
  · rw [hread, hstops]
    constructor
    · rintro ⟨u, hu, htext⟩
      cases hcut : dropEnd earlyFallback (text ++ more) >>= dropEnd fallback with
      | error e => rw [hcut] at hu; cases hu
      | ok t =>
        rw [hcut] at hu
        cases hu
        have hlen : t.length = text.length := by rw [← htext, List.length_map]
        obtain ⟨hnil, -, hends⟩ := (dropEnd_fallbacks_iff hshort hlen).mp hcut
        exact ⟨hnil, hends⟩
    · rintro ⟨rfl, he, hl⟩
      have hcut := (dropEnd_fallbacks_iff hshort rfl).mpr ⟨rfl, rfl, he, hl⟩
      rw [hcut]
      exact ⟨_, rfl, map_of_no_return hreturn⟩

/-- A text on one line: the line that is added starts with a line break, which no copy can give. -/
def smoothLine : Bytes :=
  Bytes.ofText "function _update60()t+=1 if(t>9)_update60() t+=1 if(t>9)_update60() end"

theorem smoothLine_packed :
    smoothLine.length = 71 ∧ (pack smoothLine).length = 69 ∧ reached smoothLine = smoothLine ∧
      13 ∉ smoothLine ∧ smoothLine.head? ≠ some 0 ∧ smoothLine.getLast? ≠ some 0 ∧
      ¬earlyFallback <:+ smoothLine ∧ ¬fallback <:+ smoothLine ∧ smoothUpdate <:+: smoothLine := by
  rw [pack, reached, plan_eq_planSuffixes]
  decide +kernel

theorem read_ofText_smoothLine :
    smoothUpdate <:+: smoothLine ∧ ∃ region, ofText smoothLine = .ok region ∧
      region.length = 0x3d00 ∧ ∃ u, read 8 region = .ok u ∧ u.text = smoothLine := by
  obtain ⟨hlength, hpack, hreached, hreturn, hfirst, hlast, hearly, hlate, hsmooth⟩ :=
    smoothLine_packed
  obtain ⟨region, hregion, hsize, hread⟩ := read_ofText_iff_stopsAt (by rw [hlength]; decide)
    hreturn hfirst hlast (by rw [hlength, hpack]; decide) (by rw [hpack]; decide)
  have hstops := (stopsAt_iff (allFit_plan (withFallback smoothLine))).mpr hreached
  exact ⟨hsmooth, region, hregion, hsize, hread.mpr ⟨hstops, hearly, hlate⟩⟩

def straddled : Bytes :=
  Bytes.ofText
    "function _update60()end\nif(_update60)_update60()\nfunction g()_update60()_update60()end"

theorem straddled_packed :
    straddled.length = 86 ∧ (pack straddled).length = 61 ∧
      reached straddled = straddled ++ Bytes.ofText "\nif" ∧ 13 ∉ straddled ++ Bytes.ofText "\nif" ∧
      straddled.head? ≠ some 0 ∧ straddled.getLast? ≠ some 0 ∧
      ¬earlyFallback <:+ straddled ++ Bytes.ofText "\nif" ∧
      ¬fallback <:+ straddled ++ Bytes.ofText "\nif" := by
  rw [pack, reached, plan_eq_planSuffixes]
  decide +kernel

/-- A copy of `end`, a line break and `if` ends beyond the text: the line break and the `if` of the
line that was added are read as part of the text. -/
theorem read_ofText_straddle :
    ∃ region u, ofText straddled = .ok region ∧ read 8 region = .ok u ∧
      u.text = straddled ++ Bytes.ofText "\nif" := by
  obtain ⟨hlength, hpack, hreached, hreturn, hfirst, hlast, hearly, hlate⟩ := straddled_packed
  obtain ⟨region, hregion, -, hread⟩ := read_ofText_eq (by rw [hlength]; decide) hfirst hlast
    (by rw [hlength, hpack]; decide) (by decide : (8 : Int) ≠ 0)
  rw [hreached, dropEnd_fallbacks hearly hlate] at hread
  exact ⟨region, _, hregion, hread, map_of_no_return hreturn⟩

end Cartridge.CodeRegion
