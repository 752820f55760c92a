import Cartridge.Proofs.Packed.Plan
import Cartridge.Proofs.Text.Cut

/-!
# Unpacking undoes packing

Packed text is the plan of the text in bytes.  The plan makes the text and reading the bytes of a
plan carries it out, so what comes out is the text, up to what is done to the text's ends: zeros at
either end are lost, and so is the line for the sixty-frame update.
-/

namespace Cartridge.Packed

variable {mark text : Bytes} {n : Nat} {ops : List Op}

/-! ### The ends of the text -/

theorem trimByte_zero (hfirst : text.head? ≠ some 0) (hlast : text.getLast? ≠ some 0) :
    text.trimByte 0 = text := by
  have hstart : text.dropWhile (· == 0) = text := by
    cases text with
    | nil => rfl
    | cons c text => simp_all
  have hstop : text.reverse.dropWhile (· == 0) = text.reverse := by
    rw [List.getLast?_eq_head?_reverse] at hlast
    cases h : text.reverse with
    | nil => rfl
    | cons c rest => simp_all
  rw [Bytes.trimByte, hstart, hstop, List.reverse_reverse]

theorem dropEnd_of_not_suffix {line : Bytes} (h : ¬line <:+ text) : dropEnd line text = .ok text := by
  rw [dropEnd, if_neg]
  rwa [List.isSuffixOf_iff_suffix]

theorem not_suffix_of_not_smooth (h : ¬smoothUpdate <:+: text) :
    ¬earlyFallback <:+ text ∧ ¬fallback <:+ text := by
  have hearly : smoothUpdate <:+: earlyFallback := by decide +kernel
  have hlate : smoothUpdate <:+: fallback := by decide +kernel
  exact ⟨fun hs => h (hearly.trans hs.isInfix), fun hs => h (hlate.trans hs.isInfix)⟩

theorem withFallback_of_not_smooth (h : ¬smoothUpdate <:+: text) : withFallback text = text := by
  have hholds : Bytes.holds smoothUpdate text = false := by
    rw [Bool.eq_false_iff, ne_eq, Bytes.holds_iff]
    exact h
  rw [withFallback, hholds]
  rfl

/-! ### The header -/

def lengthBytes (n : Nat) : Bytes := [(n / 256).toUInt8, (n % 256).toUInt8]

theorem length_of_lengthBytes (h : n ≤ 65535) :
    ((n / 256).toUInt8).toNat * 256 + ((n % 256).toUInt8).toNat = n := by
  rw [Nat.toUInt8_eq, UInt8.toNat_ofNat', Nat.toUInt8_eq, UInt8.toNat_ofNat']
  omega

def framed (mark : Bytes) (n : Nat) (ops : List Op) : Bytes :=
  mark ++ lengthBytes n ++ [0, 0] ++ ops.flatMap Op.encode

/-- **What a header and operations hold**, whatever stands behind the operations: the text that the
operations make up to the length that the header gives, less what is done to its end. -/
theorem unpack_framed (hmark : mark.length = 4)
    (hfit : AllFit [] ops) (hlength : n ≤ 65535) (hn : n ≤ (expand [] ops).length) (tail : Bytes) :
    unpack (framed mark n ops ++ tail)
      = (do
          let text ← dropEnd earlyFallback ((expand [] (upTo n [] ops)).trimByte 0)
          let text ← dropEnd fallback text
          return { length := n
                   text := text
                   packedSize := some (8 + ((upTo n [] ops).flatMap Op.encode).length) }) := by
  have hdrop : (framed mark n ops ++ tail).drop 4
      = (n / 256).toUInt8 :: (n % 256).toUInt8 :: 0 :: 0 :: (ops.flatMap Op.encode ++ tail) := by
    simp only [framed, List.append_assoc]
    rw [List.drop_left' hmark]
    rfl
  obtain ⟨left, hleft, hrun⟩ := run_flatMap_encode hfit hn tail
  have hcount : (ops.flatMap Op.encode ++ tail).length - left.length
      = ((upTo n [] ops).flatMap Op.encode).length := by omega
  have hstart : ({ left := n } : Tape) = Tape.holding [] n := rfl
  unfold unpack
  rw [hdrop]
  simp only [List.take_succ_cons, List.take_zero, if_true, length_of_lengthBytes hlength,
    List.drop_succ_cons, List.drop_zero, hstart, hrun, bind, Except.bind,
    Tape.contents_holding (le_length_expand_upTo hn), hcount]

/-- Operations that make a text as long as the header says, and no line that its end would lose,
hold that text. -/
theorem unpack_operations (hmark : mark.length = 4)
    (hfit : AllFit [] ops) (hlength : (expand [] ops).length ≤ 65535)
    (hfirst : (expand [] ops).head? ≠ some 0) (hlast : (expand [] ops).getLast? ≠ some 0)
    (hearly : ¬earlyFallback <:+ expand [] ops) (hlate : ¬fallback <:+ expand [] ops) (tail : Bytes) :
    unpack (framed mark (expand [] ops).length ops ++ tail)
      = .ok { length := (expand [] ops).length
              text := expand [] ops
              packedSize := some (8 + (ops.flatMap Op.encode).length) } := by
  have hall : upTo (expand [] ops).length [] ops = ops := by
    simpa using upTo_append hfit []
  rw [unpack_framed hmark hfit hlength (Nat.le_refl _), hall]
  simp only [bind, Except.bind, trimByte_zero hfirst hlast, dropEnd_of_not_suffix hearly,
    dropEnd_of_not_suffix hlate]
  rfl

/-- **Any operations that make a text are read as that text**, whatever stands behind their bytes.
The tape has as many places as the header says from the first operation to the last, and after each
of them it holds what the operations up to there make. -/
theorem unpack_stream {ops : List Op} {text mark : Bytes} (hmark : mark.length = 4)
    (hfit : AllFit [] ops) (htext : expand [] ops = text) (hlength : text.length ≤ 65535)
    (hfirst : text.head? ≠ some 0) (hlast : text.getLast? ≠ some 0)
    (hearly : ¬earlyFallback <:+ text) (hlate : ¬fallback <:+ text) (tail : Bytes) :
    unpack (mark ++ lengthBytes text.length ++ [0, 0] ++ ops.flatMap Op.encode ++ tail)
        = .ok { length := text.length
                text := text
                packedSize := some (8 + (ops.flatMap Op.encode).length) } ∧
      ∀ front back, ops = front ++ back →
        (Tape.holding (expand [] front) text.length).size = text.length ∧
        run text.length { left := text.length } (ops.flatMap Op.encode ++ tail)
          = run text.length (Tape.holding (expand [] front) text.length)
              (back.flatMap Op.encode ++ tail) := by
  subst htext
  refine ⟨unpack_operations hmark hfit hlength hfirst hlast hearly hlate tail, ?_⟩
  rintro front back rfl
  have hle : (expand [] front).length ≤ (expand [] (front ++ back)).length := by
    rw [expand_append]
    exact length_le_length_expand _ _
  exact ⟨Tape.size_holding hle, run_front hfit rfl tail⟩

/-- One text by two lists of operations: with a copy, and with two bytes that have a code but are
written in full. -/
theorem unpack_stream_twice :
    unpack ([58, 99, 58, 0] ++ lengthBytes 5 ++ [0, 0] ++
          [Op.char 13, .char 14, .copy 2 2, .escaped 65].flatMap Op.encode ++ [61, 7])
        = .ok { length := 5, text := Bytes.ofText "ababA", packedSize := some 14 } ∧
      unpack ([0, 0, 0, 0] ++ lengthBytes 5 ++ [0, 0] ++
          [Op.escaped 97, .char 14, .char 13, .escaped 98, .escaped 65].flatMap Op.encode ++ [])
        = .ok { length := 5, text := Bytes.ofText "ababA", packedSize := some 16 } :=
  ⟨(@unpack_stream _ (Bytes.ofText "ababA") _ rfl (by simp [AllFit, Op.Fits, Op.apply])
      (by decide) (by decide) (by decide) (by decide) (by decide) (by decide) _).1,
    (@unpack_stream _ (Bytes.ofText "ababA") _ rfl (by simp [AllFit, Op.Fits])
      (by decide) (by decide) (by decide) (by decide) (by decide) (by decide) _).1⟩

/-- **Unpacking undoes packing.**  A text of at most 65535 bytes that does not speak of the
sixty-frame update and has no zero at either end comes out of its packed form again, whatever stands
behind that, and it is known how many bytes the packed form takes. -/
theorem unpack_pack {text : Bytes} (hlength : text.length ≤ 65535)
    (hsmooth : ¬Bytes.ofText "_update60" <:+: text) (hfirst : text.head? ≠ some 0)
    (hlast : text.getLast? ≠ some 0) (tail : Bytes) :
    unpack (Bytes.ofText ":c:" ++ [0] ++ lengthBytes text.length ++ [0, 0] ++ pack text ++ tail)
      = .ok { length := text.length, text := text,
              packedSize := some (8 + (pack text).length) } := by
  have hplan := expand_plan text
  have hmark : (Bytes.ofText ":c:" ++ [0]).length = 4 := rfl
  obtain ⟨hearly, hlate⟩ := not_suffix_of_not_smooth hsmooth
  have hfit : AllFit [] (plan text) := allFit_plan text
  rw [← hplan] at hlength hfirst hlast hearly hlate
  have h := unpack_operations hmark hfit hlength hfirst hlast hearly hlate tail
  rw [hplan] at h
  rw [pack, withFallback_of_not_smooth hsmooth]
  exact h

/-- A text with a block to copy and bytes that have no code. -/
theorem unpack_pack_greeting :
    unpack (Bytes.ofText ":c:" ++ [0] ++ lengthBytes (Bytes.ofText "hello hello HELLO").length ++
        [0, 0] ++ pack (Bytes.ofText "hello hello HELLO") ++ [0, 61, 7])
      = .ok { length := (Bytes.ofText "hello hello HELLO").length
              text := Bytes.ofText "hello hello HELLO"
              packedSize := some (8 + (pack (Bytes.ofText "hello hello HELLO")).length) } :=
  unpack_pack (by decide) (by decide +kernel) (by decide) (by decide) [0, 61, 7]

end Cartridge.Packed
