import Cartridge.Proofs.Lua.InStep
import Cartridge.Proofs.Lua.Resaving

/-!
# Programs whose trees reach all words

The tokens of a text are written as the grammar has them.  If the text ends in a newline and the tree
reaches all words, a phrase stands for all tokens but the gaps at the end.
-/

namespace Cartridge.Lua

variable {ls : List (Bytes × Token)} {s : Bytes} {t : Token} {toks : Array Token}

/-! ### The tokens of a text -/

theorem Lexeme.isText {w : Bytes} (h : Lexeme w t) (hstring : t.kind ≠ .string) (hcomment : t.kind ≠ .comment) :
    IsText t.kind t.data := by
  cases h with
  | comment => exact absurd rfl hcomment
  | bracket => exact absurd rfl hstring
  | quoted => exact absurd rfl hstring
  | plain _ _ _ hfirst => exact isText_of_firstMatch hfirst

theorem lower_of_mem_keywords : ∀ w ∈ keywords, Bytes.lower w = w := by
  decide

theorem labelText_eq (c : UInt8) (x : Bytes) :
    labelText c x = Bytes.ofText "::" ++
      ((labelText c x).take ((labelText c x).length - 2)).drop 2 ++ Bytes.ofText "::" := by
  have hlength : (labelText c x).length - 2 = (58 :: 58 :: c :: x).length := by simp [labelText]
  have htake : (labelText c x).take ((labelText c x).length - 2) = 58 :: 58 :: c :: x := by
    rw [hlength]
    exact List.take_left
  rw [htake]
  rfl

theorem Lexed.exists_lexeme_of_get (h : Lexed s ls) (htoks : toks.toList.map Token.unplaced = ls.map Prod.snd)
    {n : Nat} (ht : toks[n]? = some t) : ∃ w, Lexeme w t.unplaced := by
  refine h.exists_lexeme ?_
  rw [← htoks]
  exact List.mem_map_of_mem (Array.mem_toList_iff.mpr (Array.mem_of_getElem? ht))

theorem Grammar.regular_of_lexed (h : Lexed s ls) (htoks : toks.toList.map Token.unplaced = ls.map Prod.snd) :
    Grammar.Regular toks := by
  have htext : ∀ {i : Nat} {t : Token}, toks[i]? = some t → t.kind ≠ .string → t.kind ≠ .comment →
      IsText t.kind t.data := by
    intro i t ht hstring hcomment
    obtain ⟨w, hw⟩ := h.exists_lexeme_of_get htoks ht
    exact hw.isText hstring hcomment
  refine ⟨fun {i t} ht hk => ?_, fun {i t} ht hk => ?_⟩
  · have hword := htext ht (by rw [hk]; decide) (by rw [hk]; decide)
    rw [hk] at hword
    exact lower_of_mem_keywords _ hword
  · have hlabel := htext ht (by rw [hk]; decide) (by rw [hk]; decide)
    rw [hk] at hlabel
    obtain ⟨c, x, -, -, hdata⟩ := hlabel
    rw [Token.labelName, hdata]
    exact labelText_eq c x

theorem Lexeme.kind_of_getLast? {w : Bytes} (h : Lexeme w t) (hw : w.getLast? = some Bytes.newline) :
    t.kind = .newline := by
  cases h with
  | comment | bracket =>
    rw [closingBracket, ← List.append_assoc, List.getLast?_concat] at hw
    exact absurd hw (by decide)
  | quoted hmark =>
    rw [← List.cons_append, List.getLast?_concat, Option.some.injEq] at hw
    rw [hw] at hmark
    exact absurd hmark (by decide)
  | @plain k _ _ _ _ hfirst =>
    by_contra hk
    exact newline_not_mem_of_isText (isText_of_firstMatch hfirst) hk (List.mem_of_getLast? hw)

theorem Lexed.kind_of_getLast? (h : Lexed s ls) (hs : s.getLast? = some Bytes.newline) :
    ∃ t, (ls.map Prod.snd).getLast? = some t ∧ t.kind = .newline := by
  induction h with
  | nil => cases hs
  | @cons w r t ls hw hruns hr ih =>
    cases hr with
    | nil =>
      rw [List.append_nil] at hs
      exact ⟨t, rfl, hw.kind_of_getLast? hs⟩
    | cons hw' _ _ =>
      rw [List.getLast?_append_of_ne_nil _ (by simp [hw'.ne_nil])] at hs
      obtain ⟨u, hu, hkind⟩ := ih hs
      exact ⟨u, hu, hkind⟩

/-! ### Programs -/

def Program.isCovered (p : Program) : Bool :=
  p.root.stop?.any fun stop => (p.tokens.toList.drop stop).all Token.isGap

/-- What is known of the tokens of a program that ends in a newline and whose tree reaches all words. -/
structure Grammar.Whole (toks : Array Token) (root : Tree) (stop : Nat) : Prop where
  regular : Regular toks
  derived : Derived toks .block root 0 stop
  lt_size : stop < toks.size
  blank : Blank toks stop toks.size
  code_ne_nil : ∀ {n : Nat} {t : Token}, toks[n]? = some t → t.code ≠ []

theorem Grammar.blank_of_all {stop : Nat} (hstop : stop ≤ toks.size)
    (h : (toks.toList.drop stop).all Token.isGap = true) : Grammar.Blank toks stop toks.size := by
  refine ⟨hstop, fun n hn hsize => ?_⟩
  have hget : (toks.toList.drop stop)[n - stop]? = some toks[n] := by
    rw [List.getElem?_drop, Array.getElem?_toList, Nat.add_sub_cancel' hn]
    exact Array.getElem?_eq_getElem hsize
  exact ⟨toks[n], Array.getElem?_eq_getElem hsize,
    List.all_eq_true.mp h _ (List.mem_of_getElem? hget)⟩

theorem Grammar.EndsInWord.lt_size {j : Nat} (h : EndsInWord toks 0 j) {u : Token}
    (hlast : toks.toList.getLast? = some u) (hu : u.isGap = true) : j < toks.size := by
  rw [List.getLast?_eq_getElem?, Array.length_toList, Array.getElem?_toList] at hlast
  have hpos := (Array.getElem?_eq_some_iff.mp hlast).1
  rcases h with rfl | ⟨k, t, rfl, ht, hsolid⟩
  · omega
  · have hk := (Array.getElem?_eq_some_iff.mp ht).1
    by_contra hsize
    have hkey : k = toks.size - 1 := by omega
    rw [hkey, hlast, Option.some.injEq] at ht
    rw [ht, hsolid] at hu
    cases hu

theorem Program.exists_whole {v : Int} {pieces : List Bytes} (hcut : LineCut pieces) {p : Program}
    (hp : Program.ofLines v pieces = .ok p) (hlast : pieces.flatten.getLast? = some Bytes.newline)
    (hcovered : p.isCovered = true) : ∃ stop, Grammar.Whole p.tokens p.root stop := by
  obtain ⟨ls, t, hls, ht, rfl⟩ := (Program.ofLines_eq_ok_iff hcut).mp hp
  have htoks := Scanner.unplaced_fresh hls
  obtain ⟨stop, hroot⟩ := Tree.derived_of_ofTokens ht
  -- the last token is a newline, so that the tree ends before it
  obtain ⟨u', hu', hkind⟩ := hls.kind_of_getLast? hlast
  rw [← htoks, List.getLast?_map, Option.map_eq_some_iff] at hu'
  obtain ⟨u, hu, rfl⟩ := hu'
  have hgap : u.isGap = true := by
    have hnewline : u.kind = .newline := hkind
    rw [Token.isGap, hnewline]
    rfl
  have hlt := hroot.endsInWord.lt_size hu hgap
  refine ⟨stop, Grammar.regular_of_lexed hls htoks, hroot, hlt, ?_, fun {n u} hn => ?_⟩
  · refine Grammar.blank_of_all (Nat.le_of_lt hlt) ?_
    rw [Program.isCovered, hroot.stop?_eq rfl] at hcovered
    exact hcovered
  · obtain ⟨w, hw⟩ := hls.exists_lexeme_of_get htoks hn
    exact hw.code.ne_nil

end Cartridge.Lua
