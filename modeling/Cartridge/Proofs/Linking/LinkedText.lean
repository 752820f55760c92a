import Cartridge.Linking.Package
import Cartridge.Proofs.Lua.FirstStatements
import Cartridge.Proofs.Lua.Pieces

/-!
# The text of a linked program

The lines of a program with packages in front are read as the tokens of all their parts, one after the
other.  There are two places where that may fail.  The name of a package is put between quotes with only
its quotes escaped, so that a backslash in it may escape what follows.  A library that does not end in a
newline is followed by `end` on the same line, which may run into its last word.
-/

namespace Cartridge.Linking

open Lua List Bytes Token

variable {name s : Bytes} {ts : List Token}

/-! ### Names between quotes -/

def isSpellable : Bytes → Bool
  | [] => true
  | c :: s =>
    (c != backslash || s.head?.any fun d => !isDigit d && (unescape? d).isNone) &&
      isSpellable s

theorem unit?_backslash_of_none {d : UInt8} (hd : isDigit d = false) (hx : unescape? d = none)
    (s : Bytes) : Quoted.unit? backslash (d :: s) = some (backslash, 0) := by
  simp [Quoted.unit?, Quoted.digits, hd, hx]

theorem quotedName_cons (c : UInt8) (name : Bytes) :
    quotedName (c :: name) = (if c = 34 then [92, 34] else [c]) ++ quotedName name := rfl

theorem scanQuoted_quotedName (h : isSpellable name = true) (data : Bytes) (taken : Nat) (r : Bytes) :
    scanQuoted 34 data taken (quotedName name ++ 34 :: r) =
      .closed (data.reverse ++ name) (taken + (quotedName name).length + 1) := by
  induction name generalizing data taken with
  | nil => simp [quotedName, scanQuoted_cons]
  | cons c name ih =>
    rw [isSpellable, Bool.and_eq_true] at h
    obtain ⟨hc, hrest⟩ := h
    rw [quotedName_cons]
    -- one step of the scan takes the byte with what it is spelled as
    have hstep : ∀ n, (if c = 34 then [92, 34] else [c] : Bytes).length = n + 1 →
        scanQuoted 34 data taken ((if c = 34 then [92, 34] else [c]) ++ quotedName name ++ 34 :: r) =
          scanQuoted 34 (c :: data) (taken + 1 + n) (quotedName name ++ 34 :: r) := by
      intro n hn
      by_cases hquote : c = 34
      · subst hquote
        obtain rfl : n = 1 := by simpa using hn.symm
        have hunit : Quoted.unit? 92 (34 :: (quotedName name ++ 34 :: r)) = _ :=
          unit?_backslash (c := 34) (d := 34) rfl rfl (quotedName name ++ 34 :: r)
        show scanQuoted 34 data taken (92 :: 34 :: (quotedName name ++ 34 :: r)) = _
        rw [scanQuoted_cons, if_neg (by decide), hunit]
        rfl
      · rw [if_neg hquote] at hn ⊢
        obtain rfl : n = 0 := by simpa using hn.symm
        show scanQuoted 34 data taken (c :: (quotedName name ++ 34 :: r)) = _
        have hunit : Quoted.unit? c (quotedName name ++ 34 :: r) = some (c, 0) := by
          by_cases hback : c = backslash
          · -- the byte behind the backslash is not a quote, so that it is spelled as it is
            subst hback
            rw [bne_self_eq_false, Bool.false_or, Option.any_eq_true] at hc
            obtain ⟨d, hd, hplain⟩ := hc
            obtain ⟨name, rfl⟩ := head?_eq_some_iff.mp hd
            rw [Bool.and_eq_true, Bool.not_eq_true', Option.isNone_iff_eq_none] at hplain
            have hd34 : d ≠ 34 := by
              rintro rfl
              exact absurd hplain.2 (by decide)
            rw [quotedName_cons, if_neg hd34]
            exact unit?_backslash_of_none hplain.1 hplain.2 _
          · exact Quoted.unit?_of_ne hback _
        rw [scanQuoted_cons, if_neg hquote, hunit]
        rfl
    obtain ⟨n, hn⟩ : ∃ n, (if c = 34 then [92, 34] else [c] : Bytes).length = n + 1 := by
      split
      · exact ⟨1, rfl⟩
      · exact ⟨0, rfl⟩
    rw [hstep n hn, ih hrest, length_append, hn, reverse_cons, append_assoc,
      singleton_append]
    congr 1
    omega

theorem lexeme_quotedName (h : isSpellable name = true) :
    Lexeme (34 :: (quotedName name ++ [34])) (quotedString 34 name) := by
  refine .quoted rfl ?_
  rw [scanQuoted_quotedName h]
  simp

/-! ### The parts of the text -/

def tokensIn (p : Program) : List Token := p.tokens.toList.map unplaced

def wordLine (ws : List Token) : List Token := ws ++ [newlineToken]

theorem getLast?_wordLine (ws : List Token) : (wordLine ws).getLast? = some newlineToken :=
  getLast?_concat

def endTokens : List Token := wordLine [keyword "end"]

def fieldWords (name : String) : List Token :=
  [nameToken name, symbol "=", symbol "\x7b", symbol "\x7d"]

def tableWords : List Token :=
  [nameToken "package", symbol "=", symbol "\x7b"] ++
    (fieldWords "loaded" ++ ([symbol ","] ++ (fieldWords "_c" ++ [symbol "\x7d"])))

def tableTokens : List Token := wordLine tableWords

def beforeName : List Token :=
  [nameToken "package", symbol ".", nameToken "_c", symbol "["]

def behindName : List Token :=
  [symbol "]", symbol "=", keyword "function", symbol "(", symbol ")"]

def frameTokens (name : Bytes) : List Token :=
  wordLine (beforeName ++ quotedString 34 name :: behindName)

def packageTokens (name : Bytes) (p : Program) : List Token :=
  frameTokens name ++ (tokensIn p ++ endTokens)

def requireHead : List Token :=
  wordLine [keyword "function", spaceToken, nameToken "require", symbol "(",
    nameToken "p", symbol ")"]

def requireBody : List Bytes := requireLines.tail.dropLast

def requireBodyTokens : List Token := requireBody.flatMap fun l => (tokensOf? l).getD []

def requireTokens : List Token := requireHead ++ (requireBodyTokens ++ endTokens)

def linkedTokens (p : Program) (ps : Packages) : List Token :=
  tableTokens ++ (ps.flatMap (fun q => packageTokens q.1 q.2) ++ (requireTokens ++ tokensIn p))

/-! ### Reading the parts -/

theorem readAs_table : ReadAs tableLine tableTokens := tokensOf?_eq_some_iff.mp (by decide +kernel)

theorem readAs_end : ReadAs (ofText "end\n") endTokens :=
  tokensOf?_eq_some_iff.mp (by decide +kernel)

theorem readAs_requireHead : ReadAs (ofText "function require(p)\n") requireHead :=
  tokensOf?_eq_some_iff.mp (by decide +kernel)

theorem readAs_requireBody :
    Forall₂ ReadAs requireBody (requireBody.map fun l => (tokensOf? l).getD []) := by
  have hall : ∀ l ∈ requireBody, (tokensOf? l).isSome = true := by decide +kernel
  rw [forall₂_map_right_iff, forall₂_same]
  intro l hl
  obtain ⟨ts, hts⟩ := Option.isSome_iff_exists.mp (hall l hl)
  rw [hts]
  exact tokensOf?_eq_some_iff.mp hts

def frameLine (name : Bytes) : Bytes :=
  ofText "package._c[\"" ++ quotedName name ++ ofText "\"]=function()\n"

theorem readAs_frame (h : isSpellable name = true) : ReadAs (frameLine name) (frameTokens name) := by
  -- with the empty name, in whose place the other one is put
  have hempty : ReadAs (frameLine []) (frameTokens []) := tokensOf?_eq_some_iff.mp (by decide +kernel)
  have hlexed := hempty.written
  have hsplit : frameTokens [] = beforeName ++ quotedString 34 [] :: wordLine behindName := rfl
  rw [hsplit, map_append, map_cons] at hlexed
  have hother := hlexed.exchange (lexeme_quotedName h) rfl (b := 34) (by decide) rfl rfl
  have hbefore : ((beforeName.map fun t => (t.code, t)).map Prod.fst).flatten =
      ofText "package._c[" := by decide
  have hbehind : (((wordLine behindName).map fun t => (t.code, t)).map Prod.fst).flatten =
      ofText "]=function()\n" := by decide
  have htext : frameLine name = ofText "package._c[" ++
      (34 :: (quotedName name ++ [34]) ++ ofText "]=function()\n") := by
    have hopen : ofText "package._c[\"" = ofText "package._c[" ++ [34] := by decide
    have hclose : ofText "\"]=function()\n" = 34 :: ofText "]=function()\n" := by decide
    rw [frameLine, hopen, hclose]
    simp
  rw [hbefore, hbehind, ← htext] at hother
  exact ⟨_, hother, by simp [frameTokens, wordLine, Function.comp_def]⟩

example : tokensOf? (frameLine (ofText "lib")) = some (frameTokens (ofText "lib")) := by decide +kernel

/-! ### Libraries -/

structure ReadToEnd (p : Program) : Prop where
  text : ∃ v s, Program.ofLines v (lines s) = .ok p
  covered : p.isCovered = true

def endsApart (p : Program) : Bool :=
  tokensOf? (p.source ++ ofText "end\n") == some (tokensIn p ++ endTokens)

theorem source_eq (p : Program) : p.source = written (tokensIn p) := by
  rw [Program.source, Program.write, Writer.write, flatten_echo, written, tokensIn, map_map]
  rfl

section Library

variable {p : Program} (hp : ReadToEnd p)
include hp

theorem ReadToEnd.exists_readAs : ∃ s, ReadAs s (tokensIn p) := by
  obtain ⟨v, s, hread⟩ := hp.text
  obtain ⟨ls, hls, hholds⟩ := Program.holds_of_ofLines (lineCut_lines s) hread
  exact ⟨_, ls, hls, hholds.tokens_eq.symm⟩

theorem ReadToEnd.readAs : ReadAs p.source (tokensIn p) := by
  obtain ⟨s, hs⟩ := hp.exists_readAs
  rw [source_eq]
  exact .of_written hs.written

theorem ReadToEnd.readAs_lines :
    ∃ tss, Forall₂ ReadAs (p.write .echo).lines tss ∧ tss.flatten = tokensIn p := by
  obtain ⟨s, hs⟩ := hp.exists_readAs
  have hlines : Stream.echo (tokensIn p) = (p.write .echo).lines := by
    have hfrom : ∀ (ts : List Token) current,
        Stream.echoFrom current (ts.map unplaced) = Stream.echoFrom current ts := by
      intro ts
      induction ts with
      | nil => exact fun _ => rfl
      | cons t ts ih =>
        intro current
        rw [map_cons, Stream.echoFrom, Stream.echoFrom, ih, ih]
        rfl
    exact hfrom _ _
  rw [← hlines]
  exact hs.echo

theorem endsApart_of_newline (hlast : p.source.getLast? = some newline) : endsApart p = true := by
  have hread := hp.readAs
  obtain ⟨ls, hls, hsnd⟩ := hread
  obtain ⟨t, ht, hkind⟩ := hls.kind_of_getLast? hlast
  rw [hsnd] at ht
  have hdata : t.data ≠ [13] := by
    intro hreturn
    obtain ⟨ts, hts⟩ := getLast?_eq_some_iff.mp ht
    have hcode : t.code = [13] := by
      rw [code_of_ne_string (by rw [hkind]; decide), hreturn]
    rw [source_eq, hts, written, map_append, map_singleton, hcode, flatten_append,
      flatten_singleton, getLast?_concat] at hlast
    exact absurd hlast (by decide)
  rw [endsApart, beq_iff_eq, tokensOf?_eq_some_iff]
  exact hp.readAs.append readAs_end ht hkind hdata

end Library

/-! ### The whole text -/

theorem readAs_requireLines (h : ReadAs s ts) : ReadAs (requireLines.flatten ++ s) (requireTokens ++ ts) := by
  have hbody : ∀ {ls : List Bytes} {tss : List (List Token)}, Forall₂ ReadAs ls tss →
      (∀ us ∈ tss, us.getLast? = some newlineToken) → ∀ {s ts}, ReadAs s ts →
        ReadAs (ls.flatten ++ s) (tss.flatten ++ ts) := by
    intro ls tss hls hlast
    induction hls with
    | nil => exact fun h => h
    | @cons l us ls tss hl _ ih =>
      intro s ts h
      have hnext := ih (fun us hus => hlast us (mem_cons_of_mem _ hus)) h
      have hall := hl.append hnext (hlast us mem_cons_self) rfl (by decide)
      rwa [← append_assoc, ← append_assoc, ← flatten_cons, ← flatten_cons] at hall
  have hlines : requireLines = ofText "function require(p)\n" :: requireBody ++ [ofText "end\n"] := by
    decide
  have hends : ∀ us ∈ requireBody.map fun l => (tokensOf? l).getD [], us.getLast? = some newlineToken := by
    decide +kernel
  have hrest := hbody readAs_requireBody hends (readAs_end.append h (getLast?_wordLine _) rfl (by decide))
  have hall := readAs_requireHead.append hrest (getLast?_wordLine _) rfl (by decide)
  have htext : requireLines.flatten ++ s = ofText "function require(p)\n" ++
      (requireBody.flatten ++ (ofText "end\n" ++ s)) := by
    rw [hlines]
    simp
  have htokens : requireTokens ++ ts = requireHead ++ ((requireBody.map fun l => (tokensOf? l).getD []).flatten ++
      (endTokens ++ ts)) := by
    rw [requireTokens, requireBodyTokens, flatMap_def]
    simp
  rw [htext, htokens]
  exact hall

section Linked

variable {main : Program} {ps : Packages} (hmain : ReadToEnd main)
  (hps : ∀ q ∈ ps, ReadToEnd q.2 ∧ isSpellable q.1 = true ∧ endsApart q.2 = true)
include hps

omit hps in
theorem flatten_packageLines (name : Bytes) (p : Program) :
    (packageLines name p).flatten = frameLine name ++ (p.source ++ ofText "end\n") := by
  rw [packageLines, cons_append, flatten_cons, flatten_append, flatten_singleton]
  rfl

theorem readAs_packages (h : ReadAs s ts) :
    ReadAs ((ps.flatMap fun q => packageLines q.1 q.2).flatten ++ s)
      (ps.flatMap (fun q => packageTokens q.1 q.2) ++ ts) := by
  induction ps with
  | nil => exact h
  | cons q ps ih =>
    obtain ⟨-, hname, hapart⟩ := hps q mem_cons_self
    have hrest := ih fun q hq => hps q (mem_cons_of_mem _ hq)
    rw [endsApart, beq_iff_eq, tokensOf?_eq_some_iff] at hapart
    have hend : (tokensIn q.2 ++ endTokens).getLast? = some newlineToken := by
      rw [getLast?_append, endTokens, getLast?_wordLine]
      rfl
    have hlibrary := hapart.append hrest hend rfl (by decide)
    have hall := (readAs_frame hname).append hlibrary (getLast?_wordLine _) rfl (by decide)
    rw [flatMap_cons, flatMap_cons, flatten_append, flatten_packageLines, packageTokens]
    simpa only [append_assoc] using hall

include hmain

theorem readAs_linked : ReadAs (linkedLines main ps).flatten (linkedTokens main ps) := by
  have hrest := readAs_packages hps (readAs_requireLines hmain.readAs)
  have hall := readAs_table.append hrest (getLast?_wordLine _) rfl (by decide)
  rw [linkedLines, cons_append, cons_append, flatten_cons, flatten_append,
    flatten_append, append_assoc]
  exact hall

omit hps in
/-- **The lines of a linked program are read one by one as the tokens of its parts**, with the names
that are read in the lines in front of the packages. -/
theorem readAs_linkedLines {given : Bytes → Bytes}
    (hframes : ∀ q ∈ ps, ReadToEnd q.2 ∧ ReadAs (frameLine q.1) (frameTokens (given q.1))) :
    ∃ tss, Forall₂ ReadAs (linkedLines main ps) tss ∧
      tss.flatten = linkedTokens main (ps.map fun q => (given q.1, q.2)) := by
  have hpackages : ∃ tss, Forall₂ ReadAs (ps.flatMap fun q => packageLines q.1 q.2) tss ∧
      tss.flatten = ps.flatMap fun q => packageTokens (given q.1) q.2 := by
    clear hmain
    induction ps with
    | nil => exact ⟨[], .nil, rfl⟩
    | cons q ps ih =>
      obtain ⟨hlibrary, hname⟩ := hframes q mem_cons_self
      obtain ⟨tss, htss, hflat⟩ := ih fun q hq => hframes q (mem_cons_of_mem _ hq)
      obtain ⟨lss, hlss, hlines⟩ := hlibrary.readAs_lines
      refine ⟨frameTokens (given q.1) :: lss ++ [endTokens] ++ tss, ?_, ?_⟩
      · rw [flatMap_cons]
        exact rel_append (rel_append (.cons hname hlss) (.cons readAs_end .nil)) htss
      · simp [packageTokens, hlines, hflat]
  obtain ⟨tss, htss, hflat⟩ := hpackages
  obtain ⟨lss, hlss, hlines⟩ := hmain.readAs_lines
  have hrequire : Forall₂ ReadAs requireLines
      (requireHead :: (requireBody.map fun l => (tokensOf? l).getD []) ++ [endTokens]) :=
    rel_append (.cons readAs_requireHead readAs_requireBody) (.cons readAs_end .nil)
  refine ⟨_, rel_append (rel_append (.cons readAs_table htss) hrequire) hlss, ?_⟩
  simp [linkedTokens, requireTokens, requireBodyTokens, flatMap_def, hlines, hflat, Function.comp_def]

end Linked

end Cartridge.Linking
