import Cartridge.Proofs.Lua.Covered
import Cartridge.Proofs.Lua.Nesting
import Cartridge.Proofs.Lua.Retraced
import Cartridge.Proofs.Lua.Series
import Cartridge.Proofs.Lua.Truncation

/-!
# The first statements of a program

A program may be broken off before a statement that starts with `function`.  What is left is written from
a tree with the first statements alone, and is read as these statements: the text up to the `function`
has the same tokens, no phrase before it goes on behind it, and there is nothing behind it that a pen
would write.
-/

namespace Cartridge.Lua

open List Lua.Tree

variable {i : Nat} {ls : List (Bytes × Token)} {pieces : List Bytes} {rest : List Tree} {root : Tree}
  {v : Int}

variable {p : Program} {stop : Nat} {t : Tree} {toks : Array Token}

def Tree.statements : Tree → List Tree
  | .node .chunk [.list ts] _ => ts
  | _ => []

theorem Tree.statements_unplaced (t : Tree) : t.unplaced.statements = t.statements.map unplaced := by
  match t with
  | .node k fs o =>
    rw [unplaced_node]
    match fs with
    | [] => cases k <;> rfl
    | [.list ts] =>
      cases k with
      | chunk => exact unplacedAll_eq_map ts
      | _ => rfl
    | [.node ..] | [.token _] | [.label _] | [.truth _] | [.absent] => cases k <;> rfl
    | _ :: _ :: _ => cases k <;> simp [statements]
  | .token _ | .list _ | .label _ | .truth _ | .absent => rfl

namespace Grammar

/-- The first statements of a program end at `e`.  Behind semicolons up to `k` the next word is a
`function` at `m`. -/
structure Split (toks : Array Token) (stats : List Tree) (e k m : Nat) : Prop where
  series : Series toks (parts toks) 0 stats e
  semicolons : Gives (semicolons toks) e () k
  passed : Semicolons toks e k
  blank : Blank toks k m
  word : ∃ t, toks[m]? = some t ∧ t.agrees (Token.keyword "function") = true

theorem exists_takes_of_statFunction {s : Category} {j : Nat} (hs : s = .statement ∨ s = .lastStatement)
    (h : Derived toks s t i j) (ht : t.isA .statFunction = true) :
    s = .statement ∧ ∃ u m, Takes toks [.exact (Token.keyword "function")] i u m ∧ m < j := by
  obtain ⟨rule, row⟩ := h
  cases rule with
  | namedFunction =>
    cases row with
    | word htakes rest =>
      have hle := rest.le Derived.le
      exact ⟨rfl, _, _, htakes, by omega⟩
  | assignment | call | doBlock | whileLoop | repeatLoop | longIf | shortIf | forStep | forIn
  | localFunction | localVariables | jump | label | leave | give => cases ht
  | _ => simp at hs

theorem exists_split (h : Tree.ofTokens toks = .ok root)
    (hstats : root.statements = stats ++ t :: rest) (ht : t.isA .statFunction = true) :
    ∃ all stop e k m, root = .made .chunk [.list all] 0 stop ∧ Derived toks .block root 0 stop ∧
      Split toks stats e k m ∧ m < stop := by
  obtain ⟨stop', hderived⟩ := derived_of_ofTokens h
  have hstop' := hderived.stop?_eq rfl
  obtain ⟨stop, hblock⟩ := ofTokens_eq_ok_iff.mp h
  obtain ⟨all, last, e', rfl, hseries, he', hends⟩ := (block_gives_iff (Nat.zero_le _)).mp hblock
  obtain rfl : stop = stop' := Option.some.inj hstop'
  obtain ⟨hle, hsize⟩ := hends.le he'
  -- the last statement of a block is no function, so that `t` is among the others
  have hlast : ∀ u, last = some u → u.isA .statFunction = false := by
    rintro u rfl
    obtain ⟨i, j, hu⟩ := Ends.derived he' hends
    by_contra hfunction
    rw [Bool.not_eq_false] at hfunction
    cases (exists_takes_of_statFunction (.inr rfl) hu hfunction).1
  have hnotMem : t ∉ last.toList := by
    intro hmem
    rw [hlast t (Option.mem_toList.mp hmem)] at ht
    cases ht
  obtain ⟨rest', rfl⟩ : ∃ rest', all = stats ++ t :: rest' := by
    have heq : all ++ last.toList = stats ++ t :: rest := hstats
    obtain ⟨more, hall, hmore⟩ | ⟨more, hstats', hmore⟩ := append_eq_append_iff.mp heq
    · exact absurd (hmore ▸ mem_append_right more mem_cons_self) hnotMem
    · cases more with
      | nil =>
        rw [nil_append] at hmore
        exact absurd (hmore ▸ mem_cons_self) hnotMem
      | cons u more =>
        cases hmore
        exact ⟨more, hstats'⟩
  obtain ⟨e, hfirst, hnext⟩ := Chained.append_iff.mp hseries
  cases hnext with
  | @cons _ n _ _ _ hstep hrest =>
    have hne' := hrest.le And.left
    have hen := hstep.1
    obtain ⟨k, hgives, hpassed, hstatement⟩ := exists_of_nextStatement (by omega) hstep.2
    obtain ⟨-, u, m, htakes, hm⟩ := exists_takes_of_statFunction (.inl rfl) hstatement ht
    obtain ⟨p, hp, hfits⟩ := htakes.fits
    rw [mem_singleton] at hp
    subst hp
    refine ⟨_, stop, e, k, m, rfl, hderived, ?_, by omega⟩
    exact ⟨hfirst, hgives, hpassed, htakes.blank, u, htakes.get, hfits⟩

namespace Split

variable {toks toks' : Array Token} {stats : List Tree} {e k m : Nat}

theorem lt_size (h : Split toks stats e k m) : m < toks.size := by
  obtain ⟨t, ht, -⟩ := h.word
  exact (Array.getElem?_eq_some_iff.mp ht).1

theorem le (h : Split toks stats e k m) : e ≤ k ∧ k ≤ m := ⟨h.passed.le, h.blank.le⟩

theorem not_isGap {t : Token} (h : t.agrees (Token.keyword "function") = true) : t.isGap = false := by
  rw [Token.isGap, kind_eq_of_agrees h]
  rfl

theorem depth_eq (h : Split toks stats e k m) : depth toks m = 0 := by
  have hrow : Spans toks (Derived toks)
      (stats.flatMap (fun t => [.semicolons, .part .statement t]) ++ [.semicolons]) 0 k :=
    (h.series.spans (by have := h.le; have := h.lt_size; omega)).append (.semicolons h.passed (.nil k))
  have hcloses : closes false 0
      (stats.flatMap (fun t => [.semicolons, .part .statement t]) ++ [.semicolons]) = true := by
    rw [closes_flatMap fun _ _ => rfl]
    rfl
  have hbalanced := hrow.balanced (b := 0) Derived.balanced hcloses (by rw [depth_zero]; rfl)
  rw [h.blank.depth_eq h.blank.le (Nat.le_refl m), hbalanced.stop]

theorem window (h : Split toks stats e k m) {stop : Nat}
    (hroot : Derived toks .block root 0 stop) (hm : m < stop)
    (htoks : toks'.toList.map Token.unplaced = (toks.toList.take m).map Token.unplaced) :
    Window toks toks' .still m := by
  obtain ⟨t, ht, hfunction⟩ := h.word
  have hsize : toks'.size = m := by
    have hlength := congrArg length htoks
    have := h.lt_size
    simp only [length_map, length_take, Array.length_toList] at hlength
    omega
  refine ⟨Nat.le_of_lt h.lt_size, fun {i} hi => ?_, .refl _ _, fun {x t'} hblank ht' _ => ?_,
    fun {x u} hblank hu hsolid => ?_, fun {i j} htried hi => ?_⟩
  · have hget := congrArg (·[i]?) htoks
    simp only [getElem?_map, getElem?_take_of_lt hi, Array.getElem?_toList] at hget
    rw [Array.getElem?_eq_getElem (show i < toks.size by have := h.lt_size; omega),
      Array.getElem?_eq_getElem (show i < toks'.size by omega)] at hget
    exact ⟨_, _, Array.getElem?_eq_getElem _, Array.getElem?_eq_getElem _, Option.some.inj hget⟩
  · have hlt := (Array.getElem?_eq_some_iff.mp ht').1
    have hle : m ≤ x := hblank.le
    omega
  · -- the first word behind the window is the function itself
    rw [hblank.eq_of_solid ht (not_isGap hfunction), ht, Option.some.injEq] at hu
    exact hu ▸ hfunction
  · have hnonneg := hroot.balanced.le (Nat.zero_le i) (Nat.le_trans hi (Nat.le_of_lt hm))
    rw [depth_zero] at hnonneg
    exact htried.le_of_function hi ht hfunction (by rw [h.depth_eq]; exact hnonneg)

theorem ofTokens (h : Split toks stats e k m) (hroot : Derived toks .block root 0 stop)
    (hm : m < stop) (htoks : toks'.toList.map Token.unplaced = (toks.toList.take m).map Token.unplaced) :
    ∃ stats', Tree.ofTokens toks' = .ok (.made .chunk [.list stats'] 0 k) ∧
      List.Forall₂ (Tree.Moved .still) stats stats' ∧ Blank toks' k toks'.size := by
  have w := h.window hroot hm htoks
  obtain ⟨hek, hkm⟩ := h.le
  have hsize : toks'.size = m := by
    have hlength := congrArg length htoks
    have := h.lt_size
    simp only [length_map, length_take, Array.length_toList] at hlength
    omega
  have hd : m + Shift.still.offset ≤ toks'.size := Nat.le_of_eq hsize.symm
  have hblank : Blank toks' k toks'.size := by
    rw [hsize]
    exact w.blank h.blank (Nat.le_refl m)
  obtain ⟨stats', hstats, hseries⟩ := Series.shadowed w hd h.series (by omega)
  obtain ⟨⟨⟩, -, hsemicolons⟩ := Gives.shadowed (semicolons_shadows w) (advances_semicolons toks')
    (by rw [Shift.place_still]; omega) h.semicolons hkm
  rw [Shift.place_still, Shift.place_still] at hseries hsemicolons
  -- behind the semicolons there is no more word, and so no statement
  have hstop : Gives (Grammar.semicolons toks') k () k := .semicolons (hblank.stops _)
  have hends : Ends toks' (parts toks') e none k :=
    ⟨k, .bind hsemicolons (statement_none (hblank.stops _)),
      .bind hstop (.bind (lastStatement_none (hblank.stops _)) (.bind hstop (.pure none k)))⟩
  refine ⟨stats', ofTokens_eq_ok_iff.mpr ⟨k, ?_⟩, hstats, hblank⟩
  refine (block_gives_iff (Nat.zero_le _)).mpr ⟨stats', none, e, ?_, hseries, by omega, hends⟩
  rw [Option.toList_none, append_nil]

open Pen in
theorem write (h : Split toks stats e k m) (hreg : Regular toks) (hm : m < stop)
    (hlegible : legibleAll toks stats = true) (origin : Origin) (hspan : origin.span = some ⟨0, stop⟩) :
    let out := (node .chunk [.list stats] origin).write {} toks
    out.failure = none ∧ out.lines = Bytes.lines (sourceText (between toks 0 m)) := by
  obtain ⟨t, ht, hfunction⟩ := h.word
  obtain ⟨hek, hkm⟩ := h.le
  have hsize := h.lt_size
  let ts : List (Category × Tree) := stats.map fun t => (.statement, t)
  have htrees : ts.map Prod.snd = stats := by simp [ts, Function.comp_def]
  have hopens : ∀ p ∈ ts, p.1.opens = true := by
    intro p hp
    obtain ⟨t, -, rfl⟩ := mem_map.mp hp
    rfl
  have hrow : Spans toks (Followed toks) (ts.flatMap fun p => [.semicolons, .part p.1 p.2]) 0 e := by
    have hspans := h.series.spans (by omega)
    rw [flatMap_map]
    refine (hspans.mono fun h => ⟨h, fun hj => h.inStep hreg hj⟩).followed (by omega) (.flatMap ?_)
    exact fun t ht => ⟨legibleAll_iff.mp hlegible t ht, trivial⟩
  have hother : t.agrees (Token.symbol ";") = false := by
    by_contra hsemi
    rw [Bool.not_eq_false] at hsemi
    have hkind := (kind_eq_of_agrees hfunction).symm.trans (kind_eq_of_agrees hsemi)
    cases hkind
  have hend : ∀ {n}, m < n → GapEnds toks n m := fun hn => .inr ⟨hn, t, ht, not_isGap hfunction⟩
  have hfollows := follows_statements_before hopens hrow h.passed h.blank (hend hm) ht hother
  rw [htrees] at hfollows
  have hscript : (node .chunk [.list stats] origin).script false =
      .gap (.upTo stop) :: (statsScript false (.upTo stop) stats ++ [.semicolons (.upTo stop)]) := by
    rw [script, Origin.owner, hspan]
    rfl
  refine write_of_traces_before ?_ (.refl toks m) (hend hsize)
  rw [hscript]
  exact (hfollows.gap_before (hend hm) (Nat.le_of_lt hsize)).traces (Nat.zero_le m)

end Split
end Grammar

/-! ### Programs -/

theorem lineCut_lines (s : Bytes) : LineCut (Bytes.lines s) := by
  induction s with
  | nil => exact fun p hp => by cases hp
  | cons c s ih =>
    by_cases hc : c = Bytes.newline
    · subst hc
      rw [Bytes.lines_newline_cons]
      exact .cons rfl ih
    · rw [Bytes.lines_cons_of_ne hc]
      cases hlines : Bytes.lines s with
      | nil => exact fun p hp => by cases hp
      | cons l ls =>
        rw [hlines] at ih
        cases ls with
        | nil => exact fun p hp => by cases hp
        | cons l' ls =>
          refine .cons ?_ ih.tail
          have hl : l.getLast? = some Bytes.newline := ih l (by simp)
          rw [singleton_append, getLast?_cons, hl]
          rfl

theorem Grammar.Regular.code_function (h : Regular toks) {t : Token} (ht : toks[i]? = some t)
    (hfunction : t.agrees (Token.keyword "function") = true) : t.code = Bytes.ofText "function" := by
  have hkind : t.kind = .keyword := kind_eq_of_agrees hfunction
  rw [Token.code_of_ne_string (by rw [hkind]; decide), ← h.keyword ht hkind]
  rw [Token.agrees, hkind, Bool.and_eq_true, if_pos (by rfl)] at hfunction
  exact beq_iff_eq.mp hfunction.2

theorem lexed_before_function {s : Bytes} (h : Lexed s ls)
    (htoks : toks.toList.map Token.unplaced = ls.map Prod.snd) {m : Nat} {t : Token} (ht : toks[m]? = some t)
    (hfunction : t.agrees (Token.keyword "function") = true) :
    Lexed (Pen.sourceText (Grammar.between toks 0 m)) ((echoed ls).take m) := by
  have hcodes : (echoed ls).map Prod.fst = toks.toList.map Token.code := by
    have hls : (echoed ls).map Prod.fst = (ls.map Prod.snd).map Token.code := by
      simp [echoed, Function.comp_def]
    rw [hls, ← htoks, map_map]
    rfl
  have htext : Pen.sourceText (Grammar.between toks 0 m) =
      (((echoed ls).take m).map Prod.fst).flatten := by
    rw [map_take, hcodes, ← map_take, Pen.sourceText, Grammar.between, drop_zero,
      flatMap_def]
  -- what is cut off starts with a letter
  have hrest : (((echoed ls).drop m).map Prod.fst).flatten =
      102 :: ((Bytes.ofText "unction") ++ ((toks.toList.drop (m + 1)).map Token.code).flatten) := by
    have hcode := (Grammar.regular_of_lexed h htoks).code_function ht hfunction
    obtain ⟨hlt, rfl⟩ := Array.getElem?_eq_some_iff.mp ht
    rw [map_drop, hcodes, ← map_drop, drop_eq_getElem_cons (by simpa using hlt),
      map_cons, flatten_cons, Array.getElem_toList, hcode]
    rfl
  rw [htext]
  refine Lexed.of_append (by decide) hrest (s := ((echoed ls).map Prod.fst).flatten) ?_
  rw [take_append_drop]
  exact h.echoed

theorem Program.isCovered_of_blank (hstop : p.root.stop? = some stop)
    (h : Grammar.Blank p.tokens stop p.tokens.size) : p.isCovered = true := by
  have hrest : Grammar.between p.tokens stop p.tokens.size = p.tokens.toList.drop stop := by
    rw [Grammar.between, take_of_length_le (by simp)]
  rw [Program.isCovered, hstop, Option.any_some, all_eq_true, ← hrest]
  exact h.isGap

example : (Program.ofLines 8 (Bytes.lines (Bytes.ofText "x=1 -- one\n\n"))).toOption.map Program.isCovered =
    some true := by decide +kernel

theorem Program.reread_eq {w : Writer} {text : Bytes}
    (hfailure : (p.write w).failure = none) (hlines : (p.write w).lines = Bytes.lines text)
    (hls : Lexed text ls) (ht : Tree.ofTokens (Scanner.passedAll {} ls).tokens = .ok t) :
    p.reread w = .ok { version := p.version, scanner := Scanner.passedAll {} ls, root := t } := by
  rw [← Bytes.flatten_lines text] at hls
  rw [Program.reread, hfailure, hlines]
  exact (Program.ofLines_eq_ok_iff (lineCut_lines text)).mpr ⟨ls, t, hls, ht, rfl⟩

/-- **A program without its last statements is read from what is written of it**, if the first of those
is a function and the others can be followed by a pen. -/
theorem Program.reread_before (hcut : LineCut pieces)
    (hp : Program.ofLines v pieces = .ok p) {origin : Origin}
    (hroot : p.root = .node .chunk [.list (stats ++ t :: rest)] origin) (ht : t.isA .statFunction = true)
    (hlegible : legibleAll p.tokens stats = true) :
    ∃ q, { p with root := .node .chunk [.list stats] origin }.reread (.tree {}) = .ok q ∧
      q.isCovered = true ∧ q.root.statements.map Tree.unplaced = stats.map Tree.unplaced := by
  obtain ⟨ls, root, hls, hofTokens, rfl⟩ := (Program.ofLines_eq_ok_iff hcut).mp hp
  have htoks := Scanner.unplaced_fresh hls
  generalize Scanner.passedAll {} ls = sc at *
  obtain rfl : root = _ := hroot
  have hreg := Grammar.regular_of_lexed hls htoks
  obtain ⟨_, stop, e, k, m, hmade, hderived, hsplit, hm⟩ := Grammar.exists_split hofTokens rfl ht
  obtain ⟨u, hu, hfunction⟩ := hsplit.word
  have hspan : origin.span = some ⟨0, stop⟩ := by
    cases hmade
    rfl
  -- what is written are the tokens before the function, and they are read again
  obtain ⟨hfailure, hlines⟩ := hsplit.write hreg hm hlegible origin hspan
  have hlexed := lexed_before_function hls htoks hu hfunction
  have htoks' := Scanner.unplaced_fresh hlexed
  rw [map_take, map_snd_echoed, ← htoks, ← map_take] at htoks'
  obtain ⟨stats', hofTokens', hstats, hblank⟩ := hsplit.ofTokens hderived hm htoks'
  refine ⟨_, Program.reread_eq hfailure hlines hlexed hofTokens', isCovered_of_blank rfl hblank, ?_⟩
  have hmoved := map_moved hstats
  rwa [Tree.movedBy_still] at hmoved

theorem Program.isCovered_eq_of_same {q : Program}
    (htoks : q.tokens.toList.map Token.unplaced = p.tokens.toList.map Token.unplaced)
    (hroot : Tree.Same p.root q.root) : q.isCovered = p.isCovered := by
  have hgaps : ∀ stop, (q.tokens.toList.drop stop).all Token.isGap =
      (p.tokens.toList.drop stop).all Token.isGap := by
    intro stop
    have hdrop : ∀ ts : List Token, (ts.drop stop).all Token.isGap =
        ((ts.map Token.unplaced).drop stop).all Token.isGap := by
      intro ts
      rw [← map_drop, all_map]
      rfl
    rw [hdrop q.tokens.toList, htoks, ← hdrop]
  rw [Program.isCovered, Program.isCovered, ← stop?_unplaced, hroot, stop?_unplaced]
  simp only [hgaps]

theorem Program.reread_whole (hcut : LineCut pieces)
    (hp : Program.ofLines v pieces = .ok p) (hlast : pieces.flatten.getLast? = some Bytes.newline)
    (hcovered : p.isCovered = true) (hlegible : p.root.legible p.tokens = true) :
    ∃ q, p.reread (.tree {}) = .ok q ∧ q.isCovered = true ∧ Tree.Same p.root q.root := by
  obtain ⟨stop, hwhole⟩ := Program.exists_whole hcut hp hlast hcovered
  have hfollows := (hwhole.derived.inStep hwhole.regular hwhole.lt_size).follows hlegible
  obtain ⟨hfailure, hlines⟩ := write_of_traces_before (hfollows.traces (Nat.zero_le stop))
    hwhole.blank (.inl rfl)
  obtain ⟨ls, root, hls, hofTokens, rfl⟩ := (Program.ofLines_eq_ok_iff hcut).mp hp
  have htoks := Scanner.unplaced_fresh hls
  generalize Scanner.passedAll {} ls = sc at *
  have hlexed : Lexed (Pen.sourceText (Grammar.between sc.tokens 0 sc.tokens.size)) (echoed ls) := by
    have htext : Pen.sourceText (Grammar.between sc.tokens 0 sc.tokens.size) =
        ((echoed ls).map Prod.fst).flatten := by
      rw [flatten_echoed, ← htoks, map_map, Grammar.between, drop_zero,
        take_of_length_le (by simp), Pen.sourceText, flatMap_def]
      rfl
    rw [htext]
    exact hls.echoed
  have htoks' := Scanner.unplaced_fresh hlexed
  rw [map_snd_echoed, ← htoks] at htoks'
  have htail := htoks'
  rw [← append_nil (sc.tokens.toList.map _)] at htail
  obtain ⟨t', hofTokens', hsame⟩ := ofTokens_of_newlines htail (fun _ h => absurd h not_mem_nil) hofTokens
  refine ⟨_, Program.reread_eq hfailure hlines hlexed hofTokens', ?_, hsame⟩
  rw [← hcovered]
  exact isCovered_eq_of_same htoks' hsame

end Cartridge.Lua
