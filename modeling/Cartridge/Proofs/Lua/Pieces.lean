import Cartridge.Proofs.Lua.Joining
import Cartridge.Proofs.Lua.Resaving
import Cartridge.Proofs.Lua.Truncation
import Mathlib.Data.List.Forall2

/-!
# Texts put together from pieces

A text behind a newline is read as if nothing stood before it.  So pieces that end in newlines can be put
one behind the other, and tokens can be cut behind the line ends among them.  Pieces that do not end in
newlines are read one by one all the same, but may run into each other as soon as they are one text.
-/

namespace Cartridge.Lua

open List

variable {pieces : List Bytes} {t : Token} {tss : List (List Token)} {w x : Bytes}

def ReadAs (s : Bytes) (ts : List Token) : Prop := ∃ ls, Lexed s ls ∧ ls.map Prod.snd = ts

def tokensOf? (s : Bytes) : Option (List Token) :=
  match Scanner.feed {} [s] with
  | (sc, none) => some (sc.tokens.toList.map Token.unplaced)
  | (_, some _) => none

theorem tokensOf?_eq_some_iff {s : Bytes} {ts : List Token} : tokensOf? s = some ts ↔ ReadAs s ts := by
  have hcut : LineCut [s] := fun p hp => by cases hp
  have hfeed : ∀ sc, Scanner.feed {} [s] = (sc, none) ↔ ∃ ls, Lexed s ls ∧ sc = Scanner.passedAll {} ls := by
    intro sc
    have hiff : Scanner.feed {} [s] = (sc, none) ↔
        ∃ ls, Lexed [s].flatten ls ∧ sc = Scanner.passedAll {} ls := Scanner.feed_eq_iff hcut rfl
    rwa [flatten_singleton] at hiff
  unfold tokensOf?
  constructor
  · intro h
    split at h
    · next sc hsc =>
      obtain ⟨ls, hls, rfl⟩ := (hfeed sc).mp hsc
      rw [Scanner.unplaced_fresh hls] at h
      exact ⟨ls, hls, Option.some.inj h⟩
    · cases h
  · rintro ⟨ls, hls, rfl⟩
    rw [(hfeed _).mpr ⟨ls, hls, rfl⟩]
    exact congrArg some (Scanner.unplaced_fresh hls)

/-! ### Cutting and putting together -/

section Texts

variable {s s' : Bytes} {ls ls' : List (Bytes × Token)} {b : UInt8}

theorem exists_concat_of_append {y : Bytes} (h : w ++ y = x ++ [b]) (hy : y ≠ []) : ∃ z, y = z ++ [b] := by
  have hlast : y.getLast? = some b := by
    rw [← getLast?_append_of_ne_nil w hy, h, getLast?_concat]
  exact getLast?_eq_some_iff.mp hlast

theorem Lexed.drop (h : Lexed s (ls ++ ls')) : Lexed (ls'.map Prod.fst).flatten ls' := by
  induction ls generalizing s with
  | nil =>
    have htext := h.text_eq
    rw [nil_append] at htext h
    rwa [htext] at h
  | cons l ls ih =>
    cases h with
    | cons _ _ hr => exact ih hr

theorem Lexed.take (hb : isBarrier b = true) (h : Lexed s (ls ++ ls'))
    (hls : (ls.map Prod.fst).flatten = x ++ [b]) : Lexed (x ++ [b]) ls := by
  induction ls generalizing s x with
  | nil => exact absurd hls.symm (by simp)
  | cons l ls ih =>
    cases h with
    | @cons w r t _ hw hruns hr =>
      replace hr : Lexed r (ls ++ ls') := hr
      rw [map_cons, flatten_cons] at hls
      rw [← hls]
      cases ls with
      | nil => exact .cons hw (runsInto_nil _ _) .nil
      | cons l' ls =>
        -- the rest ends with the byte, and nothing behind it matters to what stands before it
        have hne : ((l' :: ls).map Prod.fst).flatten ≠ [] := by
          cases hr with
          | cons hw' _ _ => simp [hw'.ne_nil]
        obtain ⟨y, hy⟩ := exists_concat_of_append hls hne
        have hrest : r = y ++ b :: (ls'.map Prod.fst).flatten := by
          rw [hr.text_eq, map_append, flatten_append, hy, append_assoc,
            singleton_append]
        refine .cons hw ?_ (hy ▸ ih hr hy)
        rw [hy, runsInto_barrier hb t.kind w y [] (ls'.map Prod.fst).flatten, ← hrest, hruns]

/-- A text that ends with a byte that no lexeme goes on behind can be followed by another one, if that
does not run into its last lexeme. -/
theorem Lexed.append (hb : isBarrier b = true) (h : Lexed (x ++ [b]) ls) (h' : Lexed s' ls')
    (hlast : ∀ l ∈ ls.getLast?, runsInto l.2.kind l.1 s' = false) : Lexed (x ++ b :: s') (ls ++ ls') := by
  generalize hs : x ++ [b] = s at h
  induction h generalizing x with
  | nil => exact absurd hs (by simp)
  | @cons w r t ls hw hruns hr ih =>
    have htext : x ++ b :: s' = w ++ (r ++ s') := by
      rw [← append_assoc, ← hs, append_assoc, singleton_append]
    rw [htext]
    cases hr with
    | nil => exact .cons hw (hlast (w, t) rfl) h'
    | @cons w' r' t' ls hw' hruns' hr' =>
      obtain ⟨y, hy⟩ := exists_concat_of_append hs.symm (by simp [hw'.ne_nil])
      have hrest := ih hlast hy.symm
      have hsplit : y ++ b :: s' = w' ++ r' ++ s' := by
        rw [hy, append_assoc, singleton_append]
      refine .cons hw ?_ (hsplit ▸ hrest)
      rw [← hsplit, runsInto_barrier hb t.kind w y s' [], ← hy, hruns]

theorem Lexed.exchange {w' : Bytes} {t' : Token} (h : Lexed s (ls ++ (w, t) :: ls')) (hw : Lexeme w' t')
    (hkind : t'.kind = .string) (hb : isBarrier b = true) (hstart : w.head? = some b)
    (hstart' : w'.head? = some b) :
    Lexed ((ls.map Prod.fst).flatten ++ (w' ++ (ls'.map Prod.fst).flatten)) (ls ++ (w', t') :: ls') := by
  induction ls generalizing s with
  | nil =>
    cases h with
    | cons _ _ hr =>
      rw [hr.text_eq] at hr
      refine .cons hw ?_ hr
      rw [hkind]
      rfl
  | cons l ls ih =>
    cases h with
    | @cons v r u _ hv hruns hr =>
      replace hr : Lexed r (ls ++ (w, t) :: ls') := hr
      rw [map_cons, flatten_cons, append_assoc]
      refine .cons hv ?_ (ih hr)
      obtain ⟨x, rfl⟩ := head?_eq_some_iff.mp hstart
      obtain ⟨x', rfl⟩ := head?_eq_some_iff.mp hstart'
      rw [← hruns, hr.text_eq, map_append, flatten_append, map_cons, flatten_cons,
        cons_append, cons_append]
      exact runsInto_barrier hb _ _ _ _ _

end Texts

/-! ### Line ends -/

theorem Lexeme.isText_newline (h : Lexeme w t) (hk : t.kind = .newline) :
    w = [10] ∨ w = [13] ∨ w = [13, 10] := by
  cases h with
  | comment | bracket | quoted => cases hk
  | plain hcomment hbracket hquote hfirst =>
    obtain rfl : _ = TokenKind.newline := hk
    exact isText_of_firstMatch hfirst

theorem Lexeme.exists_barrier (h : Lexeme w t) (hk : t.kind = .newline) :
    ∃ x b, w = x ++ [b] ∧ isBarrier b = true := by
  obtain rfl | rfl | rfl := h.isText_newline hk
  · exact ⟨[], 10, rfl, by decide⟩
  · exact ⟨[], 13, rfl, by decide⟩
  · exact ⟨[13], 10, rfl, by decide⟩

namespace ReadAs

variable {s s' : Bytes} {ts ts' : List Token} {t : Token}

theorem nil : ReadAs [] [] := ⟨[], .nil, rfl⟩

theorem written (h : ReadAs s ts) : Lexed (written ts) (ts.map fun t => (t.code, t)) := by
  obtain ⟨ls, hls, rfl⟩ := h
  have hechoed := hls.echoed
  rw [flatten_echoed] at hechoed
  rw [map_map]
  exact hechoed

theorem of_written (h : Lexed (Lua.written ts) (ts.map fun t => (t.code, t))) :
    ReadAs (Lua.written ts) ts :=
  ⟨_, h, by simp [Function.comp_def]⟩

theorem append (h : ReadAs s ts) (h' : ReadAs s' ts') (hlast : ts.getLast? = some t)
    (hkind : t.kind = .newline) (hdata : t.data ≠ [13]) : ReadAs (s ++ s') (ts ++ ts') := by
  obtain ⟨ls, hls, rfl⟩ := h
  obtain ⟨ls', hls', rfl⟩ := h'
  rw [getLast?_map, Option.map_eq_some_iff] at hlast
  obtain ⟨⟨w, t⟩, hget, rfl⟩ := hlast
  obtain ⟨ls₀, rfl⟩ := getLast?_eq_some_iff.mp hget
  have hw : Lexeme w t := by
    have hlexed := hls.drop
    generalize (([(w, t)] : List (Bytes × Token)).map Prod.fst).flatten = v at hlexed
    cases hlexed with
    | cons hw _ _ => exact hw
  obtain ⟨x, b, rfl, hb⟩ := hw.exists_barrier hkind
  have htext := hls.text_eq
  rw [map_append, flatten_append, map_cons, map_nil, flatten_singleton,
    ← append_assoc] at htext
  refine ⟨ls₀ ++ [(x ++ [b], t)] ++ ls', ?_, by simp⟩
  rw [htext, append_assoc _ [b], singleton_append]
  refine Lexed.append hb (htext ▸ hls) hls' fun l hl => ?_
  rw [getLast?_concat, Option.mem_some_iff] at hl
  have hne : (x ++ [b] == [13]) = false := by
    rw [hw.eq_data_of_newline hkind]
    exact beq_false_of_ne hdata
  rw [← hl, hkind, runsInto, hne, Bool.false_and]

theorem split (h : ReadAs s (ts ++ t :: ts')) (ht : t.kind = .newline) :
    ReadAs (Lua.written (ts ++ [t])) (ts ++ [t]) ∧ ReadAs (Lua.written ts') ts' := by
  have hlexed := h.written
  have hall : ts ++ t :: ts' = ts ++ [t] ++ ts' := by rw [append_assoc, singleton_append]
  rw [hall, map_append] at hlexed
  have hrest := hlexed.drop
  have htext : ∀ us : List Token, ((us.map fun t => (t.code, t)).map Prod.fst).flatten = Lua.written us := by
    intro us
    rw [map_map]
    rfl
  obtain ⟨w, hw⟩ := hlexed.exists_lexeme (t := t) (by simp)
  obtain ⟨x, b, hcode, hb⟩ := hw.code.exists_barrier ht
  have hwritten : Lua.written (ts ++ [t]) = Lua.written ts ++ x ++ [b] := by
    simp [Lua.written, hcode]
  have hfirst := hlexed.take hb ((htext _).trans hwritten)
  rw [htext] at hrest
  rw [← hwritten] at hfirst
  exact ⟨of_written hfirst, of_written hrest⟩

theorem echoFrom {pre : List Token} (h : ReadAs s (pre ++ ts)) :
    ∃ tss, Forall₂ ReadAs (Stream.echoFrom (pre.map Token.code).reverse ts) tss ∧
      tss.flatten = pre ++ ts := by
  induction ts generalizing pre s with
  | nil =>
    rw [append_nil] at h ⊢
    rw [Stream.echoFrom, isEmpty_reverse, isEmpty_map]
    cases pre with
    | nil => exact ⟨[], .nil, rfl⟩
    | cons u pre =>
      refine ⟨[u :: pre], .cons ?_ .nil, flatten_singleton⟩
      rw [reverse_reverse]
      exact of_written h.written
  | cons t ts ih =>
    rw [Stream.echoFrom]
    split
    · next hk =>
      obtain ⟨hline, hrest⟩ := h.split (eq_of_beq hk)
      rw [← nil_append ts] at hrest
      obtain ⟨tss, htss, hflat⟩ := ih hrest
      refine ⟨(pre ++ [t]) :: tss, .cons ?_ htss, by simp [hflat]⟩
      have hpiece : (t.code :: (pre.map Token.code).reverse).reverse.flatten = Lua.written (pre ++ [t]) := by
        simp [Lua.written]
      rwa [hpiece]
    · have hpre : t.code :: (pre.map Token.code).reverse = ((pre ++ [t]).map Token.code).reverse := by simp
      rw [hpre]
      rw [← singleton_append, ← append_assoc] at h
      obtain ⟨tss, htss, hflat⟩ := ih h
      exact ⟨tss, htss, by rw [hflat, append_assoc, singleton_append]⟩

theorem echo (h : ReadAs s ts) :
    ∃ tss, Forall₂ ReadAs (Stream.echo ts) tss ∧ tss.flatten = ts := by
  rw [← nil_append ts] at h
  exact h.echoFrom

end ReadAs

/-! ### Reading pieces -/

namespace Scanner

theorem chunks_of_readAs (h : Forall₂ ReadAs pieces tss) {sc : Scanner} (hcode : sc.mode = .code) :
    ∃ sc', sc.chunks pieces = (sc', none) ∧ sc'.mode = .code ∧
      sc'.tokens.toList.map Token.unplaced = sc.tokens.toList.map Token.unplaced ++ tss.flatten := by
  induction h generalizing sc with
  | nil => exact ⟨sc, rfl, hcode, by simp⟩
  | @cons s ts pieces tss hs _ ih =>
    obtain ⟨ls, hls, rfl⟩ := hs
    obtain ⟨hreads, hcode'⟩ := (reads_iff_lexed hcode s).mpr ⟨ls, hls, rfl⟩
    obtain ⟨sc', hchunks, hmode, htokens⟩ := ih hcode'
    refine ⟨sc', ?_, hmode, ?_⟩
    · rw [chunks, chunk_eq_iff.mpr hreads]
      exact hchunks
    · rw [htokens, unplaced_passedAll hls, flatten_cons, append_assoc]

theorem feed_of_readAs (h : Forall₂ ReadAs pieces tss) :
    ∃ sc, feed {} pieces = (sc, none) ∧ sc.tokens.toList.map Token.unplaced = tss.flatten := by
  obtain ⟨sc, hchunks, hmode, htokens⟩ : ∃ sc, chunks {} pieces = (sc, none) ∧ sc.mode = .code ∧
      sc.tokens.toList.map Token.unplaced = [] ++ tss.flatten := chunks_of_readAs h rfl
  refine ⟨sc, ?_, htokens⟩
  rw [feed, feedFrom, hchunks]
  exact congrArg (Prod.mk sc) (unclosed_eq_none_iff.mpr hmode)

end Scanner

theorem Program.ofLines_of_readAs (h : Forall₂ ReadAs pieces tss) (v : Int) :
    ∃ sc, sc.tokens.toList.map Token.unplaced = tss.flatten ∧
      Program.ofLines v pieces = (Tree.ofTokens sc.tokens).map fun t =>
        { version := v, scanner := sc, root := t } := by
  obtain ⟨sc, hfeed, htokens⟩ := Scanner.feed_of_readAs h
  exact ⟨sc, htokens, by rw [Program.ofLines_eq, hfeed]⟩

end Cartridge.Lua
