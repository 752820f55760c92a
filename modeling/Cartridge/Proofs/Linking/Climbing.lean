import Cartridge.Linking.Package
import Cartridge.Proofs.Text.Cut

/-!
# Names that lead out of the load path

A name is refused if it has a slash behind a dot or at its start.  So no slash of an accepted name ends a
component `..`, wherever the name is put into a pattern.  But the end of the name is not looked at: what is
put together there with the rest of a pattern can be `..` after all.
-/

namespace Cartridge

open List

/-! ### Components -/

namespace Path

variable {a b p q s x y : List Char}

theorem piecesFrom_append (sep : Char) (current a b : List Char) :
    piecesFrom sep current (a ++ sep :: b) = piecesFrom sep current a ++ pieces sep b := by
  induction a generalizing current with
  | nil => simp [piecesFrom, pieces]
  | cons c a ih =>
    rw [cons_append, piecesFrom, piecesFrom]
    split
    · rw [ih, cons_append]
    · rw [ih]

theorem components_append (a b : List Char) : components (a ++ '/' :: b) = components a ++ components b :=
  piecesFrom_append '/' [] a b

theorem components_eq_self (h : '/' ∉ a) : components a = [a] := by
  have hfrom : ∀ current, piecesFrom '/' current a = [current.reverse ++ a] := by
    induction a with
    | nil => simp [piecesFrom]
    | cons c a ih =>
      intro current
      rw [mem_cons, not_or] at h
      rw [piecesFrom, if_neg (Ne.symm h.1), ih h.2]
      simp
  exact hfrom []

theorem path_induction {motive : List Char → Prop} (last : ∀ q, '/' ∉ q → motive q)
    (step : ∀ q rest, '/' ∉ q → motive rest → motive (q ++ '/' :: rest)) (p : List Char) : motive p := by
  by_cases h : '/' ∈ p
  · obtain ⟨q, rest, hp, hq⟩ := eq_append_cons_of_mem h
    have hshorter : rest.length < p.length := by
      rw [hp, length_append, length_cons]
      omega
    rw [hp]
    exact step q rest hq (path_induction last step rest)
  · exact last p h
termination_by p.length

def up : List Char := ['.', '.']

def NoDotSlash (s : List Char) : Prop := ∀ a b, s = a ++ '/' :: b → a.getLast? ≠ some '.'

def Inner (s : List Char) : Prop := ∀ a b, s = a ++ '/' :: b → ∃ c, a.getLast? = some c ∧ c ≠ '.'

theorem Inner.noDotSlash (h : Inner s) : NoDotSlash s := by
  intro a b hs hlast
  obtain ⟨c, hc, hne⟩ := h a b hs
  rw [hc] at hlast
  exact hne (Option.some.inj hlast)

theorem inner_of_not_mem (h : '/' ∉ s) : Inner s := by
  rintro a b rfl
  exact absurd mem_append_cons_self h

theorem Inner.append (hx : Inner x) (hy : Inner y) : Inner (x ++ y) := by
  intro a b h
  rcases append_eq_append_iff.mp h with ⟨a', rfl, hy'⟩ | ⟨b', hx', hb⟩
  · obtain ⟨c, hc, hne⟩ := hy a' b hy'
    exact ⟨c, by rw [getLast?_append, hc]; rfl, hne⟩
  · cases b' with
    | nil =>
      rw [append_nil] at hx'
      subst hx'
      obtain ⟨c, hc, -⟩ := hy [] b hb.symm
      cases hc
    | cons d b' =>
      obtain ⟨rfl, -⟩ := cons.inj hb
      exact hx a b' hx'

theorem NoDotSlash.of_append (h : NoDotSlash (x ++ '/' :: y)) : NoDotSlash y := by
  rintro a b rfl hlast
  refine h (x ++ '/' :: a) b (by simp) ?_
  rw [getLast?_append, getLast?_cons, hlast]
  rfl

theorem baseName_eq_self (h : '/' ∉ p) : baseName p = p := by
  have hall : ∀ c ∈ p.reverse, (c != '/') = true := by
    intro c hc
    rw [bne_iff_ne]
    rintro rfl
    exact h (mem_reverse.mp hc)
  have htake : (p.reverse ++ []).takeWhile (· != '/') = p.reverse ++ [].takeWhile (· != '/') :=
    takeWhile_append_of_pos hall
  rw [append_nil, takeWhile_nil, append_nil] at htake
  rw [baseName, htake, reverse_reverse]

theorem baseName_append (q p : List Char) : baseName (q ++ '/' :: p) = baseName p := by
  have htake : ∀ l : List Char, (l ++ '/' :: q.reverse).takeWhile (· != '/') = l.takeWhile (· != '/') := by
    intro l
    induction l with
    | nil => rfl
    | cons c l ih => rw [cons_append, takeWhile_cons, takeWhile_cons, ih]
  rw [baseName, reverse_append, reverse_cons, append_assoc, singleton_append, htake,
    baseName]

theorem up_mem_components_iff (h : NoDotSlash s) : up ∈ components s ↔ baseName s = up := by
  induction s using path_induction with
  | last q hq => rw [components_eq_self hq, baseName_eq_self hq, mem_singleton, eq_comm]
  | step q rest hq ih =>
    have hne : up ≠ q := by
      rintro rfl
      exact h up rest rfl rfl
    rw [components_append, components_eq_self hq, baseName_append, ← ih h.of_append]
    simp [hne]

theorem facts_of_mem_components (hq : q ∈ components s) : '/' ∉ q ∧ ∀ c ∈ q, c ∈ s := by
  induction s using path_induction with
  | last s hs =>
    rw [components_eq_self hs, mem_singleton] at hq
    subst hq
    exact ⟨hs, fun _ hc => hc⟩
  | step s rest hs ih =>
    rw [components_append, components_eq_self hs, singleton_append, mem_cons] at hq
    rcases hq with rfl | hq
    · exact ⟨hs, fun _ hc => mem_append_left _ hc⟩
    · exact ⟨(ih hq).1, fun c hc => mem_append_right _ (mem_cons_of_mem _ ((ih hq).2 c hc))⟩

theorem up_mem_components_of_directory (h : up ∈ components (directory p)) : up ∈ components p := by
  have hdot : '.' ∈ directory p := (facts_of_mem_components h).2 '.' (by decide)
  have hne : ∀ l : List Char, '/' ∉ l → ∀ c ∈ l, (c != '/') = true := by
    intro l hl c hc
    rw [bne_iff_ne]
    rintro rfl
    exact hl hc
  by_cases hslash : '/' ∈ p.reverse
  · obtain ⟨base, x, hp, hbase⟩ := eq_append_cons_of_mem hslash
    have hhead : p.reverse.dropWhile (· != '/') = '/' :: x := by
      rw [hp, dropWhile_append_of_pos (hne base hbase)]
      rfl
    rw [directory, hhead] at h hdot
    split at h
    · next hall =>
      rw [if_pos hall] at hdot
      have hall := all_eq_true.mp hall '.' hdot
      cases hall
    · -- what is dropped in front of the last component are slashes
      obtain ⟨rest, hrest⟩ : ∃ rest, p = (('/' :: x).dropWhile (· == '/')).reverse ++ '/' :: rest := by
        have hx := takeWhile_append_dropWhile (p := (· == '/')) (l := x)
        have hp' : p = (x.dropWhile (· == '/')).reverse ++ ((x.takeWhile (· == '/')).reverse ++
            '/' :: base.reverse) := by
          rw [← reverse_reverse p, hp, ← append_assoc, ← reverse_append, hx]
          simp
        rw [dropWhile_cons_of_pos rfl]
        cases hslashes : (x.takeWhile (· == '/')).reverse with
        | nil => exact ⟨base.reverse, by rw [hslashes] at hp'; exact hp'⟩
        | cons c slashes =>
          have hc : c ∈ x.takeWhile (· == '/') := by
            rw [← mem_reverse, hslashes]
            exact mem_cons_self
          obtain rfl : c = '/' := eq_of_beq (all_eq_true.mp all_takeWhile c hc)
          exact ⟨slashes ++ '/' :: base.reverse, by rw [hslashes] at hp'; exact hp'⟩
      rw [hrest, components_append]
      exact mem_append_left _ h
  · have hhead : p.reverse.dropWhile (· != '/') = [] := by
      have hdrop : (p.reverse ++ []).dropWhile (· != '/') = [] := dropWhile_append_of_pos (hne _ hslash)
      rwa [append_nil] at hdrop
    rw [directory, hhead] at hdot
    cases hdot

theorem up_mem_components_join_iff (h : up ∉ components a) :
    up ∈ components (join a b) ↔ up ∈ components b := by
  rw [join]
  split
  · exact Iff.rfl
  split
  · next hlast =>
    obtain ⟨d, rfl⟩ := getLast?_eq_some_iff.mp hlast
    rw [components_append, mem_append, not_or] at h
    rw [append_assoc, singleton_append, components_append, mem_append]
    exact or_iff_right h.1
  · rw [components_append, mem_append]
    exact or_iff_right h

end Path

namespace Linking

open Cartridge.Path LoadPath

variable {n p : List Char}

theorem fill_append (n p q : List Char) : fill n (p ++ q) = fill n p ++ fill n q := flatMap_append

theorem fill_eq_self (h : '?' ∉ p) : fill n p = p := by
  induction p with
  | nil => rfl
  | cons c p ih =>
    rw [mem_cons, not_or] at h
    rw [fill, flatMap_cons, if_neg (Ne.symm h.1)]
    exact congrArg (c :: ·) (ih h.2)

theorem inner_fill (hn : Inner n) (hp : '/' ∉ p) : Inner (fill n p) := by
  induction p with
  | nil => exact inner_of_not_mem not_mem_nil
  | cons c p ih =>
    rw [mem_cons, not_or] at hp
    rw [fill, flatMap_cons]
    refine Inner.append ?_ (ih hp.2)
    split
    · exact hn
    · exact inner_of_not_mem (by simpa using hp.1)

theorem up_mem_components_fill_iff (hn : Inner n) :
    up ∈ components (fill n p) ↔ ∃ q ∈ components p, baseName (fill n q) = up := by
  induction p using path_induction with
  | last q hq =>
    rw [up_mem_components_iff (inner_fill hn hq).noDotSlash, components_eq_self hq]
    simp
  | step q rest hq ih =>
    have hslash : fill n ('/' :: rest) = '/' :: fill n rest := rfl
    rw [fill_append, hslash, components_append, components_append, mem_append, ih,
      up_mem_components_iff (inner_fill hn hq).noDotSlash, components_eq_self hq]
    simp

theorem eq_flatMap_of_nameText {name : Bytes} {s : String} (hs : nameText name = .ok s) :
    name = s.toList.flatMap String.utf8EncodeChar := by
  unfold nameText String.fromUTF8? at hs
  split at hs
  · next t ht =>
    cases hs
    split at ht
    · cases ht
      have hencode := congrArg ByteArray.data
        (String.utf8Encode_toList (b := String.fromUTF8 ⟨name.toArray⟩ ‹_›))
      rw [utf8Encode, data_toByteArray] at hencode
      exact (congrArg Array.toList hencode).symm
    · cases ht
  · cases hs

theorem inner_of_accepted {name : Bytes} {s : String} (hs : nameText name = .ok s)
    (hname : leavesPath name = false) : Inner s.toList := by
  have hbytes := eq_flatMap_of_nameText hs
  have hslash : String.utf8EncodeChar '/' = [47] := rfl
  have hdot : String.utf8EncodeChar '.' = [46] := rfl
  rw [leavesPath, Bool.or_eq_false_iff] at hname
  intro a b hsplit
  rw [hsplit, flatMap_append, flatMap_cons, hslash] at hbytes
  cases hlast : a.getLast? with
  | none =>
    rw [getLast?_eq_none_iff.mp hlast] at hbytes
    rw [hbytes] at hname
    cases hname.2
  | some c =>
    refine ⟨c, rfl, ?_⟩
    rintro rfl
    obtain ⟨front, rfl⟩ := getLast?_eq_some_iff.mp hlast
    have hholds : Bytes.holds (Bytes.ofText "./") name = true := by
      rw [Bytes.holds_iff, hbytes, flatMap_append, flatMap_singleton, hdot]
      exact ⟨front.flatMap String.utf8EncodeChar, b.flatMap String.utf8EncodeChar, by simp; rfl⟩
    rw [hholds] at hname
    cases hname.1

theorem baseName_infix {q : List Char} (hq : '/' ∉ q) (hmark : '?' ∈ q) :
    baseName n <:+: baseName (fill n q) := by
  obtain ⟨b, a, hsplit, hb⟩ := eq_append_cons_of_mem (mem_reverse.mpr hmark)
  have hq' : q = a.reverse ++ '?' :: b.reverse := by
    rw [← reverse_reverse q, hsplit]
    simp
  have hrest : fill n b.reverse = b.reverse := fill_eq_self fun h => hb (mem_reverse.mp h)
  have hslash : ∀ c ∈ b, (c != '/') = true := by
    intro c hc
    rw [bne_iff_ne]
    rintro rfl
    exact hq (by simp [hq', hc])
  have hfill : (fill n q).reverse = b ++ (n.reverse ++ (fill n a.reverse).reverse) := by
    have hcons : fill n ('?' :: b.reverse) = n ++ fill n b.reverse := rfl
    rw [hq', fill_append, hcons, hrest]
    simp
  have hend : n.reverse.takeWhile (· != '/') <+:
      (n.reverse ++ (fill n a.reverse).reverse).takeWhile (· != '/') := by
    rw [takeWhile_append]
    split
    · exact (List.takeWhile_prefix _).trans (prefix_append _ _)
    · exact prefix_rfl
  obtain ⟨r, hr⟩ := hend
  rw [baseName, baseName, hfill, takeWhile_append_of_pos hslash, ← hr]
  exact ⟨r.reverse, b.reverse, by simp⟩

theorem mem_of_infix_up (h : n <:+: up) : n ∈ [[], ['.'], up] := by
  simp only [up, infix_cons_iff, prefix_cons_iff, infix_nil, prefix_nil] at h
  grind [up]

theorem up_mem_candidate_iff (hn : Inner n) {file : List Char} (hfile : up ∉ components file) :
    up ∈ components (join (directory file) (fill n p)) ↔ ∃ q ∈ components p, baseName (fill n q) = up := by
  rw [up_mem_components_join_iff fun h => hfile (up_mem_components_of_directory h),
    up_mem_components_fill_iff hn]

/-- **The candidates that lead up.**  A candidate for an accepted name leads up exactly if the name makes
`..` of the end of a component of its pattern.  So no candidate does if the name ends in another component
than an empty one, `.` and `..`, and the load path does not lead up itself. -/
theorem up_mem_candidates_iff {name : Bytes} {s : String} (hs : nameText name = .ok s)
    (hname : leavesPath name = false) {file : List Char} (hfile : up ∉ components file) (l : LoadPath) :
    ((∃ c ∈ l.candidates s.toList file, up ∈ components c) ↔
        ∃ p ∈ l.patterns, ∃ q ∈ components p, baseName (fill s.toList q) = up) ∧
      ((∀ p ∈ l.patterns, up ∉ components p) → baseName s.toList ∉ [[], ['.'], up] →
        ∀ c ∈ l.candidates s.toList file, up ∉ components c) := by
  have hinner := inner_of_accepted hs hname
  constructor
  · constructor
    · rintro ⟨c, hc, hup⟩
      obtain ⟨p, hp, rfl⟩ := List.mem_map.mp hc
      exact ⟨p, hp, (up_mem_candidate_iff hinner hfile).mp hup⟩
    · rintro ⟨p, hp, hq⟩
      exact ⟨_, List.mem_map_of_mem hp, (up_mem_candidate_iff hinner hfile).mpr hq⟩
  · intro hpatterns hend c hc hup
    obtain ⟨p, hp, rfl⟩ := List.mem_map.mp hc
    obtain ⟨q, hq, hbase⟩ := (up_mem_candidate_iff hinner hfile).mp hup
    have hslash : '/' ∉ q := (facts_of_mem_components hq).1
    by_cases hmark : '?' ∈ q
    · have hinfix := baseName_infix (n := s.toList) hslash hmark
      rw [hbase] at hinfix
      exact hend (mem_of_infix_up hinfix)
    · rw [fill_eq_self hmark, baseName_eq_self hslash] at hbase
      exact hpatterns p hp (hbase ▸ hq)

theorem up_mem_candidates_sample :
    nameText (Bytes.ofText "a/b") = .ok "a/b" ∧ leavesPath (Bytes.ofText "a/b") = false ∧
      up ∉ components "d/m.lua".toList ∧
      ∀ c ∈ ({} : LoadPath).candidates "a/b".toList "d/m.lua".toList, up ∉ components c := by
  have hs : nameText (Bytes.ofText "a/b") = .ok "a/b" := rfl
  have hname : leavesPath (Bytes.ofText "a/b") = false := by decide +kernel
  have hfile : up ∉ components "d/m.lua".toList := by decide +kernel
  exact ⟨hs, hname, hfile,
    (up_mem_candidates_iff hs hname hfile {}).2 (by decide +kernel) (by decide +kernel)⟩

/-- The name `..` is accepted, and leads up by the standard load path. -/
theorem candidate_of_up :
    leavesPath (Bytes.ofText "..") = false ∧ nameText (Bytes.ofText "..") = .ok ".." ∧
      (∀ p ∈ ({} : LoadPath).patterns, up ∉ components p) ∧ up ∉ components "d/m.lua".toList ∧
      ∃ c ∈ ({} : LoadPath).candidates "..".toList "d/m.lua".toList, up ∈ components c :=
  ⟨by decide +kernel, rfl, by decide +kernel, by decide +kernel, by decide +kernel⟩

end Linking
end Cartridge
