import Cartridge.Proofs.Lua.FirstStatements
import Cartridge.Proofs.Lua.Rows

/-!
# Programs within programs

The tokens of a program that stand within those of another one are read as the same statements: as the
block of a function if `end` follows them, and as the last statements of the program if nothing does.
A gap may stand before them.
-/

namespace Cartridge.Lua

/-! ### Trees without places -/

namespace Tree

mutual

def shape : Tree → Tree
  | .node k fs o => .node k (shapeAll fs) { o with span := none }
  | .token t => .token t.unplaced
  | .list ts => .list (shapeAll ts)
  | .label b => .label b
  | .truth b => .truth b
  | .absent => .absent

def shapeAll : List Tree → List Tree
  | [] => []
  | t :: ts => t.shape :: shapeAll ts

end

theorem shapeAll_eq_map (ts : List Tree) : shapeAll ts = ts.map shape := by
  induction ts with
  | nil => rfl
  | cons t ts ih => rw [shapeAll, ih, List.map_cons]

@[simp] theorem shape_node (k : NodeKind) (fs : List Tree) (o : Origin) :
    (node k fs o).shape = .node k (fs.map shape) { o with span := none } := by
  rw [shape, shapeAll_eq_map]

@[simp] theorem shape_made (k : NodeKind) (fs : List Tree) (start stop : Nat) :
    (made k fs start stop).shape = .node k (fs.map shape) {} :=
  shape_node k fs _

@[simp] theorem shape_list (ts : List Tree) : (list ts).shape = .list (ts.map shape) := by
  rw [shape, shapeAll_eq_map]

@[simp] theorem shape_token (t : Token) : (token t).shape = .token t.unplaced := by rw [shape]

@[simp] theorem shape_absent : absent.shape = .absent := by rw [shape]

mutual

theorem shape_movedBy (d : Shift) : ∀ t : Tree, (t.movedBy d).shape = t.shape
  | .node k fs o => by rw [movedBy, shape, shape, shapeAll_movedAll d fs, Origin.movedBy]
  | .list ts => by rw [movedBy, shape, shape, shapeAll_movedAll d ts]
  | .token _ | .label _ | .truth _ | .absent => rfl

theorem shapeAll_movedAll (d : Shift) : ∀ ts : List Tree, shapeAll (movedAll d ts) = shapeAll ts
  | [] => rfl
  | t :: ts => by rw [movedAll, shapeAll, shapeAll, shape_movedBy d t, shapeAll_movedAll d ts]

end

theorem shape_unplaced (t : Tree) : t.unplaced.shape = t.shape := by
  rw [← movedBy_still, shape_movedBy]

theorem Moved.shape_eq {d : Shift} {t t' : Tree} (h : Moved d t t') : t'.shape = t.shape := by
  rw [← shape_unplaced, h, shape_movedBy]

theorem map_shape_of_moved {d : Shift} {ts ts' : List Tree} (h : List.Forall₂ (Moved d) ts ts') :
    ts'.map shape = ts.map shape := by
  induction h with
  | nil => rfl
  | cons h _ ih => rw [List.map_cons, List.map_cons, Moved.shape_eq h, ih]

theorem Moved.toList_shape_eq {d : Shift} {o o' : Option Tree} (h : Option.Rel (Moved d) o o') :
    o'.toList.map shape = o.toList.map shape := by
  cases h with
  | none => rfl
  | some h => exact congrArg (fun t => [t]) h.shape_eq

end Tree

namespace Grammar

variable {toks toks' : Array Token} {d : Shift}

/-! ### Windows -/

theorem window_of_holds (hold : Holds toks' d.offset (toks.toList.map Token.unplaced))
    (hlead : Blank toks' d.start d.offset)
    (hbehind : ∀ {x : Nat} {t' : Token}, Blank toks' (toks.size + d.offset) x → toks'[x]? = some t' →
      t'.isGap = false → t'.agrees (Token.keyword "end") = true) :
    Window toks toks' d toks.size := by
  refine ⟨Nat.le_refl _, fun {i} hi => ?_, hlead, hbehind, fun {x t} hblank ht _ => ?_,
    fun {i j} htried hi => htried.le_size hi⟩
  · have hget : (toks.toList.map Token.unplaced)[i]? = some toks[i].unplaced := by simp [hi]
    obtain ⟨t', ht', hsame⟩ := hold.getElem? hget
    exact ⟨toks[i], t', Array.getElem?_eq_getElem hi, ht', hsame⟩
  · have hlt := (Array.getElem?_eq_some_iff.mp ht).1
    have hle := hblank.le
    omega

theorem blank_within {stop : Nat} (w : Window toks toks' d toks.size)
    (hblank : Blank toks stop toks.size) : Blank toks' (d.place stop) (toks.size + d.offset) :=
  (w.blank_place stop).trans (w.blank hblank (Nat.le_refl _))

section Within

variable {root : Tree} {stop : Nat} (hroot : Tree.ofTokens toks = .ok root)
  (hstop : root.stop? = some stop) (hblank : Blank toks stop toks.size)
  (w : Window toks toks' d toks.size)
include hroot hstop hblank w

theorem block_within {n : Nat} (hlevel : toks.size < n)
    (hsize : d.start ≤ toks'.size) :
    ∃ t' j, Tree.Moved d root t' ∧ Gives (phrase toks' n .block) d.start (some t') j ∧
      Blank toks' j (toks.size + d.offset) := by
  obtain ⟨j, hgives⟩ := Tree.ofTokens_eq_ok_iff.mp hroot
  have hj : j = stop := by
    obtain ⟨stats, last, k, rfl, -⟩ := (block_gives_iff (Nat.zero_le _)).mp hgives
    exact Option.some.inj hstop
  subst hj
  have hshadows := (phrase_shadows w (toks.size + 1) (k := 0) hlevel).block
  obtain ⟨r, hr, hgives'⟩ := Gives.shadowed (i := 0) hshadows (advances_phrase toks' n) hsize
    hgives hblank.le
  cases hr with
  | some hmoved => exact ⟨_, _, hmoved, hgives', blank_within w hblank⟩

theorem series_within (hsize : toks.size + d.offset ≤ toks'.size) :
    ∃ stats last k j, Series toks' (parts toks') d.start stats k ∧ k ≤ toks'.size ∧
      Ends toks' (parts toks') k last j ∧ Blank toks' j (toks.size + d.offset) ∧
      (stats ++ last.toList).map Tree.shape = root.statements.map Tree.shape := by
  obtain ⟨j, hgives⟩ := Tree.ofTokens_eq_ok_iff.mp hroot
  obtain ⟨stats, last, k, rfl, hseries, hk, hends⟩ := (block_gives_iff (Nat.zero_le _)).mp hgives
  obtain rfl : j = stop := Option.some.inj hstop
  obtain ⟨stats', hstats, hseries'⟩ := Series.shadowed w hsize hseries hk
  obtain ⟨last', hlast, hends'⟩ := Ends.shadowed w hsize hk hends hblank.le
  have hplace := Shift.place_le w.lead.le k
  refine ⟨stats', last', _, _, hseries', by omega, hends', blank_within w hblank, ?_⟩
  rw [List.map_append, Tree.map_shape_of_moved hstats, Tree.Moved.toList_shape_eq hlast, ← List.map_append]
  rfl

end Within
end Grammar
end Cartridge.Lua
