import Cartridge.Lua.Grammar
import Cartridge.Proofs.Lua.WholeText

/-!
# Trees without places

The grammar reads kinds and texts of tokens only.  So what it makes of tokens is seen best when their
places are forgotten.
-/

namespace Cartridge.Lua

/-! ### Trees without places -/

abbrev Token.Same (t t' : Token) : Prop := t'.unplaced = t.unplaced

namespace Tree

mutual

def unplaced : Tree → Tree
  | .node k fs o => .node k (unplacedAll fs) o
  | .token t => .token t.unplaced
  | .list ts => .list (unplacedAll ts)
  | .label b => .label b
  | .truth b => .truth b
  | .absent => .absent

def unplacedAll : List Tree → List Tree
  | [] => []
  | t :: ts => t.unplaced :: unplacedAll ts

end

theorem unplacedAll_eq_map : ∀ ts : List Tree, unplacedAll ts = ts.map unplaced
  | [] => rfl
  | t :: ts => congrArg (t.unplaced :: ·) (unplacedAll_eq_map ts)

abbrev Same (t t' : Tree) : Prop := t'.unplaced = t.unplaced

@[simp] theorem unplaced_node (k : NodeKind) (fs : List Tree) (o : Origin) :
    (node k fs o).unplaced = .node k (fs.map unplaced) o :=
  congrArg (node k · o) (unplacedAll_eq_map fs)

@[simp] theorem unplaced_list (ts : List Tree) : (list ts).unplaced = .list (ts.map unplaced) :=
  congrArg list (unplacedAll_eq_map ts)

@[simp] theorem unplaced_token (t : Token) : (token t).unplaced = .token t.unplaced := rfl

@[simp] theorem unplaced_label (b : Bytes) : (label b).unplaced = .label b := rfl

@[simp] theorem unplaced_absent : absent.unplaced = .absent := rfl

theorem stop?_unplaced (t : Tree) : t.unplaced.stop? = t.stop? := by
  cases t <;> rfl

end Tree

/-! ### Words -/

def Pattern.isSolid : Pattern → Bool
  | .kind k => k != .general && !k.isGap
  | .exact t => !t.isGap

class Pattern.Solid (p : Pattern) : Prop where
  isSolid : p.isSolid = true

instance (w : String) : (Pattern.exact (.keyword w)).Solid := ⟨rfl⟩

instance (s : String) : (Pattern.exact (.symbol s)).Solid := ⟨rfl⟩

instance : (Pattern.kind .name).Solid := ⟨rfl⟩

instance : (Pattern.kind .number).Solid := ⟨rfl⟩

instance : (Pattern.kind .string).Solid := ⟨rfl⟩

instance : (Pattern.kind .label).Solid := ⟨rfl⟩

theorem Pattern.not_fits_of_isGap {p : Pattern} (hp : p.isSolid = true) {t : Token}
    (ht : t.isGap = true) : t.fits p = false := by
  cases p with
  | kind k =>
    cases k <;> simp_all [Pattern.isSolid, Token.fits, Token.isGap, TokenKind.isGap] <;>
      rintro h <;> simp [h] at ht
  | exact u =>
    have hne : t.kind ≠ u.kind := by
      intro h
      simp_all [Pattern.isSolid, Token.isGap]
    simp [Token.fits, Token.agrees, hne]

theorem Token.Same.fits {t t' : Token} (h : Token.Same t t') (p : Pattern) :
    t'.fits p = t.fits p := by
  have hkind : t'.kind = t.kind := (congrArg Token.kind h :)
  have hdata : t'.data = t.data := (congrArg Token.data h :)
  cases p with
  | kind k => cases k <;> simp [Token.fits, hkind]
  | exact u => simp [Token.fits, Token.agrees, hkind, hdata]

theorem Token.Same.isGap {t t' : Token} (h : Token.Same t t') : t'.isGap = t.isGap :=
  congrArg (fun t => t.kind.isGap) h

namespace Grammar

theorem run_accept (toks : Array Token) (p : Pattern) (c : Cursor) :
    (accept toks p).run c =
      match toks[seek toks p (toks.size - c.pos) c.pos]? with
      | some t =>
          if t.fits p && c.limit.all
              (fun l => decide (seek toks p (toks.size - c.pos) c.pos < l)) then
            .ok (some t, { c with pos := seek toks p (toks.size - c.pos) c.pos + 1 })
          else .ok (none, c)
      | none => .ok (none, c) := by
  have hget : (accept toks p).run c = (match toks[seek toks p (toks.size - c.pos) c.pos]? with
      | some t =>
          if t.fits p && c.limit.all
              (fun l => decide (seek toks p (toks.size - c.pos) c.pos < l)) then do
            set { c with pos := seek toks p (toks.size - c.pos) c.pos + 1 }
            return some t
          else return none
      | none => return none : Parse (Option Token)).run c := rfl
  rw [hget]
  cases toks[seek toks p (toks.size - c.pos) c.pos]? with
  | none => rfl
  | some t =>
    dsimp only
    split <;> rfl

end Grammar
end Cartridge.Lua
