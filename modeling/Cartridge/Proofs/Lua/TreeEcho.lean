import Cartridge.Proofs.Lua.Covered
import Cartridge.Proofs.Lua.Retraced

/-!
# Writing a program from its tree

A program that ends in a newline can be written from its tree and from its tokens.  The two texts are
the same if the tree is legible.
-/

namespace Cartridge.Lua

theorem Grammar.Whole.write_of_legible {toks : Array Token} {root : Tree} {stop : Nat}
    (h : Grammar.Whole toks root stop) (hlegible : root.legible toks = true) :
    (root.write {} toks).failure = none ∧
      (root.write {} toks).lines.flatten = Pen.sourceText toks.toList := by
  have hfollows := (h.derived.inStep h.regular h.lt_size).follows hlegible
  exact Tree.write_of_traces (hfollows.traces (Nat.zero_le stop)) h.blank

/-- **A program with a legible tree is written from its tree as from its tokens**, without a failure:
one that ends in a newline, and whose tree reaches all words. -/
theorem Program.write_tree_of_legible {v : Int} {pieces : List Bytes} (hcut : LineCut pieces)
    {p : Program} (hp : Program.ofLines v pieces = .ok p)
    (hlast : pieces.flatten.getLast? = some Bytes.newline) (hcovered : p.isCovered = true)
    (hlegible : p.root.legible p.tokens = true) :
    (p.write (.tree {})).failure = none ∧
      (p.write (.tree {})).lines.flatten = (p.write .echo).lines.flatten := by
  obtain ⟨stop, hwhole⟩ := Program.exists_whole hcut hp hlast hcovered
  obtain ⟨hfailure, htext⟩ := hwhole.write_of_legible hlegible
  refine ⟨hfailure, htext.trans ?_⟩
  show Pen.sourceText p.tokens.toList = (Stream.echo p.tokens.toList).flatten
  rw [flatten_echo]
  rfl

def treeEchoSample : List Bytes :=
  [Bytes.ofText "if (f) f:y's' else goto a\n", Bytes.ofText "::a:: (f)[1] = {(i); k=nil,} ; -- x\n"]

theorem Program.write_tree_of_legible_sample : ∃ p, Program.ofLines 8 treeEchoSample = .ok p ∧
    p.root.legible p.tokens = true ∧ (p.write (.tree {})).failure = none ∧
    (p.write (.tree {})).lines.flatten = (p.write .echo).lines.flatten := by
  have hcut : LineCut treeEchoSample := by unfold LineCut; decide
  have hsample : (Program.ofLines 8 treeEchoSample).toOption.map
      (fun p => p.isCovered && p.root.legible p.tokens) = some true := by
    decide +kernel
  cases h : Program.ofLines 8 treeEchoSample with
  | error e =>
    rw [h] at hsample
    cases hsample
  | ok p =>
    rw [h] at hsample
    obtain ⟨hcovered, hlegible⟩ := Bool.and_eq_true_iff.mp (Option.some.inj hsample)
    exact ⟨p, rfl, hlegible,
      Program.write_tree_of_legible hcut h (by decide +kernel) hcovered hlegible⟩

theorem Program.write_tree_bracketed : (Program.ofLines 8 [Bytes.ofText "x=(a).b\n"]).toOption.map
    (fun p => (p.isCovered, (p.write (.tree {})).failure, (p.write .echo).lines)) =
      some (true, some .unmetCondition, [Bytes.ofText "x=(a).b\n"]) := by
  decide +kernel

end Cartridge.Lua
