import Cartridge.Proofs.Lua.Parsing
import Mathlib.Data.List.Forall2

/-!
# The content of a program

Names, numerals, strings and labels are the content of a program; all other words belong to the
grammar.  A tree keeps the content in its leaves, in the order of its fields: a jump and a label keep
the bare name.  Walking the tree gives the content of its tokens, each token once and in order.

A row of items mentions what its leaves and phrases mention.  One rule after the other, a tree mentions
what its row does.  Three rules strip their row: two keep a bare name in place of the token, and one
drops a block without statements, which mentions nothing.
-/

namespace Cartridge.Lua

variable {i j m : Nat} {items : List Item} {ps : List Pattern} {s : Category} {t : Token}

inductive Mention where
  | word (t : Token)
  | jump (name : Bytes)
  | label (name : Bytes)
  deriving DecidableEq, Repr

def Token.isContent (t : Token) : Bool :=
  match t.kind with
  | .name | .number | .string | .label => true
  | _ => false

namespace Tree

def mentions (t : Token) : List Mention :=
  match t.kind with
  | .name | .number | .string => [.word t]
  | _ => []

mutual

def content : Tree → List Mention
  | .node .statGoto [.label b] _ => [.jump b]
  | .node .statLabel [.label b] _ => [.label b]
  | .node _ fs _ => contentOf fs
  | .list ts => contentOf ts
  | .token t => mentions t
  | .label _ => []
  | .truth _ => []
  | .absent => []

def contentOf : List Tree → List Mention
  | [] => []
  | t :: ts => t.content ++ contentOf ts

end

theorem contentOf_eq_flatMap : ∀ ts : List Tree, contentOf ts = ts.flatMap content
  | [] => rfl
  | t :: ts => by rw [contentOf, contentOf_eq_flatMap ts, List.flatMap_cons]

@[simp] theorem content_list (ts : List Tree) : (list ts).content = ts.flatMap content := by
  rw [content, contentOf_eq_flatMap]

@[simp] theorem content_token (t : Token) : (token t).content = mentions t := by
  rw [content]

@[simp] theorem content_absent : absent.content = [] := by
  rw [content]

@[simp] theorem content_truth (b : Bool) : (truth b).content = [] := by
  rw [content]

@[simp] theorem content_ofOption (o : Option Tree) :
    (ofOption o).content = o.toList.flatMap content := by
  cases o with
  | none => exact content_absent
  | some t => exact (List.append_nil _).symm

@[simp] theorem content_ofToken? (o : Option Token) :
    (ofToken? o).content = o.toList.flatMap mentions := by
  cases o with
  | none => exact content_absent
  | some t => exact (content_token t).trans (List.append_nil _).symm

theorem content_node {k : NodeKind} (hjump : k ≠ .statGoto) (hlabel : k ≠ .statLabel)
    (fs : List Tree) (o : Origin) : (node k fs o).content = fs.flatMap content := by
  rw [content, contentOf_eq_flatMap]
  · rintro b rfl
    exact absurd rfl hjump
  · rintro b rfl
    exact absurd rfl hlabel

end Tree

def Token.labelName (t : Token) : Bytes := (t.data.take (t.data.length - 2)).drop 2

inductive Stands : Mention → Token → Prop
  | word (t : Token) : Stands (.word t) t
  | jump {t : Token} (h : t.kind = .name) : Stands (.jump t.data) t
  | label {t : Token} (h : t.kind = .label) : Stands (.label t.labelName) t

namespace Grammar

@[simp] theorem content_branch (condition block : Tree) :
    (Grammar.branch condition block).content = condition.content ++ block.content := by
  simp [Grammar.branch]

@[simp] theorem content_made {k : NodeKind} (hjump : k ≠ .statGoto) (hlabel : k ≠ .statLabel)
    (fs : List Tree) (start stop : Nat) :
    (Tree.made k fs start stop).content = fs.flatMap Tree.content :=
  Tree.content_node hjump hlabel fs _

/-! ### Rows -/

def Item.content : Item → List Mention
  | .leaf _ t => Tree.mentions t
  | .part _ t => t.content
  | _ => []

def contentBetween (toks : Array Token) (i j : Nat) : List Token :=
  (between toks i j).filter Token.isContent

def StandsFor (toks : Array Token) (ms : List Mention) (i j : Nat) : Prop :=
  List.Forall₂ Stands ms (contentBetween toks i j)

section Rows

variable {toks : Array Token}

theorem StandsFor.nil (toks : Array Token) (i : Nat) : StandsFor toks [] i i := by
  rw [StandsFor, contentBetween, between_self]
  exact .nil

theorem StandsFor.append {ms ms' : List Mention} {k : Nat} (hik : i ≤ k) (hkj : k ≤ j)
    (h : StandsFor toks ms i k) (h' : StandsFor toks ms' k j) : StandsFor toks (ms ++ ms') i j := by
  rw [StandsFor, contentBetween, ← between_append hik hkj, List.filter_append]
  exact List.rel_append h h'

theorem isContent_of_isGap (h : t.isGap = true) : t.isContent = false := by
  unfold Token.isGap at h
  unfold Token.isContent
  cases hk : t.kind <;> simp_all [TokenKind.isGap]

theorem Takes.contentBetween_eq (h : Takes toks ps i t m) :
    contentBetween toks i (m + 1) = if t.isContent then [t] else [] := by
  have hgap : (between toks i m).filter Token.isContent = [] := by
    rw [List.filter_eq_nil_iff]
    intro u hu
    rw [isContent_of_isGap (h.blank.isGap u hu)]
    exact Bool.false_ne_true
  rw [contentBetween, h.between_eq, List.filter_append, hgap, List.nil_append]
  cases hc : t.isContent <;> simp [hc]

theorem Takes.standsFor_word {ws : List Word} (h : Takes toks (ws.map Word.pattern) i t m) :
    StandsFor toks [] i (m + 1) := by
  have hcontent : t.isContent = false := by
    obtain ⟨p, hp, hfits⟩ := h.fits
    obtain ⟨w, -, rfl⟩ := List.mem_map.mp hp
    have hkind : t.kind = w.token.kind := by
      rw [Word.pattern, Token.fits, Token.agrees, Bool.and_eq_true, beq_iff_eq] at hfits
      exact hfits.1
    rw [Token.isContent, hkind]
    cases w <;> rfl
  rw [StandsFor, h.contentBetween_eq, hcontent]
  exact .nil

theorem Takes.standsFor_of_stands {mention : Mention} (h : Takes toks ps i t m) (hstands : Stands mention t)
    (hcontent : t.isContent = true) : StandsFor toks [mention] i (m + 1) := by
  rw [StandsFor, h.contentBetween_eq, if_pos hcontent]
  exact .cons hstands .nil

theorem Takes.standsFor_leaf (h : Takes toks ps i t m) (hlabel : t.kind ≠ .label) :
    StandsFor toks (Tree.mentions t) i (m + 1) := by
  have hmentions : Tree.mentions t = if t.isContent then [.word t] else [] := by
    unfold Tree.mentions Token.isContent
    cases hk : t.kind <;> simp_all
  rw [hmentions]
  cases hcontent : t.isContent with
  | true => exact h.standsFor_of_stands (.word t) hcontent
  | false =>
    rw [StandsFor, h.contentBetween_eq, hcontent]
    exact .nil

def fitsLabel : Pattern → Bool
  | .kind k => k == .label || k == .general
  | .exact t => t.kind == .label

theorem kind_ne_label {p : Pattern} (hp : fitsLabel p = false) (h : t.fits p = true) : t.kind ≠ .label := by
  cases p with
  | kind k => cases k <;> simp_all [fitsLabel, Token.fits]
  | exact u =>
    rw [Token.fits, Token.agrees, Bool.and_eq_true, beq_iff_eq] at h
    rw [h.1]
    exact beq_eq_false_iff_ne.mp hp

def Item.noLabel : Item → Bool
  | .leaf ps _ => ps.all fun p => !fitsLabel p
  | _ => true

theorem Semicolons.standsFor (h : Semicolons toks i j) : StandsFor toks [] i j := by
  induction h with
  | nil i => exact .nil toks i
  | @cons i m j t h rest ih =>
    have htakes : Takes toks ([Word.sign ";"].map Word.pattern) i t m := h
    exact htakes.standsFor_word.append (Nat.le_succ_of_le h.blank.le) rest.le ih

theorem Spans.standsFor
    (h : Spans toks (fun s t i j => Derived toks s t i j ∧ StandsFor toks t.content i j) items i j)
    (hlabel : items.all Item.noLabel = true) : StandsFor toks (items.flatMap Item.content) i j := by
  induction h with
  | nil i => exact .nil toks i
  | word h rest ih =>
    have hle := rest.le fun hok => hok.1.le
    exact h.standsFor_word.append (Nat.le_succ_of_le h.blank.le) hle (ih hlabel)
  | @leaf ps items i m j t h rest ih =>
    have hle := rest.le fun hok => hok.1.le
    rw [List.all_cons, Bool.and_eq_true] at hlabel
    have hkind : t.kind ≠ .label := by
      obtain ⟨p, hp, hfits⟩ := h.fits
      have hnot := List.all_eq_true.mp hlabel.1 p hp
      exact kind_ne_label (by simpa using hnot) hfits
    exact (h.standsFor_leaf hkind).append (Nat.le_succ_of_le h.blank.le) hle (ih hlabel.2)
  | part h rest ih =>
    have hle := rest.le fun hok => hok.1.le
    exact h.2.append h.1.le hle (ih hlabel)
  | place rest ih => exact ih hlabel
  | semicolons h rest ih =>
    have hle := rest.le fun hok => hok.1.le
    exact h.standsFor.append h.le hle (ih hlabel)
  | clear h rest ih => exact ih hlabel

end Rows

/-! ### Rules -/

/-- The rules whose trees do not keep their rows: a jump and a label keep a bare name, and a
conditional on one line its bare condition and no block without statements. -/
inductive Strips : Tree → List Item → Prop
  | jump (i j : Nat) (t : Token) :
      Strips (.made .statGoto [.label t.data] i j) [.reserved "goto", .name t]
  | label (i j : Nat) (t : Token) :
      Strips (.made .statLabel [.label t.labelName] i j) [.leaf [.kind .label] t]
  | shortIf {condition bare : Tree} (h : condition.field .value = .ok bare) (block : Tree)
      (other : Option Tree) (o : Origin) :
      Strips (.node .statIf [.list (Grammar.branch bare block :: otherBranch other)] o)
        ([.reserved "if", .part .expression condition, .part .block block] ++
          other.toList.flatMap fun b => [.reserved "else", .part .block b])

theorem Rule.noLabel {t : Tree} (h : Rule s i j t items) (hkeeps : ¬ Strips t items) :
    items.all Item.noLabel = true := by
  have hassign : assignOperators.all (fun p => !fitsLabel p) = true := by decide
  have hbinary : binaryOperators.all (fun p => !fitsLabel p) = true := by decide
  have hunary : unaryOperators.all (fun p => !fitsLabel p) = true := by decide
  cases h with
  | label => exact absurd (.label ..) hkeeps
  | assignment => simpa [Item.noLabel] using hassign
  | operation => simpa [Item.noLabel] using hbinary
  | unary => simpa [Item.noLabel] using hunary
  | table _ _ first rest closing => cases first <;> cases closing <;> simp [Item.noLabel]
  | literal _ _ hk => obtain rfl | rfl := hk <;> rfl
  | body _ _ names => cases names <;> simp [Item.noLabel]
  | _ => simp [Item.noLabel, fitsLabel]

theorem Rule.content_eq {t : Tree} (h : Rule s i j t items) (hkeeps : ¬ Strips t items) :
    t.content = items.flatMap Item.content := by
  cases h with
  | shortIf _ _ hv => exact absurd (.shortIf hv ..) hkeeps
  | jump => exact absurd (.jump ..) hkeeps
  | label => exact absurd (.label ..) hkeeps
  | body _ _ names dots => cases names <;> cases dots <;> simp [Item.content]
  | table _ _ first rest closing =>
    cases first <;> cases closing <;> simp [Item.content, List.flatMap_assoc]
  | constant _ _ h =>
    simp only [constants, List.mem_cons, Prod.mk.injEq, List.not_mem_nil, or_false] at h
    obtain ⟨-, rfl⟩ | ⟨-, rfl⟩ | ⟨-, rfl⟩ := h <;> simp [Item.content]
  | _ => simp [Item.content, List.flatMap_assoc, List.flatMap_map]

/-! ### What is not kept -/

section Dropped

variable {toks : Array Token}

theorem Derived.content_eq_of_value {t v : Tree} (h : Derived toks .expression t i j)
    (hv : t.field .value = .ok v) : t.content = v.content := by
  obtain ⟨o, rfl⟩ := h.eq_of_value (.inl rfl) hv
  simp [Tree.content_node]

theorem Derived.content_eq_nil {t : Tree} (h : Derived toks .block t i j) (ht : hasStatements t = false) :
    t.content = [] := by
  obtain ⟨rule, row⟩ := h
  cases rule with
  | block _ _ stats last =>
    have hnil : stats ++ last.toList = [] := by
      cases hl : stats ++ last.toList with
      | nil => rfl
      | cons x xs => simp [hl, hasStatements, Tree.made] at ht
    simp [hnil]

theorem content_otherBranch {b : Tree} (h : Derived toks .block b i j) :
    (otherBranch (some b)).flatMap Tree.content = b.content := by
  cases hb : hasStatements b with
  | false => simp [otherBranch, hb, h.content_eq_nil hb]
  | true => simp [otherBranch, hb]

theorem content_shortIf {condition bare block : Tree} {other : Option Tree}
    (hv : condition.field .value = .ok bare)
    (row : Spans toks (Derived toks) ([.reserved "if", .part .expression condition,
      .part .block block] ++ other.toList.flatMap fun b => [.reserved "else", .part .block b]) i j)
    (o : Origin) :
    (Tree.node .statIf [.list (Grammar.branch bare block :: otherBranch other)] o).content =
      condition.content ++ (block.content ++ other.toList.flatMap Tree.content) := by
  have hother : (otherBranch other).flatMap Tree.content = other.toList.flatMap Tree.content := by
    cases other with
    | none => rfl
    | some b =>
      obtain ⟨k, -, hrest⟩ := Spans.append_iff.mp row
      obtain ⟨_, _, _, hrest⟩ := hrest.of_word
      obtain ⟨_, hb, _⟩ := hrest.of_part
      simpa using content_otherBranch hb
  obtain ⟨_, _, _, row⟩ := row.of_word
  obtain ⟨_, hcondition, row⟩ := row.of_part
  rw [hcondition.content_eq_of_value hv, ← hother]
  simp [Tree.content_node]

theorem Strips.standsFor {t : Tree} (h : Strips t items)
    (row : Spans toks (fun s t i j => Derived toks s t i j ∧ StandsFor toks t.content i j) items i j) :
    StandsFor toks t.content i j := by
  cases h with
  | jump _ _ t =>
    -- the word `goto` is no content, and the bare name is that of the token behind it
    obtain ⟨_, _, hgoto, row⟩ := row.of_word
    obtain ⟨_, hname, row⟩ := row.of_leaf
    cases row
    have hkind : t.kind = .name := by simpa [Token.fits] using hname.fits
    have hleaf := hname.standsFor_of_stands (.jump hkind) (by rw [Token.isContent, hkind])
    have hword := hgoto.standsFor_word
    simpa [Tree.made, Tree.content] using hword.append (Nat.le_succ_of_le hgoto.blank.le)
      (Nat.le_succ_of_le hname.blank.le) hleaf
  | label _ _ t =>
    obtain ⟨_, hlabel, row⟩ := row.of_leaf
    cases row
    have hkind : t.kind = .label := by simpa [Token.fits] using hlabel.fits
    have hleaf := hlabel.standsFor_of_stands (.label hkind) (by rw [Token.isContent, hkind])
    simpa [Tree.made, Tree.content] using hleaf
  | shortIf hv block other o =>
    have hrow := row.standsFor (by simp [Item.noLabel])
    rw [content_shortIf hv (row.mono And.left)]
    simpa [Item.content, List.flatMap_assoc] using hrow

end Dropped

theorem Derived.standsFor {toks : Array Token} {t : Tree} (h : Derived toks s t i j) :
    StandsFor toks t.content i j := by
  refine Derived.induct (P := fun _ t i j => StandsFor toks t.content i j) ?_ h
  intro s t i j items rule row
  by_cases hstrips : Strips t items
  · exact hstrips.standsFor row
  · rw [rule.content_eq hstrips]
    exact row.standsFor (rule.noLabel hstrips)

end Grammar

theorem Tree.content_of_ofTokens {toks : Array Token} {root : Tree}
    (h : Tree.ofTokens toks = .ok root) :
    ∃ stop, root.stop? = some stop ∧
      List.Forall₂ Stands root.content ((toks.toList.take stop).filter Token.isContent) := by
  obtain ⟨stop, hroot⟩ := Tree.derived_of_ofTokens h
  exact ⟨stop, hroot.stop?_eq rfl, hroot.standsFor⟩

def contentSample : Array Token :=
  (Scanner.feed {} [Bytes.ofText "goto a; ::a:: if (x.y) z=\"s\" else\nf(1, \x7b[k]=2; (b)\x7d)\n"]).1.tokens

theorem content_of_ofTokens_sample :
    ∃ root stop, Tree.ofTokens contentSample = .ok root ∧ root.content.length = 11 ∧
      root.stop? = some stop ∧
      List.Forall₂ Stands root.content ((contentSample.toList.take stop).filter Token.isContent) := by
  have hlength : (Tree.ofTokens contentSample).toOption.map (·.content.length) = some 11 := by
    decide +kernel
  cases h : Tree.ofTokens contentSample with
  | error e =>
    rw [h] at hlength
    cases hlength
  | ok root =>
    rw [h] at hlength
    obtain ⟨stop, hstop, hstands⟩ := Tree.content_of_ofTokens h
    exact ⟨root, stop, rfl, Option.some.inj hlength, hstop, hstands⟩

end Cartridge.Lua
