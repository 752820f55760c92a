import Cartridge.Proofs.Lua.Unplaced

/-!
# Derivations

The grammar as a relation between tokens and trees, without a cursor that goes back.  A phrase is a
row of items: words, some of which are kept in the tree, and smaller phrases.  A word is the next token
that is no gap.  One rule says of a tree which row of items it stands for, and a derivation follows
rules down to the words.

What holds of every phrase is proved rule by rule: `Derived.induct` asks only that a rule passes a
property on from the phrases in its row to the whole.

Parentheses with nothing between them stand for nothing: they are passed over before a table or an
operator, they may be the condition of a conditional and the base of a call, and a table may hold them.
-/

namespace Cartridge.Lua

def Tree.isVariable (t : Tree) : Bool := t.isA .varName || t.isA .varAttribute || t.isA .varIndex

def Tree.endsUnary : Tree → Bool
  | .node .expUnOp _ _ => true
  | .node .expBinOp [_, _, second] _ => endsUnary second
  | _ => false

namespace Grammar

variable {i j k m : Nat} {items : List Item} {ps : List Pattern} {s : Category} {t : Tree}
  {toks : Array Token}

/-! ### Words -/

structure Blank (toks : Array Token) (i j : Nat) : Prop where
  le : i ≤ j
  gap : ∀ n, i ≤ n → n < j → ∃ t, toks[n]? = some t ∧ t.isGap = true

/-- The next word from `i` on is the token `t` at the index `m`, and it fits one of the patterns. -/
structure Takes (toks : Array Token) (ps : List Pattern) (i : Nat) (t : Token) (m : Nat) : Prop where
  blank : Blank toks i m
  get : toks[m]? = some t
  solid : t.isGap = false
  fits : ∃ p ∈ ps, t.fits p = true

inductive Semicolons (toks : Array Token) : Nat → Nat → Prop
  | nil (i : Nat) : Semicolons toks i i
  | cons {i m j : Nat} {t : Token} (h : Takes toks [.exact (Token.symbol ";")] i t m)
      (rest : Semicolons toks (m + 1) j) : Semicolons toks i j

section Words

variable {toks : Array Token}

theorem kind_eq_of_agrees {t u : Token} (h : t.agrees u = true) : t.kind = u.kind := by
  rw [Token.agrees, Bool.and_eq_true, beq_iff_eq] at h
  exact h.1

theorem Blank.refl (toks : Array Token) (i : Nat) : Blank toks i i :=
  ⟨Nat.le_refl i, fun n hin hni => absurd hin (by omega)⟩

theorem Blank.trans (h : Blank toks i k) (h' : Blank toks k j) : Blank toks i j := by
  refine ⟨Nat.le_trans h.le h'.le, fun n hin hnj => ?_⟩
  by_cases hnk : n < k
  · exact h.gap n hin hnk
  · exact h'.gap n (by omega) hnj

theorem Blank.of_le (h : Blank toks i j) (hik : i ≤ k) (hkj : k ≤ j) : Blank toks k j :=
  ⟨hkj, fun n hkn hnj => h.gap n (by omega) hnj⟩

theorem Takes.mono {qs : List Pattern} {t : Token} (h : Takes toks ps i t m) (hsub : ps ⊆ qs) :
    Takes toks qs i t m := by
  obtain ⟨p, hp, hfits⟩ := h.fits
  exact ⟨h.blank, h.get, h.solid, p, hsub hp, hfits⟩

theorem Takes.of_le {t : Token} (h : Takes toks ps i t m) (hik : i ≤ k) (hkm : k ≤ m) : Takes toks ps k t m :=
  ⟨h.blank.of_le hik hkm, h.get, h.solid, h.fits⟩

theorem Takes.le_of_blank {t : Token} (h : Takes toks ps i t m) (hk : Blank toks i k) : k ≤ m := by
  refine Nat.le_of_not_lt fun hlt => ?_
  obtain ⟨u, hu, hgap⟩ := hk.gap m h.blank.le hlt
  rw [h.get] at hu
  rw [← Option.some.inj hu, h.solid] at hgap
  cases hgap

theorem Takes.moved {t : Token} (h : Takes toks ps i t m) (hk : Blank toks i k) : Takes toks ps k t m :=
  h.of_le hk.le (h.le_of_blank hk)

theorem Takes.self {t : Token} (h : Takes toks ps i t m) : Takes toks ps m t m := h.moved h.blank

theorem Takes.lt_size {t : Token} (h : Takes toks ps i t m) : m < toks.size :=
  (Array.getElem?_eq_some_iff.mp h.get).1

theorem Semicolons.trans (h : Semicolons toks i k) (h' : Semicolons toks k j) : Semicolons toks i j := by
  induction h with
  | nil i => exact h'
  | cons h rest ih => exact .cons h (ih h')

theorem Semicolons.le (h : Semicolons toks i j) : i ≤ j := by
  induction h with
  | nil i => exact Nat.le_refl i
  | cons h rest ih => exact Nat.le_trans (Nat.le_succ_of_le h.blank.le) ih

end Words

/-! ### Rules -/

inductive Category where
  | block
  | statement
  | lastStatement
  | branch
  | names
  | path
  | body
  | function
  | table
  | field
  | arguments
  | variables
  | expressions
  | expression
  | term
  /-- A name with all that follows it, or an expression in parentheses with what follows it. -/
  | chain
  | base
  | dots
  | perhaps
  | nothing
  deriving DecidableEq, Repr

inductive Word where
  | sign (s : String)
  | reserved (w : String)
  deriving DecidableEq, Repr

def Word.token : Word → Token
  | .sign s => Token.symbol s
  | .reserved w => Token.keyword w

def Word.pattern (w : Word) : Pattern := .exact w.token

inductive Item where
  | word (ws : List Word)
  | leaf (ps : List Pattern) (t : Token)
  | part (s : Category) (t : Tree)
  | place (i : Nat)
  | semicolons
  | clear

namespace Item

abbrev sign (s : String) : Item := .word [.sign s]

abbrev reserved (w : String) : Item := .word [.reserved w]

abbrev name (t : Token) : Item := .leaf [.kind .name] t

abbrev separator : Item := .word [.sign ",", .sign ";"]

end Item

/-- The branches after the first of a conditional on one line: a block without statements is
dropped. -/
def otherBranch : Option Tree → List Tree
  | some b => if hasStatements b then [branch .absent b] else []
  | none => []

def constants : List (String × Tree) :=
  [("nil", .absent), ("false", .truth false), ("true", .truth true)]

def assignOperators : List Pattern := assignSigns.map fun s => .exact (Token.symbol s)

def unaryOperators : List Pattern :=
  [.exact (Token.symbol "-"), .exact (Token.keyword "not"), .exact (Token.symbol "#")]

/-- Which row of items a tree stands for, as a phrase of a category from `i` up to `j`.  The condition of a
conditional on one line is a node; what is assigned to are variables; and an operator before the first
operand of an operation would have taken the second one. -/
inductive Rule : Category → Nat → Nat → Tree → List Item → Prop
  | block (i j : Nat) (stats : List Tree) (last : Option Tree) :
      Rule .block i j (.made .chunk [.list (stats ++ last.toList)] i j)
        (stats.flatMap (fun t => [Item.semicolons, .part .statement t]) ++
          (last.toList.flatMap (fun t => [Item.semicolons, .part .lastStatement t]) ++
            [Item.semicolons, .clear]))
  | assignment (i j : Nat) (vars exps : Tree) (op : Token) :
      Rule .statement i j (.made .statAssignment [vars, .token op, exps] i j)
        [.part .variables vars, .leaf assignOperators op, .part .expressions exps]
  | call (i j : Nat) {t : Tree} (h : (t.isA .functionCall || t.isA .functionCallMethod) = true) :
      Rule .statement i j (.made .statFunctionCall [t] i j) [.part .chain t]
  | doBlock (i j : Nat) (block : Tree) :
      Rule .statement i j (.made .statDo [block] i j)
        [.reserved "do", .part .block block, .reserved "end"]
  | whileLoop (i j : Nat) (exp block : Tree) :
      Rule .statement i j (.made .statWhile [exp, block] i j)
        [.reserved "while", .part .expression exp, .reserved "do", .part .block block, .reserved "end"]
  | repeatLoop (i j : Nat) (exp block : Tree) :
      Rule .statement i j (.made .statRepeat [block, exp] i j)
        [.reserved "repeat", .part .block block, .reserved "until", .part .expression exp]
  | longIf (i j : Nat) (condition block : Tree) (rest : List Tree) (other : Option Tree) :
      Rule .statement i j
        (.made .statIf [.list (Grammar.branch condition block :: rest ++
          other.toList.map (Grammar.branch .absent))] i j)
        ([Item.reserved "if", .part .perhaps condition,
            .word [.reserved "then", .reserved "do"], .part .block block] ++
          (rest.flatMap (fun t => [Item.part .branch t]) ++
            (other.toList.flatMap (fun b => [Item.reserved "else", .part .block b]) ++
              [Item.reserved "end"])))
  | shortIf (i j : Nat) {condition bare : Tree} (h : condition.field .value = .ok bare) (block : Tree)
      (other : Option Tree) (hnode : bare.isNode = true) :
      Rule .statement i j
        (.node .statIf [.list (Grammar.branch bare block :: otherBranch other)]
          { span := some ⟨i, j⟩, short := true })
        ([Item.reserved "if", .part .expression condition, .part .block block] ++
          other.toList.flatMap fun b => [Item.reserved "else", .part .block b])
  | branch (i j : Nat) (condition block : Tree) :
      Rule .branch i j (Grammar.branch condition block)
        [.reserved "elseif", .part .perhaps condition, .reserved "then", .part .block block]
  | forStep (i j : Nat) (counter : Option Token) (first last : Tree) (step : Option Tree)
      (block : Tree) :
      Rule .statement i j
        (.made .statForStep [.ofToken? counter, first, last, .ofOption step, block] i j)
        (.reserved "for" :: (counter.toList.map Item.name ++
          ([Item.sign "=", .part .expression first, .sign ",", .part .expression last] ++
            (step.toList.flatMap (fun t => [Item.sign ",", .part .expression t]) ++
              [Item.reserved "do", .part .block block, .reserved "end"]))))
  | forIn (i j : Nat) (names exps block : Tree) :
      Rule .statement i j (.made .statForIn [names, exps, block] i j)
        [.reserved "for", .part .names names, .reserved "in", .part .expressions exps, .reserved "do",
          .part .block block, .reserved "end"]
  | namedFunction (i j : Nat) (path body : Tree) :
      Rule .statement i j (.made .statFunction [path, body] i j)
        [.reserved "function", .part .path path, .part .body body]
  | localFunction (i j : Nat) (t : Token) (body : Tree) :
      Rule .statement i j (.made .statLocalFunction [.token t, body] i j)
        [.reserved "local", .reserved "function", .name t, .part .body body]
  | localVariables (i j : Nat) (names : Tree) (exps : Option Tree) :
      Rule .statement i j (.made .statLocalAssignment [names, .ofOption exps] i j)
        ([Item.reserved "local", .part .names names] ++
          exps.toList.flatMap fun t => [Item.sign "=", .part .expressions t])
  | jump (i j : Nat) (t : Token) :
      Rule .statement i j (.made .statGoto [.label t.data] i j) [.reserved "goto", .name t]
  | label (i j : Nat) (t : Token) :
      Rule .statement i j
        (.made .statLabel [.label ((t.data.take (t.data.length - 2)).drop 2)] i j)
        [.leaf [.kind .label] t]
  | leave (i j : Nat) : Rule .lastStatement i j (.made .statBreak [] i j) [.reserved "break"]
  | give (i j : Nat) (exps : Option Tree) :
      Rule .lastStatement i j (.made .statReturn [.ofOption exps] i j)
        (.reserved "return" :: exps.toList.map (.part .expressions))
  | names (i j : Nat) (first : Token) (rest : List Token) :
      Rule .names i j (.made .nameList [.list ((first :: rest).map .token)] i j)
        (.name first :: rest.flatMap fun t => [.sign ",", .name t])
  | path (i j : Nat) (first : Token) (rest : List Token) (method : Option Token) :
      Rule .path i j
        (.made .functionName [.list ((first :: rest).map .token), .ofToken? method] i j)
        (.name first :: (rest.flatMap (fun t => [Item.sign ".", .name t]) ++
          method.toList.flatMap fun t => [Item.sign ":", .name t]))
  | body (i j : Nat) (names dots : Option Tree) (block : Tree) :
      Rule .body i j (.made .functionBody [.ofOption names, .ofOption dots, block] i j)
        (.sign "(" :: (names.toList.map (Item.part .names) ++
          (dots.toList.flatMap (fun t =>
              (if names.isSome then [Item.sign ","] else []) ++ [Item.part .dots t]) ++
            [Item.sign ")", .part .block block, .reserved "end"])))
  | function (i j : Nat) (body : Tree) :
      Rule .function i j (.made .function [body] i j) [.reserved "function", .part .body body]
  | table (i j : Nat) (first : Option Tree) (rest : List Tree) (closing : Bool) :
      Rule .table i j (.made .tableConstructor [.list (first.toList ++ rest)] i j)
        (.sign "\x7b" :: ((match first with
              | some t => [Item.part .field t]
              | none => [Item.part .nothing .absent]) ++
          (rest.flatMap (fun t => [Item.separator, .part .field t]) ++
            ((if closing then [Item.separator, .part .nothing .absent] else []) ++ [Item.sign "\x7d"]))))
  | keyField (i j : Nat) (key value : Tree) :
      Rule .field i j (.made .fieldExpKey [key, value] i j)
        [.sign "[", .part .expression key, .sign "]", .sign "=", .part .expression value]
  | namedField (i j : Nat) (t : Token) (value : Tree) :
      Rule .field i j (.made .fieldNamedKey [.token t, value] i j)
        [.name t, .sign "=", .part .expression value]
  | plainField (i j : Nat) (value : Tree) :
      Rule .field i j (.made .fieldExp [value] i j) [.part .expression value]
  | givenArguments (i j : Nat) (exps : Option Tree) :
      Rule .arguments i j (.made .functionArgs [.ofOption exps] i j)
        (.sign "(" :: (exps.toList.map (Item.part .expressions) ++ [Item.sign ")"]))
  | tableArgument (i j : Nat) (t : Tree) : Rule .arguments i j t [.part .table t]
  | stringArgument (i j : Nat) (t : Token) :
      Rule .arguments i j (.token t) [.leaf [.kind .string] t]
  | variables (i j : Nat) (first : Tree) (rest : List Tree)
      (h : ∀ t ∈ first :: rest, t.isVariable = true) :
      Rule .variables i j (.made .varList [.list (first :: rest)] i j)
        (.part .chain first :: rest.flatMap fun t => [.sign ",", .part .chain t])
  | expressions (i j : Nat) (first : Tree) (rest : List Tree) :
      Rule .expressions i j (.made .expList [.list (first :: rest)] i j)
        (.part .expression first :: rest.flatMap fun t => [.sign ",", .part .expression t])
  | single (i j : Nat) (t : Tree) : Rule .expression i j t [.part .term t]
  | operation (i j m : Nat) (first second : Tree) (op : Token) (h : first.endsUnary = false) :
      Rule .expression i j (.made .expBinOp [first, .token op, second] m j)
        [.part .expression first, .place m, .leaf binaryOperators op, .part .term second]
  | constant (i j : Nat) {word : String} {value : Tree} (h : (word, value) ∈ constants) :
      Rule .term i j (.made .expValue [value] i j) [.reserved word]
  | literal (i j : Nat) {k : TokenKind} (h : k = .number ∨ k = .string) (t : Token) :
      Rule .term i j (.made .expValue [.token t] i j) [.leaf [.kind k] t]
  | allArguments (i j : Nat) (t : Tree) : Rule .term i j t [.part .dots t]
  | functionValue (i j : Nat) (t : Tree) :
      Rule .term i j (.made .expValue [t] i j) [.part .function t]
  | chainValue (i j : Nat) (t : Tree) : Rule .term i j (.made .expValue [t] i j) [.part .chain t]
  | bracketed (i j : Nat) (t : Tree) :
      Rule .term i j (.made .expValue [t] i j) [.sign "(", .part .expression t, .sign ")"]
  | tableValue (i j : Nat) (t : Tree) :
      Rule .term i j (.made .expValue [t] i j) [.part .nothing .absent, .part .table t]
  | unary (i j : Nat) (op : Token) (exp : Tree) :
      Rule .term i j (.made .expUnOp [.token op, exp] i j)
        [.part .nothing .absent, .leaf unaryOperators op, .part .expression exp]
  | dots (i j : Nat) : Rule .dots i j (.made .varargDots [] i j) [.sign "..."]
  | variable (i j : Nat) (t : Token) : Rule .chain i j (.made .varName [.token t] i j) [.name t]
  | index (i j m : Nat) (first key : Tree) :
      Rule .chain i j (.made .varIndex [first, key] m j)
        [.part .base first, .place m, .sign "[", .part .expression key, .sign "]"]
  | attribute (i j m : Nat) (first : Tree) (t : Token) :
      Rule .chain i j (.made .varAttribute [first, .token t] m j)
        [.part .base first, .place m, .sign ".", .name t]
  | callOf (i j m : Nat) (first args : Tree) :
      Rule .chain i j (.made .functionCall [first, args] m j)
        [.part .base first, .place m, .part .arguments args]
  | methodOf (i j m : Nat) (first args : Tree) (t : Token) :
      Rule .chain i j (.made .functionCallMethod [first, .token t, args] m j)
        [.part .base first, .place m, .sign ":", .name t, .part .arguments args]
  | chainBase (i j : Nat) (t : Tree) : Rule .base i j t [.part .chain t]
  | bracketedBase (i j : Nat) (t : Tree) : Rule .base i j t [.sign "(", .part .perhaps t, .sign ")"]
  | given (i j : Nat) (t : Tree) : Rule .perhaps i j t [.part .expression t]
  | missing (i j : Nat) : Rule .perhaps i j .absent [.part .nothing .absent]
  | empty (i j : Nat) : Rule .nothing i j .absent []
  | emptyBrackets (i j : Nat) :
      Rule .nothing i j .absent [.sign "(", .part .nothing .absent, .sign ")"]

/-! ### Derivations -/

/-- The items stand in a row from `i` up to `j`; what holds of a phrase is `ok`. -/
inductive Spans (toks : Array Token) (ok : Category → Tree → Nat → Nat → Prop) :
    List Item → Nat → Nat → Prop
  | nil (i : Nat) : Spans toks ok [] i i
  | word {ws : List Word} {items : List Item} {i m j : Nat} {t : Token}
      (h : Takes toks (ws.map Word.pattern) i t m) (rest : Spans toks ok items (m + 1) j) :
      Spans toks ok (.word ws :: items) i j
  | leaf {ps : List Pattern} {items : List Item} {i m j : Nat} {t : Token}
      (h : Takes toks ps i t m) (rest : Spans toks ok items (m + 1) j) :
      Spans toks ok (.leaf ps t :: items) i j
  | part {s : Category} {t : Tree} {items : List Item} {i k j : Nat} (h : ok s t i k)
      (rest : Spans toks ok items k j) : Spans toks ok (.part s t :: items) i j
  | place {items : List Item} {i j : Nat} (rest : Spans toks ok items i j) :
      Spans toks ok (.place i :: items) i j
  | semicolons {items : List Item} {i k j : Nat} (h : Semicolons toks i k)
      (rest : Spans toks ok items k j) : Spans toks ok (.semicolons :: items) i j
  | clear {items : List Item} {i j : Nat}
      (h : ∀ t, toks[i]? = some t → t.agrees (Token.symbol ";") = false)
      (rest : Spans toks ok items i j) : Spans toks ok (.clear :: items) i j

/-- The tokens from `i` up to `j` are a phrase of the category, and the tree stands for it. -/
inductive Derived (toks : Array Token) : Category → Tree → Nat → Nat → Prop
  | intro {s : Category} {t : Tree} {i j : Nat} {items : List Item} (rule : Rule s i j t items)
      (row : Spans toks (Derived toks) items i j) : Derived toks s t i j

section Derivations

variable {toks : Array Token} {ok ok' : Category → Tree → Nat → Nat → Prop}

theorem Spans.mono (h : Spans toks ok items i j) (hok : ∀ {s t i j}, ok s t i j → ok' s t i j) :
    Spans toks ok' items i j := by
  induction h with
  | nil i => exact .nil i
  | word h rest ih => exact .word h ih
  | leaf h rest ih => exact .leaf h ih
  | part h rest ih => exact .part (hok h) ih
  | place rest ih => exact .place ih
  | semicolons h rest ih => exact .semicolons h ih
  | clear h rest ih => exact .clear h ih

theorem Spans.of_word {ws : List Word} (h : Spans toks ok (.word ws :: items) i j) :
    ∃ t m, Takes toks (ws.map Word.pattern) i t m ∧ Spans toks ok items (m + 1) j := by
  cases h with
  | word h rest => exact ⟨_, _, h, rest⟩

theorem Spans.of_leaf {u : Token} (h : Spans toks ok (.leaf ps u :: items) i j) :
    ∃ m, Takes toks ps i u m ∧ Spans toks ok items (m + 1) j := by
  cases h with
  | leaf h rest => exact ⟨_, h, rest⟩

theorem Spans.of_part (h : Spans toks ok (.part s t :: items) i j) : ∃ k, ok s t i k ∧ Spans toks ok items k j := by
  cases h with
  | part h rest => exact ⟨_, h, rest⟩

theorem Derived.induct {P : Category → Tree → Nat → Nat → Prop}
    (step : ∀ {s t i j items}, Rule s i j t items →
      Spans toks (fun s t i j => Derived toks s t i j ∧ P s t i j) items i j → P s t i j)
    (h : Derived toks s t i j) : P s t i j := by
  refine @Derived.rec toks (fun s t i j _ => P s t i j)
    (fun items i j _ => Spans toks (fun s t i j => Derived toks s t i j ∧ P s t i j) items i j)
    ?_ ?_ ?_ ?_ ?_ ?_ ?_ ?_ s t i j h
  · intro s t i j items rule row hrow
    exact step rule hrow
  · intro i
    exact .nil i
  · intro ws items i m j t h rest ih
    exact .word h ih
  · intro ps items i m j t h rest ih
    exact .leaf h ih
  · intro s t items i k j h rest hpart ih
    exact .part ⟨h, hpart⟩ ih
  · intro items i j rest ih
    exact .place ih
  · intro items i k j h rest ih
    exact .semicolons h ih
  · intro items i j h rest ih
    exact .clear h ih

theorem Spans.append {more : List Item} (h : Spans toks ok items i k) (h' : Spans toks ok more k j) :
    Spans toks ok (items ++ more) i j := by
  induction h with
  | nil i => exact h'
  | word h rest ih => exact .word h (ih h')
  | leaf h rest ih => exact .leaf h (ih h')
  | part h rest ih => exact .part h (ih h')
  | place rest ih => exact .place (ih h')
  | semicolons h rest ih => exact .semicolons h (ih h')
  | clear h rest ih => exact .clear h (ih h')

theorem Spans.append_iff {more : List Item} :
    Spans toks ok (items ++ more) i j ↔
      ∃ k, Spans toks ok items i k ∧ Spans toks ok more k j := by
  constructor
  · intro h
    induction items generalizing i with
    | nil => exact ⟨i, .nil i, h⟩
    | cons item items ih =>
      rw [List.cons_append] at h
      cases h with
      | word h rest =>
        obtain ⟨k, hitems, hmore⟩ := ih rest
        exact ⟨k, .word h hitems, hmore⟩
      | leaf h rest =>
        obtain ⟨k, hitems, hmore⟩ := ih rest
        exact ⟨k, .leaf h hitems, hmore⟩
      | part h rest =>
        obtain ⟨k, hitems, hmore⟩ := ih rest
        exact ⟨k, .part h hitems, hmore⟩
      | place rest =>
        obtain ⟨k, hitems, hmore⟩ := ih rest
        exact ⟨k, .place hitems, hmore⟩
      | semicolons h rest =>
        obtain ⟨k, hitems, hmore⟩ := ih rest
        exact ⟨k, .semicolons h hitems, hmore⟩
      | clear h rest =>
        obtain ⟨k, hitems, hmore⟩ := ih rest
        exact ⟨k, .clear h hitems, hmore⟩
  · rintro ⟨k, hitems, hmore⟩
    exact hitems.append hmore

theorem Spans.le (h : Spans toks ok items i j) (hok : ∀ {s t i j}, ok s t i j → i ≤ j) : i ≤ j := by
  induction h with
  | nil i => exact Nat.le_refl i
  | word h rest ih => exact Nat.le_trans (Nat.le_succ_of_le h.blank.le) ih
  | leaf h rest ih => exact Nat.le_trans (Nat.le_succ_of_le h.blank.le) ih
  | part h rest ih => exact Nat.le_trans (hok h) ih
  | place rest ih => exact ih
  | semicolons h rest ih => exact Nat.le_trans h.le ih
  | clear h rest ih => exact ih

theorem Derived.le (h : Derived toks s t i j) : i ≤ j :=
  h.induct fun _ row => row.le And.right

end Derivations

/-! ### The ends of phrases -/

def EndsInWord (toks : Array Token) (i j : Nat) : Prop :=
  i = j ∨ ∃ k t, j = k + 1 ∧ toks[k]? = some t ∧ t.isGap = false

section Closing

variable {toks : Array Token} {i j k : Nat}

theorem EndsInWord.trans (h : EndsInWord toks i k) (h' : EndsInWord toks k j) : EndsInWord toks i j := by
  rcases h' with rfl | h'
  · exact h
  · exact .inr h'

theorem Takes.endsInWord {t : Token} (h : Takes toks ps i t m) : EndsInWord toks i (m + 1) :=
  .inr ⟨m, t, rfl, h.get, h.solid⟩

theorem Semicolons.endsInWord (h : Semicolons toks i j) : EndsInWord toks i j := by
  induction h with
  | nil i => exact .inl rfl
  | cons h rest ih => exact h.endsInWord.trans ih

theorem Spans.endsInWord {ok : Category → Tree → Nat → Nat → Prop} (row : Spans toks ok items i j)
    (hok : ∀ {s t i j}, ok s t i j → EndsInWord toks i j) : EndsInWord toks i j := by
  induction row with
  | nil i => exact .inl rfl
  | word h rest ih => exact h.endsInWord.trans ih
  | leaf h rest ih => exact h.endsInWord.trans ih
  | part h rest ih => exact (hok h).trans ih
  | place rest ih => exact ih
  | semicolons h rest ih => exact h.endsInWord.trans ih
  | clear h rest ih => exact ih

theorem Derived.endsInWord (h : Derived toks s t i j) : EndsInWord toks i j :=
  Derived.induct (P := fun _ _ i j => EndsInWord toks i j)
    (fun _ row => row.endsInWord And.right) h

end Closing

/-! ### Trees of phrases -/

def Category.isNode : Category → Bool
  | .branch | .arguments | .base | .perhaps | .nothing => false
  | _ => true

theorem Derived.stop?_eq (h : Derived toks s t i j) (hs : s.isNode = true) : t.stop? = some j := by
  revert hs
  refine Derived.induct (P := fun s t _ j => s.isNode = true → t.stop? = some j) ?_ h
  intro s t i j items rule row hs
  cases rule with
  | single t =>
    obtain ⟨_, hpart, rest⟩ := row.of_part
    cases rest
    exact hpart.2 rfl
  | allArguments t =>
    obtain ⟨_, hpart, rest⟩ := row.of_part
    cases rest
    exact hpart.2 rfl
  | branch => cases hs
  | tableArgument => cases hs
  | stringArgument => cases hs
  | chainBase => cases hs
  | bracketedBase => cases hs
  | given => cases hs
  | missing => cases hs
  | empty => cases hs
  | emptyBrackets => cases hs
  | _ => rfl

theorem Derived.ne_absent (h : Derived toks s t i j) (hs : s.isNode = true) : t ≠ .absent := by
  rintro rfl
  cases h.stop?_eq hs

theorem Derived.isNode_eq (h : Derived toks s t i j) (hs : s.isNode = true) : t.isNode = true := by
  have hstop := h.stop?_eq hs
  cases t with
  | node => rfl
  | _ => cases hstop

def isExpression : Tree → Bool
  | .node .expValue _ _ | .node .varargDots _ _ | .node .expBinOp _ _ | .node .expUnOp _ _ => true
  | _ => false

theorem isA_of_isExpression (h : isExpression t = true) {k : NodeKind}
    (hk : isExpression (.node k [] {}) = false) : t.isA k = false := by
  cases t with
  | node k' fs o =>
    rw [Tree.isA, beq_eq_false_iff_ne]
    rintro rfl
    cases k' <;> simp_all [isExpression]
  | _ => rfl

theorem Derived.isExpression_eq (h : Derived toks s t i j) (hs : s = .expression ∨ s = .term ∨ s = .dots) :
    isExpression t = true := by
  revert hs
  refine Derived.induct (P := fun s t _ _ =>
    s = .expression ∨ s = .term ∨ s = .dots → isExpression t = true) ?_ h
  intro s t i j items rule row hs
  cases rule with
  | single t =>
    obtain ⟨_, hpart, rest⟩ := row.of_part
    exact hpart.2 (.inr (.inl rfl))
  | allArguments t =>
    obtain ⟨_, hpart, rest⟩ := row.of_part
    exact hpart.2 (.inr (.inr rfl))
  | operation => rfl
  | constant => rfl
  | literal => rfl
  | functionValue => rfl
  | chainValue => rfl
  | bracketed => rfl
  | tableValue => rfl
  | unary => rfl
  | dots => rfl
  | _ => simp at hs

theorem Derived.eq_of_value {v : Tree} (h : Derived toks s t i j)
    (hs : s = .expression ∨ s = .term ∨ s = .dots) (hv : t.field .value = .ok v) :
    ∃ o, t = .node .expValue [v] o := by
  revert hs hv
  refine Derived.induct (P := fun s t _ _ => s = .expression ∨ s = .term ∨ s = .dots →
    t.field .value = .ok v → ∃ o, t = .node .expValue [v] o) ?_ h
  intro s t i j items rule row hs hv
  cases rule with
  | single t =>
    obtain ⟨_, hpart, rest⟩ := row.of_part
    exact hpart.2 (.inr (.inl rfl)) hv
  | allArguments t =>
    obtain ⟨_, hpart, rest⟩ := row.of_part
    exact hpart.2 (.inr (.inr rfl)) hv
  | constant =>
    cases hv
    exact ⟨_, rfl⟩
  | literal =>
    cases hv
    exact ⟨_, rfl⟩
  | functionValue =>
    cases hv
    exact ⟨_, rfl⟩
  | chainValue =>
    cases hv
    exact ⟨_, rfl⟩
  | bracketed =>
    cases hv
    exact ⟨_, rfl⟩
  | tableValue =>
    cases hv
    exact ⟨_, rfl⟩
  | operation => cases hv
  | unary => cases hv
  | dots => cases hv
  | _ => simp at hs

/-- A value that ends with a closing parenthesis is a node: the last word of a literal is no
parenthesis. -/
theorem Derived.isNode_of_closes {v : Tree} (h : Derived toks .expression t i j)
    (hv : t.field .value = .ok v) (hcloses : closesBefore toks j = true) : v.isNode = true := by
  have hword : ∀ {u : Token}, toks[j - 1]? = some u → u.kind = .symbol := by
    intro u hu
    rw [closesBefore, hu] at hcloses
    exact kind_eq_of_agrees hcloses
  obtain ⟨rule, row⟩ := h
  cases rule with
  | operation => cases hv
  | single =>
    obtain ⟨_, hterm, rest⟩ := row.of_part
    cases rest
    obtain ⟨rule, row⟩ := hterm
    cases rule with
    | constant =>
      obtain ⟨_, _, hw, rest⟩ := row.of_word
      cases rest
      obtain ⟨_, hp, hfits⟩ := hw.fits
      cases List.mem_singleton.mp hp
      cases (hword hw.get).symm.trans (kind_eq_of_agrees hfits)
    | literal _ _ hkind =>
      obtain ⟨_, hw, rest⟩ := row.of_leaf
      cases rest
      obtain ⟨_, hp, hfits⟩ := hw.fits
      cases List.mem_singleton.mp hp
      rcases hkind with rfl | rfl <;> cases (hword hw.get).symm.trans (eq_of_beq hfits)
    | allArguments =>
      obtain ⟨_, hdots, rest⟩ := row.of_part
      obtain ⟨rule, -⟩ := hdots
      cases rule
      cases hv
    | functionValue | chainValue =>
      cases hv
      obtain ⟨_, hv, _⟩ := row.of_part
      exact hv.isNode_eq rfl
    | bracketed =>
      cases hv
      obtain ⟨_, _, _, row⟩ := row.of_word
      obtain ⟨_, hv, _⟩ := row.of_part
      exact hv.isNode_eq rfl
    | tableValue =>
      cases hv
      obtain ⟨_, _, row⟩ := row.of_part
      obtain ⟨_, hv, _⟩ := row.of_part
      exact hv.isNode_eq rfl
    | unary => cases hv

theorem isExpression_of_row (h : Spans toks (Derived toks) [.sign "(", .part .expression t, .sign ")"] i j) :
    isExpression t = true := by
  obtain ⟨_, _, hopen, rest⟩ := h.of_word
  obtain ⟨_, hexp, rest⟩ := rest.of_part
  exact hexp.isExpression_eq (.inl rfl)

/-! ### The tokens of a range -/

def between (toks : Array Token) (i j : Nat) : List Token := (toks.toList.take j).drop i

section Between

variable {toks : Array Token}

theorem between_self (toks : Array Token) (i : Nat) : between toks i i = [] := by
  exact List.drop_eq_nil_of_le (List.length_take_le i toks.toList)

theorem between_append (hik : i ≤ k) (hkj : k ≤ j) :
    between toks i k ++ between toks k j = between toks i j := by
  have htake : toks.toList.take k = (toks.toList.take j).take k := by
    rw [List.take_take, Nat.min_eq_left hkj]
  rw [between, between, between, htake]
  generalize toks.toList.take j = l
  conv => rhs; rw [← List.take_append_drop k l, List.drop_append]
  by_cases hlen : l.length ≤ k
  · rw [List.drop_eq_nil_of_le hlen, List.drop_nil]
  · have hzero : i - (l.take k).length = 0 := by
      rw [List.length_take]
      omega
    rw [hzero, List.drop_zero]

theorem between_succ {t : Token} (h : toks[m]? = some t) : between toks m (m + 1) = [t] := by
  obtain ⟨hlt, rfl⟩ := Array.getElem?_eq_some_iff.mp h
  rw [between, List.drop_take, List.drop_eq_getElem_cons (by simpa using hlt)]
  simp

theorem exists_of_mem_between {t : Token} (h : t ∈ between toks i j) :
    ∃ n, i ≤ n ∧ n < j ∧ toks[n]? = some t := by
  obtain ⟨n, hn, rfl⟩ := List.mem_iff_getElem.mp h
  have hlt : i + n < j := by
    rw [between, List.length_drop, List.length_take] at hn
    omega
  refine ⟨i + n, Nat.le_add_right i n, hlt, ?_⟩
  rw [← List.getElem?_eq_getElem hn, between, List.getElem?_drop, List.getElem?_take_of_lt hlt,
    Array.getElem?_toList]

theorem Blank.isGap (h : Blank toks i j) : ∀ t ∈ between toks i j, t.isGap = true := by
  intro t ht
  obtain ⟨n, hin, hnj, hget⟩ := exists_of_mem_between ht
  obtain ⟨u, hu, hgap⟩ := h.gap n hin hnj
  rw [hget, Option.some.injEq] at hu
  rw [hu]
  exact hgap

theorem Takes.between_eq {t : Token} (h : Takes toks ps i t m) :
    between toks i (m + 1) = between toks i m ++ [t] := by
  rw [← between_append h.blank.le (Nat.le_succ m), between_succ h.get]

end Between

end Grammar
end Cartridge.Lua
