import Cartridge.Proofs.Lua.Rereading
import Mathlib.Tactic.Choose

/-!
# Expressions are restored

A phrase is restored if its script says words from which a tree of the same essence is read, wherever
these words stand.  How a phrase may be gone on with depends on its tree, so what has to stop behind it is
part of the statement; and so is what its words start with, since the phrase before it asks for that.
-/

namespace Cartridge.Lua

open Lua.Tree
namespace Grammar

variable {a : Token} {i j : Nat} {ps : List Pattern} {t : Tree} {toks : Array Token} {ws : List Token}

/-! ### Rows of words -/

section Rows

variable {toks : Array Token} {i j : Nat} {w : Token} {ws us : List Token}

theorem Row.upTo (h : Row toks i (ws ++ w :: us) j) :
    ∃ k t x, i ≤ k ∧ k ≤ x ∧ x < toks.size ∧ Row toks i ws k ∧ Takes toks [.exact w] k t x ∧
      Row toks (x + 1) us j := by
  obtain ⟨k, hik, hws, hrow⟩ := h.split
  obtain ⟨t, x, hkx, hx, ht, hus⟩ := hrow.exact
  exact ⟨k, t, x, hik, hkx, hx, hws, ht, hus⟩

theorem Row.sequence {α β : Type} {sign : String} {g : α → List Token} {R : α → β → Prop}
    {ok : Nat → β → Nat → Prop} {F : α → Nat → Prop} {a : α} {as : List α}
    (hF : ∀ {a k u x}, Takes toks [.exact (Token.symbol sign)] k u x → F a k) (hi : i ≤ toks.size)
    (hread : ∀ {b}, b ∈ a :: as → ∀ {i' k}, i ≤ i' → i' ≤ toks.size → Row toks i' (g b) k → F b k →
      ∃ c, R b c ∧ ok i' c k)
    (h : Row toks i (g a ++ as.flatMap fun a => Token.symbol sign :: g a) j)
    (hj : ∀ {b}, (a :: as).getLast? = some b → F b j) :
    ∃ c cs k, R a c ∧ ok i c k ∧ List.Forall₂ R as cs ∧ Chained (Behind toks sign ok) k cs j := by
  induction as generalizing i a with
  | nil =>
    rw [List.flatMap_nil, List.append_nil] at h
    obtain ⟨c, hac, hok⟩ := hread List.mem_cons_self (Nat.le_refl i) hi h (hj rfl)
    exact ⟨c, [], j, hac, hok, .nil, .nil j⟩
  | cons a' as ih =>
    obtain ⟨k, hik, ha, has⟩ := h.split
    rw [List.flatMap_cons, List.cons_append] at has
    obtain ⟨u, x, hkx, hx, hu, hrow⟩ := has.exact
    obtain ⟨c, hac, hok⟩ := hread List.mem_cons_self (Nat.le_refl i) hi ha (hF hu)
    have hlast : ∀ {b}, (a' :: as).getLast? = some b → F b j := by
      intro b hb
      refine hj ?_
      rw [List.getLast?_cons, hb]
      rfl
    obtain ⟨c', cs, k', hac', hok', hR, hcs⟩ := ih hx
      (fun {b} hb {i' k'} hle => hread (List.mem_cons_of_mem a hb) (by omega)) hrow hlast
    exact ⟨c, c' :: cs, k, hac, hok, .cons hac' hR, .cons ⟨u, x, hu, hok'⟩ hcs⟩

end Rows

/-! ### Leaves and parts -/

structure IsLeaf (ps : List Pattern) (t : Token) : Prop where
  fits : ∃ p ∈ ps, t.fits p = true
  solid : t.isGap = false
  lexeme : Lexeme t.code t.unplaced

theorem Spans.exists_part {ok : Category → Tree → Nat → Nat → Prop} {items : List Item}
    (h : Spans toks ok items i j) {s : Category} (hmem : .part s t ∈ items) : ∃ i j, ok s t i j := by
  induction h with
  | nil i => cases hmem
  | part h rest ih =>
    rcases List.mem_cons.mp hmem with heq | hmem
    · cases heq
      exact ⟨_, _, h⟩
    · exact ih hmem
  | word _ _ ih | leaf _ _ ih | place _ ih | semicolons _ _ ih | clear _ _ ih =>
    rcases List.mem_cons.mp hmem with heq | hmem
    · cases heq
    · exact ih hmem

theorem Spans.exists_leaf {ok : Category → Tree → Nat → Nat → Prop} {items : List Item}
    (h : Spans toks ok items i j) {t : Token} (hmem : .leaf ps t ∈ items) : ∃ i m, Takes toks ps i t m := by
  induction h with
  | nil i => cases hmem
  | leaf h rest ih =>
    rcases List.mem_cons.mp hmem with heq | hmem
    · cases heq
      exact ⟨_, _, h⟩
    · exact ih hmem
  | word _ _ ih | part _ _ ih | place _ ih | semicolons _ _ ih | clear _ _ ih =>
    rcases List.mem_cons.mp hmem with heq | hmem
    · cases heq
    · exact ih hmem

theorem Derived.induct_trees (hlexeme : ∀ {n : Nat} {t : Token}, toks[n]? = some t → Lexeme t.code t.unplaced)
    {P : Category → Tree → Prop} (step : ∀ {s t i j items}, Rule s i j t items →
      (∀ {s t}, .part s t ∈ items → (∃ i j, Derived toks s t i j) ∧ P s t) →
      (∀ {ps t}, .leaf ps t ∈ items → IsLeaf ps t) → P s t) {s : Category} (h : Derived toks s t i j) :
    P s t := by
  refine Derived.induct (P := fun s t _ _ => P s t) (fun rule row => step rule ?_ ?_) h
  · intro s t hmem
    obtain ⟨i, j, hpart⟩ := row.exists_part hmem
    exact ⟨⟨i, j, hpart.1⟩, hpart.2⟩
  · intro ps t hmem
    obtain ⟨_, _, htakes⟩ := row.exists_leaf hmem
    exact ⟨htakes.fits, htakes.solid, hlexeme htakes.get⟩

/-! ### What it is to be restored -/

def StartsIn (ps : List Pattern) (ws : List Token) : Prop :=
  ∃ w rest, ws = w :: rest ∧ ∃ p ∈ ps, w.fits p = true

/-- Where the words stand and `rest` holds behind them, a tree with the essence of `t` is found. -/
def Reads (ws : List Token) (t : Tree)
    (found : Array Token → (Phrase → Parse (Option Tree)) → Nat → Tree → Nat → Prop)
    (rest : Array Token → Nat → Prop) : Prop :=
  ∀ {toks : Array Token} (n : Nat) {i j : Nat}, Row toks i ws j → toks.size ≤ n + i → i ≤ toks.size →
    rest toks j → ∃ e, e.essence = t.essence ∧ found toks (phrase toks n) i e j

abbrev By (p : Array Token → (Phrase → Parse (Option Tree)) → Parse (Option Tree)) (toks : Array Token)
    (inner : Phrase → Parse (Option Tree)) (i : Nat) (e : Tree) (j : Nat) : Prop :=
  Gives (p toks inner) i (some e) j

def Anyhow (_ : Array Token) (_ : Nat) : Prop := True

def Unless (ps : List Pattern) (toks : Array Token) (j : Nat) : Prop := Stops toks ps j

def valueGoesOn : List Pattern := suffixStarts ++ binaryOperators

def Restores (steps : List Step) (t : Tree) (starts : List Token → Prop)
    (found : Array Token → (Phrase → Parse (Option Tree)) → Nat → Tree → Nat → Prop)
    (rest : Array Token → Nat → Prop) : Prop :=
  ∃ ws, Says steps ws ∧ starts ws ∧ Reads ws t found rest

theorem Rereads.restores {steps : List Step} {starts : List Token → Prop}
    {p : Array Token → (Phrase → Parse (Option Tree)) → Parse (Option Tree)} {rest : Array Token → Nat → Prop}
    (hstarts : ∀ {ws}, Says steps ws → starts ws)
    (h : ∀ toks n, Rereads toks (toks.size - n) steps (rest toks) (Gives (p toks (phrase toks n))) (Like t)) :
    Restores steps t starts (By p) rest := by
  obtain ⟨ws, hsay, -⟩ := h #[] 0
  refine ⟨ws, hsay, hstarts hsay, fun {toks} n {i j} hrow hn hi hj => ?_⟩
  obtain ⟨_, ⟨e, rfl, he⟩, hp⟩ := (h toks n).read hsay hrow (by omega) hi hj
  exact ⟨e, he, hp⟩

theorem Restores.rereads {steps : List Step} {starts : List Token → Prop}
    {p : Array Token → (Phrase → Parse (Option Tree)) → Parse (Option Tree)} {rest : Array Token → Nat → Prop}
    (h : Restores steps t starts (By p) rest) {m n : Nat} (hm : toks.size ≤ n + m) :
    Rereads toks m steps (rest toks) (Gives (p toks (phrase toks n))) (Like t) := by
  obtain ⟨ws, hsay, -, hreads⟩ := h
  refine ⟨ws, hsay, fun {i j} hrow hi hsize hj => ?_⟩
  obtain ⟨e, he, hp⟩ := hreads n hrow (by omega) hsize hj
  exact ⟨_, ⟨e, rfl, he⟩, hp⟩

theorem Restores.inside {steps : List Step} {starts : List Token → Prop}
    {found : Array Token → (Phrase → Parse (Option Tree)) → Nat → Tree → Nat → Prop}
    {rest : Array Token → Nat → Prop} (h : Restores steps t starts found rest) {n : Nat} {q : Parse (Option Tree)}
    (hq : ∀ {l i e j}, n = l + 1 → found toks (phrase toks l) i e j → Gives q i (some e) j) :
    Rereads toks (toks.size - n + 1) steps (rest toks) (Gives q) (Like t) := by
  obtain ⟨ws, hsay, -, hreads⟩ := h
  refine ⟨ws, hsay, fun {i j} hrow hm hi hj => ?_⟩
  obtain ⟨l, rfl⟩ : ∃ l, n = l + 1 := ⟨n - 1, by omega⟩
  obtain ⟨e, he, hfound⟩ := hreads l hrow (by omega) hi hj
  exact ⟨_, ⟨e, rfl, he⟩, hq rfl hfound⟩

theorem StartsIn.takes (h : StartsIn ps ws) (hrow : Row toks i ws j) : ∃ t x, Takes toks ps i t x := by
  obtain ⟨w, rest, rfl, hfits⟩ := h
  obtain ⟨t, x, -, -, ht, -⟩ := hrow.takes ps hfits
  exact ⟨t, x, ht⟩

theorem StartsIn.append (h : StartsIn ps ws) (us : List Token) : StartsIn ps (ws ++ us) := by
  obtain ⟨w, rest, rfl, hfits⟩ := h
  exact ⟨w, rest ++ us, rfl, hfits⟩

theorem Restores.before {steps : List Step} {starts : List Token → Prop} {qs : List Pattern}
    {rest : Array Token → Nat → Prop} {F : Nat → Prop}
    {found : Array Token → (Phrase → Parse (Option Tree)) → Nat → Tree → Nat → Prop}
    (h : Restores steps t starts found rest) (hstarts : ∀ {ws}, starts ws → StartsIn ps ws)
    (hps : ∀ p ∈ ps, ∀ q ∈ qs, p.meets q = false) : Before toks steps F (Stops toks qs) := by
  obtain ⟨ws, hsay, hws, -⟩ := h
  intro us i j hus hrow _
  obtain rfl := hsay.eq hus
  obtain ⟨u, x, hu⟩ := (hstarts hws).takes hrow
  exact hu.stops hps

theorem StartsIn.mono {qs : List Pattern} (h : StartsIn ps ws) (hsub : ps ⊆ qs) : StartsIn qs ws := by
  obtain ⟨w, rest, rfl, p, hp, hfits⟩ := h
  exact ⟨w, rest, rfl, p, hsub hp, hfits⟩

theorem StartsIn.lt (h : StartsIn ps ws) (hrow : Row toks i ws j) : i < j := by
  obtain ⟨w, rest, rfl, -⟩ := h
  have hle := hrow.length_le
  rw [List.length_cons] at hle
  omega

theorem Reads.expression {rest : Array Token → Nat → Prop} (h : Reads ws t (By expression) rest) (n : Nat)
    (hrow : Row toks i ws j) (hn : toks.size < n + i) (hi : i ≤ toks.size) (hrest : rest toks j) :
    ∃ e, e.essence = t.essence ∧ Gives (phrase toks n .expression) i (some e) j := by
  obtain ⟨n, rfl⟩ : ∃ m, n = m + 1 := ⟨n - 1, by omega⟩
  exact h n hrow (by omega) hi hrest

theorem StartsIn.word {x : String} {o o' : Owner} {steps : List Step}
    (h : ∃ w ∈ [Token.keyword x, Token.symbol x], Fixed x w ∧ .exact w ∈ ps)
    (hsay : Says (.gap o :: .text o' (word x) :: steps) ws) : StartsIn ps ws := by
  obtain ⟨w, -, hw, hps⟩ := h
  cases hsay with
  | gap _ hsay =>
    cases hsay with
    | text _ hlexeme hsolid hsay =>
      obtain rfl := (List.cons.inj ((hw.says_word o' hsay).eq (.text o' hlexeme hsolid hsay))).1
      exact ⟨_, _, rfl, _, hps, by simp [Token.fits, Token.agrees]⟩

theorem phrase_none {n : Nat} (h : Stops toks termStarts i) (hn : toks.size - n + 1 ≤ i) (hi : i ≤ toks.size) :
    Gives (phrase toks n .expression) i none i := by
  obtain ⟨n, rfl⟩ : ∃ m, n = m + 1 := ⟨n - 1, by omega⟩
  exact expression_none h

variable {i j : Nat} {t u v : Tree} {op : Token}

/-! ### Leaves -/

theorem IsLeaf.fits_unplaced (h : IsLeaf ps a) : ∃ p ∈ ps, a.unplaced.fits p = true := by
  obtain ⟨p, hp, hfits⟩ := h.fits
  exact ⟨p, hp, by rw [Token.fits_unplaced, hfits]⟩

theorem IsLeaf.starts (h : IsLeaf ps a) (ws : List Token) : StartsIn ps (a.unplaced :: ws) :=
  ⟨_, ws, rfl, h.fits_unplaced⟩

/-! ### Expressions -/

def valueStarts : List Pattern :=
  [.kind .number, .kind .string] ++ (signs ["(", "...", "-", "#"] ++
    reserveds ["nil", "false", "true", "not"])

def Valued (v : Tree) : Prop :=
  Restores (v.script true) v (fun _ => True) (By expression) (Unless valueGoesOn)

theorem Valued.read (h : Valued v) {n : Nat} :
    Rereads toks (toks.size - n + 1) (v.script true) (Stops toks valueGoesOn)
      (Gives (phrase toks n .expression)) (Like v) :=
  h.inside fun hn hgives => hn ▸ hgives

def TermEnd (t : Tree) (toks : Array Token) (j : Nat) : Prop :=
  (t.isOpen = true → Stops toks suffixStarts j) ∧ (t.endsUnary = true → Stops toks binaryOperators j)

def ByOperations (toks : Array Token) (inner : Phrase → Parse (Option Tree)) (i : Nat) (e : Tree)
    (j : Nat) : Prop :=
  OperationLoop toks inner e i j

structure ValueBack
    (found : Array Token → (Phrase → Parse (Option Tree)) → Nat → Tree → Nat → Prop) (t : Tree) : Prop where
  kind : isExpression t = true
  restores : Restores (t.script true) t (StartsIn valueStarts) found (TermEnd t)
  inside : ∀ {v : Tree} {o : Origin}, t = .node .expValue [v] o → v.isNode = true → Valued v

theorem isNode_of_isExpression (h : isExpression t = true) : t.isNode = true := by
  cases t with
  | node => rfl
  | _ => cases h

def ValueEnd (t : Tree) (toks : Array Token) (j : Nat) : Prop :=
  (t.isOpen = true → Stops toks suffixStarts j) ∧ Stops toks binaryOperators j

theorem ValueEnd.of_stops (h : Stops toks valueGoesOn j) : ValueEnd t toks j :=
  ⟨fun _ => h.mono (List.subset_append_left _ _), h.mono (List.subset_append_right _ _)⟩

theorem ValueBack.expression (h : ValueBack ByOperations t) :
    Restores (t.script true) t (StartsIn valueStarts) (By expression) (ValueEnd t) := by
  obtain ⟨ws, hsay, hstarts, hreads⟩ := h.restores
  refine ⟨ws, hsay, hstarts, fun {toks} n {i j} hrow hn hi hend => ?_⟩
  obtain ⟨e, he, hloop⟩ := hreads n hrow hn hi ⟨hend.1, fun _ => hend.2⟩
  exact ⟨e, he, OperationLoop.gives hloop hend.2 (hrow.end_le hi)⟩

theorem ValueBack.valued (h : ValueBack ByOperations t) : Valued t := by
  obtain ⟨ws, hsay, -, hreads⟩ := h.expression
  exact ⟨ws, hsay, trivial, fun n _ _ hrow hn hi hend => hreads n hrow hn hi (.of_stops hend)⟩

theorem readBack_single (h : ValueBack (By term) t) : ValueBack ByOperations t := by
  refine ⟨h.kind, ?_, h.inside⟩
  obtain ⟨ws, hsay, hstarts, hreads⟩ := h.restores
  refine ⟨ws, hsay, hstarts, fun {toks} n {i j} hrow hn hi hend => ?_⟩
  obtain ⟨e, he, hterm⟩ := hreads n hrow hn hi hend
  exact ⟨e, he, operationLoop_term hterm⟩

theorem readBack_constant {word : String} {value : Tree} (h : (word, value) ∈ constants) :
    ValueBack (By term) (.made .expValue [value] i j) := by
  have hleaf : value.isNode = false ∧ Bytes.ofText word ∈ keywords ∧
      .exact (Token.keyword word) ∈ valueStarts ∧
      (made .expValue [value] i j).script true =
        [.gap (.upTo j), .gap (.upTo j), .text (.upTo j) (Tree.word word)] := by
    simp only [constants, List.mem_cons, Prod.mk.injEq, List.not_mem_nil, or_false] at h
    obtain ⟨rfl, rfl⟩ | ⟨rfl, rfl⟩ | ⟨rfl, rfl⟩ := h
    all_goals exact ⟨rfl, by decide, by decide, rfl⟩
  obtain ⟨hvalue, hword, hstart, hscript⟩ := hleaf
  refine ⟨rfl, ⟨[Token.keyword word], ?_, ⟨_, _, rfl, _, hstart, ?_⟩, ?_⟩, ?_⟩
  · rw [hscript]
    exact .gap _ (.gap _ (.reserved _ hword .nil))
  · simp [Token.fits, Token.agrees]
  · intro toks n i j hrow hn hi hend
    obtain ⟨a, x, -, -, ha, hrow⟩ := hrow.exact
    cases hrow
    refine ⟨_, ?_, term_constant h ha⟩
    rw [made, made, essence, essence]
  · intro v o heq hv
    cases heq
    rw [hvalue] at hv
    cases hv

theorem readBack_literal {k : TokenKind} (hk : k = .number ∨ k = .string) (ha : IsLeaf [.kind k] a) :
    ValueBack (By term) (.made .expValue [.token a] i j) := by
  have hkind : a.kind = k := by
    obtain ⟨p, hp, hfits⟩ := ha.fits
    rw [List.mem_singleton.mp hp] at hfits
    obtain rfl | rfl := hk <;> simpa [Token.fits] using hfits
  have hscript : (made .expValue [.token a] i j).script true =
      [.gap (.upTo j), .gap (.upTo j), .gap (.upTo j), .take a.code] := by
    obtain rfl | rfl := hk
    all_goals
      rw [made, script]
      simp [hkind, isNode, Origin.owner]
  refine ⟨rfl, ⟨[a.unplaced], ?_, ?_, ?_⟩, ?_⟩
  · rw [hscript]
    exact .gap _ (.gap _ (.take _ ha.lexeme ha.solid .nil))
  · refine (ha.starts []).mono ?_
    obtain rfl | rfl := hk <;> decide
  · intro toks n i j hrow hn hi hend
    obtain ⟨b, x, -, -, hb, hab, hrow⟩ := hrow.takes [.kind k] ha.fits_unplaced
    cases hrow
    refine ⟨_, ?_, term_literal hk hb⟩
    rw [made, made, essence, essence, essence_token, essence_token, hab]
    rfl
  · intro v o heq hv
    cases heq
    cases hv

theorem readBack_dots : ValueBack (By term) (.made .varargDots [] i j) := by
  refine ⟨rfl, ⟨[Token.symbol "..."], ?_, ⟨_, _, rfl, .exact (Token.symbol "..."), by decide, by decide⟩, ?_⟩, ?_⟩
  · exact .gap _ (.sign _ (by decide) .nil)
  · intro toks n i j hrow hn hi hend
    obtain ⟨a, x, -, -, ha, hrow⟩ := hrow.exact
    cases hrow
    exact ⟨_, by simp, term_dots ha⟩
  · intro v o heq
    cases heq

theorem readBack_value (hv : v.isNode = true) (h : Valued v) :
    ValueBack (By term) (.made .expValue [v] i j) := by
  have ⟨ws, hsay, _, hreads⟩ := h
  have hscript : (made .expValue [v] i j).script true =
      .gap (.upTo j) :: .gap (.upTo j) :: .put (Tree.word "(") :: .indent ::
        (v.script true ++ [.dedent, .text (.upTo j) (Tree.word ")")]) := by
    cases v with
    | node => rfl
    | _ => cases hv
  refine ⟨rfl, ⟨Token.symbol "(" :: (ws ++ [Token.symbol ")"]), ?_,
    ⟨_, _, rfl, .exact (Token.symbol "("), by decide, by decide⟩, ?_⟩, ?_⟩
  · rw [hscript]
    exact .gap _ (.put _ (lexeme_of_mem_symbols (by decide)) rfl
      (.indent (hsay.append (.dedent (.sign _ (by decide) .nil)))))
  · intro toks n i j hrow hn hi hend
    obtain ⟨a, x, hix, hx, ha, hrow⟩ := hrow.exact
    obtain ⟨k, b, y, hxk, hky, hy, hws, hb, hrow⟩ := hrow.upTo
    cases hrow
    obtain ⟨e, he, hexp⟩ := hreads.expression n hws (by omega) (by omega) (hb.stops (by decide))
    have hnode := isNode_of_essence he hv
    refine ⟨_, ?_, term_chain (ha.mono (by decide)) ((chainLoop_brackets ha hexp hb).gives
      (ne_absent_of_isNode hnode) (hend.1 hv) hy)⟩
    rw [essence_value hnode, essence_value hv, he]
  · intro v' o heq _
    cases heq
    exact h

theorem readBack_unary (hop : IsLeaf unaryOperators op) (h : ValueBack ByOperations t) :
    ValueBack (By term) (.made .expUnOp [.token op, t] i j) := by
  obtain ⟨ws, hsay, -, hreads⟩ := h.expression
  refine ⟨rfl, ⟨op.unplaced :: ws, ?_, (hop.starts ws).mono (by decide), ?_⟩, ?_⟩
  · exact .gap _ (.text _ hop.lexeme hop.solid hsay)
  · intro toks n i j hrow hn hi hend
    obtain ⟨a, x, hix, hx, ha, hab, hrow⟩ := hrow.takes unaryOperators hop.fits_unplaced
    obtain ⟨e, he, hexp⟩ := hreads.expression n hrow (by omega) (by omega) ⟨hend.1, hend.2 rfl⟩
    exact ⟨_, by simp [he, hab], term_unary ha hexp⟩
  · intro v o heq
    cases heq

theorem readBack_operation (hfirst : ValueBack ByOperations t) (hop : IsLeaf binaryOperators op)
    (hsecond : ValueBack (By term) u) (hunary : t.endsUnary = false) :
    ValueBack ByOperations (.made .expBinOp [t, .token op, u] i j) := by
  obtain ⟨ws, hsay, hstarts, hreads⟩ := hfirst.restores
  obtain ⟨us, hsay', hstarts', hreads'⟩ := hsecond.restores
  refine ⟨rfl, ⟨ws ++ op.unplaced :: us, ?_, hstarts.append _, ?_⟩, ?_⟩
  · exact .gap _ (hsay.append (.text _ hop.lexeme hop.solid hsay'))
  · intro toks n i j hrow hn hi hend
    obtain ⟨k, hik, hws, hrow⟩ := hrow.split
    obtain ⟨a, x, hkx, hx, ha, hab, hrow⟩ := hrow.takes binaryOperators hop.fits_unplaced
    -- an operator goes on with no chain, and the first operand does not end in one that takes it
    have hbetween : TermEnd t toks k := by
      refine ⟨fun _ => ha.stops (by decide), fun h => ?_⟩
      rw [hunary] at h
      cases h
    obtain ⟨e, he, hloop⟩ := hreads n hws hn hi hbetween
    obtain ⟨f, hf, hterm⟩ := hreads' n hrow (by omega) (by omega) hend
    have hlt := hstarts'.lt hrow
    exact ⟨_, by simp [he, hf, hab], OperationLoop.operation hloop ha hterm (by omega)⟩
  · intro v o heq
    cases heq

end Grammar
end Cartridge.Lua
