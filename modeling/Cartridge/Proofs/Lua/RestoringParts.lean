import Cartridge.Proofs.Lua.Restoring

/-!
# Parts of statements are restored

Variables and calls grow from their first word on: each key, attribute or pair of parentheses is read
behind what has been read so far.  A literal or an operation has no parentheses of its own in a script, so
that it is no base for any of them; all other bases are restored together with what follows them.
-/

namespace Cartridge.Lua

open List
namespace Grammar

open Lua.Tree

variable {i j m : Nat} {t u v : Tree} {w : Owner}

abbrev Within (p : Array Token → (Phrase → Parse (Option Tree)) → Parse (Option Tree)) (toks : Array Token)
    (inner : Phrase → Parse (Option Tree)) : Parse (Option Tree) :=
  p toks (level toks inner)

theorem Reads.within {p : Array Token → (Phrase → Parse (Option Tree)) → Parse (Option Tree)}
    {ws : List Token} {rest : Array Token → Nat → Prop} (h : Reads ws t (By (Within p)) rest)
    {toks : Array Token} (n : Nat) {i j : Nat} (hrow : Row toks i ws j) (hn : toks.size < n + i)
    (hi : i ≤ toks.size) (hrest : rest toks j) :
    ∃ e, e.essence = t.essence ∧ Gives (p toks (phrase toks n)) i (some e) j := by
  obtain ⟨n, rfl⟩ : ∃ m, n = m + 1 := ⟨n - 1, by omega⟩
  have hlevel : phrase toks (n + 1) = level toks (phrase toks n) := funext fun _ => rfl
  rw [hlevel]
  exact h n hrow (by omega) hi hrest

/-! ### Expressions with commas -/

theorem isAbsent_of_isNode (h : t.isNode = true) : t.isAbsent = false := by
  cases t with
  | node => rfl
  | _ => cases h

theorem map_essence_of_forall₂ {ts es : List Tree}
    (h : Forall₂ (fun t e => e.essence = t.essence) ts es) : es.map essence = ts.map essence := by
  induction h with
  | nil => rfl
  | cons h _ ih => rw [map_cons, map_cons, h, ih]

theorem endsOpen_of_getLast? {ts : List Tree} (h : ts.getLast? = some t) : endsOpen ts = t.isOpen := by
  induction ts with
  | nil => cases h
  | cons a ts ih =>
    cases ts with
    | nil =>
      obtain rfl : a = t := Option.some.inj h
      rw [endsOpen]
    | cons b ts =>
      rw [getLast?_cons_cons] at h
      rw [endsOpen, ih h]

theorem says_more {g : Tree → List Token} {ts : List Tree} (h : ∀ t ∈ ts, Says (t.script true) (g t)) :
    Says (moreScript true w ts) (ts.flatMap fun t => Token.symbol "," :: g t) := by
  induction ts with
  | nil => exact .nil
  | cons t ts ih =>
    rw [flatMap_cons]
    exact .sign _ (by decide) ((h t List.mem_cons_self).append (ih fun u hu => h u (List.mem_cons_of_mem t hu)))

def ListEnd (t : Tree) (toks : Array Token) (j : Nat) : Prop :=
  ValueEnd t toks j ∧ Stops toks [.exact (Token.symbol ",")] j

theorem ListEnd.of_stops {toks : Array Token} (h : Stops toks (valueGoesOn ++ signs [","]) j) : ListEnd t toks j :=
  ⟨.of_stops (h.mono (subset_append_left _ _)), h.mono (subset_append_right _ _)⟩

def ExpressionsBack (t : Tree) : Prop :=
  Restores (t.script true) t (StartsIn valueStarts) (By (Within expList)) (ListEnd t)

theorem readBack_expressions {first : Tree} {rest : List Tree}
    (h : ∀ t ∈ first :: rest, ValueBack ByOperations t) :
    ExpressionsBack (.made .expList [.list (first :: rest)] i j) := by
  have hwords := fun t ht => (h t ht).expression
  unfold Restores at hwords
  choose! g hsay hstarts hreads using hwords
  refine ⟨g first ++ rest.flatMap fun t => Token.symbol "," :: g t, ?_,
    (hstarts first List.mem_cons_self).append _, ?_⟩
  · exact .gap _ ((hsay first List.mem_cons_self).append
      (says_more fun t ht => hsay t (List.mem_cons_of_mem first ht)))
  · intro toks n i j hrow hn hi hend
    have hread : ∀ {t}, t ∈ first :: rest → ∀ {i' k}, i ≤ i' → i' ≤ toks.size → Row toks i' (g t) k →
        ValueEnd t toks k → ∃ e, e.essence = t.essence ∧
          Given toks (level toks (phrase toks n) .expression) i' e k := by
      intro t ht i' k hle hi' hrow hend
      obtain ⟨e, he, hgives⟩ := hreads t ht n hrow (by omega) hi' hend
      exact ⟨e, he, hgives, Nat.le_of_lt ((hstarts t ht).lt hrow), hrow.end_le hi'⟩
    have hlast : ∀ {t}, (first :: rest).getLast? = some t → ValueEnd t toks j := by
      intro t ht
      refine ⟨fun hopen => hend.1.1 ?_, hend.1.2⟩
      rw [Tree.made, Tree.isOpen, endsOpen_of_getLast? ht, hopen]
    obtain ⟨e, es, k, he, hfirst, hes, hrest⟩ := Row.sequence
      (fun hu => ⟨fun _ => hu.stops (by decide), hu.stops (by decide)⟩) hi hread hrow hlast
    refine ⟨_, ?_, expList_gives hfirst.gives hrest hend.2 (hrow.end_le hi)⟩
    rw [essence_made_list (by decide), essence_made_list (by decide), map_cons, map_cons, he,
      map_essence_of_forall₂ hes]

theorem ExpressionsBack.read (h : ExpressionsBack t) {toks : Array Token} {n : Nat} :
    Rereads toks (toks.size - n + 1) (t.script true) (ListEnd t toks) (Gives (expList toks (phrase toks n)))
      (Like t) :=
  h.inside fun hn hgives => hn ▸ hgives

theorem Rereads.expressions {toks : Array Token} {n : Nat} {β : Type} {exps : Option Tree} {steps : List Step}
    {rest : Nat → Prop} {f : Option Tree → Parse β} {R : β → Prop}
    (hexps : ∀ t ∈ exps, t.isNode = true ∧ ExpressionsBack t)
    (hend : Before toks steps rest (Stops toks (termStarts ++ (valueGoesOn ++ signs [","]))))
    (hf : ∀ es, (Tree.ofOption es).essence = (Tree.ofOption exps).essence →
      Rereads toks (toks.size - n + 1) steps rest (Gives (f es)) R) :
    Rereads toks (toks.size - n + 1)
      ((if (Tree.ofOption exps).isAbsent then [] else (Tree.ofOption exps).script true) ++ steps) rest
      (Gives (expList toks (phrase toks n) >>= f)) R := by
  cases exps with
  | none =>
    exact .miss hend (fun hm hi h => expList_none (phrase_none (h.mono (subset_append_left _ _)) hm hi)) (hf none rfl)
  | some t =>
    obtain ⟨hnode, hback⟩ := hexps t rfl
    rw [show (Tree.ofOption (some t)).isAbsent = false from isAbsent_of_isNode hnode]
    exact .option hback.read (hend.imp fun h => .of_stops (h.mono (subset_append_right _ _))) fun e he => hf (some e) he

/-! ### Tables -/

def FieldBack (t : Tree) : Prop :=
  Restores (t.script true) t (fun _ => True) (By (Within tableField)) (Unless valueGoesOn)

theorem readBack_keyField (hkey : ValueBack ByOperations u) (hvalue : ValueBack ByOperations v) :
    FieldBack (.made .fieldExpKey [u, v] i j) := by
  refine Rereads.restores (fun _ => trivial) fun toks n => ?_
  rw [Tree.made, Tree.script]
  simp only [append_assoc, cons_append, nil_append]
  refine .gap (.fromHere fun _ => .lead (by decide) fun _ => .indent ?_)
  refine .part (Restores.rereads hkey.valued (by omega)) (.dedent (.word (by decide))) fun e he => ?_
  refine .dedent (.skip (by decide) (.skip (by decide) ?_))
  exact .last (Restores.rereads hvalue.valued (by omega)) (fun _ => id) fun f hf =>
    .made fun _ => ⟨_, rfl, by simp [he, hf]⟩

theorem readBack_namedField {a : Token} (ha : IsLeaf [.kind .name] a) (hvalue : ValueBack ByOperations v) :
    FieldBack (.made .fieldNamedKey [.token a, v] i j) := by
  obtain ⟨us, hsay, -, hreads⟩ := hvalue.valued
  refine ⟨a.unplaced :: Token.symbol "=" :: us, ?_, trivial, ?_⟩
  · exact .gap _ (.name _ ha.lexeme ha.solid (.sign _ (by decide) hsay))
  · intro toks n i j hrow hn hi hend
    obtain ⟨b, x, hix, hx, hb, hab, hrow⟩ := hrow.takes [.kind .name] ha.fits_unplaced
    obtain ⟨c, y, hxy, hy, hc, hrow⟩ := hrow.exact
    obtain ⟨e, he, hexp⟩ := hreads n hrow (by omega) (by omega) hend
    exact ⟨_, by simp [he, hab], tableField_named hb hc hexp⟩

theorem readBack_plainField (hvalue : ValueBack ByOperations v) : FieldBack (.made .fieldExp [v] i j) := by
  obtain ⟨us, hsay, hstarts, hreads⟩ := hvalue.expression
  refine ⟨us, .gap _ hsay, trivial, ?_⟩
  intro toks n i j hrow hn hi hend
  obtain ⟨a, x, ha⟩ := hstarts.takes hrow
  obtain ⟨e, he, hexp⟩ := hreads n hrow hn hi ⟨fun _ => hend.mono (subset_append_left _ _),
    hend.mono (subset_append_right _ _)⟩
  exact ⟨_, by simp [he], tableField_plain hexp (ha.stops (by decide))⟩

theorem says_moreFields {g : Tree → List Token} {ts : List Tree}
    (h : ∀ t ∈ ts, Says (t.script true) (g t)) :
    Says (moreFieldsScript true w ts) (ts.flatMap fun t => Token.symbol "," :: g t) := by
  induction ts with
  | nil => exact .nil
  | cons t ts ih =>
    rw [flatMap_cons]
    exact .comma _ ((h t List.mem_cons_self).append (ih fun u hu => h u (List.mem_cons_of_mem t hu)))

def TableBack (t : Tree) : Prop :=
  Restores (t.script true) t (StartsIn [.exact (Token.symbol "\x7b")]) (By table) Anyhow

theorem readBack_emptyTable : TableBack (.made .tableConstructor [.list []] i j) := by
  refine ⟨[Token.symbol "\x7b", Token.symbol "\x7d"], ?_, ⟨_, _, rfl, _, List.mem_singleton_self _, by decide⟩, ?_⟩
  · exact .gap _ (.sign _ (by decide) (.indent (.dedent (.gap _ (.sign _ (by decide) .nil)))))
  · intro toks n i j hrow hn hi hend
    obtain ⟨a, x, hix, hx, ha, hrow⟩ := hrow.exact
    obtain ⟨b, y, hxy, hy, hb, hrow⟩ := hrow.exact
    cases hrow
    obtain ⟨n, rfl⟩ : ∃ m, n = m + 1 := ⟨n - 1, by omega⟩
    exact ⟨_, by simp, table_empty ha hb (expression_none (hb.stops (by decide)))⟩

theorem readBack_table {first : Tree} {rest : List Tree} (h : ∀ t ∈ first :: rest, FieldBack t) :
    TableBack (.made .tableConstructor [.list (first :: rest)] i j) := by
  unfold FieldBack Restores at h
  choose! g hsay _ hreads using h
  refine ⟨Token.symbol "\x7b" :: ((g first ++ rest.flatMap fun t => Token.symbol "," :: g t) ++
    [Token.symbol "\x7d"]), ?_, ⟨_, _, rfl, _, List.mem_singleton_self _, by decide⟩, ?_⟩
  · have hfields := (hsay first List.mem_cons_self).append
      (says_moreFields (w := .upTo j) fun t ht => hsay t (List.mem_cons_of_mem first ht))
    have hscript : (Tree.made .tableConstructor [.list (first :: rest)] i j).script true =
        [.gap (.upTo j), .text (.upTo j) (word "\x7b"), .indent] ++
          ((first.script true ++ moreFieldsScript true (.upTo j) rest) ++
            [.dedent, .gap (.upTo j), .text (.upTo j) (word "\x7d")]) := by
      rw [Tree.made, Tree.script]
      simp [isGiven, fieldsScript, Origin.owner]
    rw [hscript]
    exact .gap _ (.sign _ (by decide) (.indent (hfields.append
      (.dedent (.gap _ (.sign _ (by decide) .nil))))))
  · intro toks n i j hrow hn hi hend
    obtain ⟨a, x, hix, hx, ha, hrow⟩ := hrow.exact
    obtain ⟨k, b, y, hxk, hky, hy, hfields, hb, hrow⟩ := hrow.upTo
    cases hrow
    have hread : ∀ {t}, t ∈ first :: rest → ∀ {i' k}, x + 1 ≤ i' → i' ≤ toks.size → Row toks i' (g t) k →
        Stops toks valueGoesOn k → ∃ e, e.essence = t.essence ∧
          Given toks (tableField toks (phrase toks n)) i' e k := by
      intro t ht i' k hle hi' hrow hend
      obtain ⟨e, he, hgives⟩ := Reads.within (p := tableField) (hreads t ht) n hrow (by omega) hi' hend
      exact ⟨e, he, hgives, hrow.le fun hw => hw.lt.1, hrow.end_le hi'⟩
    obtain ⟨e, es, k', he, hfirst, hes, hrest⟩ := Row.sequence (F := fun _ => Stops toks valueGoesOn)
      (fun hu => hu.stops (by decide)) (by omega) hread hfields fun _ => hb.stops (by decide)
    refine ⟨_, ?_, table_gives ha hfirst.gives hrest hb⟩
    rw [essence_made_list (by decide), essence_made_list (by decide), map_cons, map_cons, he,
      map_essence_of_forall₂ hes]

theorem readBack_fields {fields : List Tree} (h : ∀ t ∈ fields, FieldBack t) :
    TableBack (.made .tableConstructor [.list fields] i j) := by
  cases fields with
  | nil => exact readBack_emptyTable
  | cons first rest => exact readBack_table h

/-! ### Arguments -/

def isArguments : Tree → Bool
  | .node .. => true
  | .token t => t.kind == .string
  | _ => false

def argumentSteps (w : Owner) : Tree → List Step
  | .token t => [.gap w, .take t.code]
  | args => args.script true

def ArgumentsBack (t : Tree) : Prop :=
  isArguments t = true ∧
    ∀ w, Restores (argumentSteps w t) t (StartsIn argumentStarts) (By arguments) Anyhow

theorem readBack_bracketArguments {exps : Option Tree} (h : ∀ t ∈ exps, t.isNode = true ∧ ExpressionsBack t) :
    ArgumentsBack (.made .functionArgs [.ofOption exps] i j) := by
  refine ⟨rfl, fun w => Rereads.restores (.word (by decide)) fun toks n => ?_⟩
  refine .gap (.fromHere fun _ => .lead (by decide) fun _ => .indent (.expressions h (.dedent (.word (by decide))) ?_))
  exact fun es hes => .dedent (.skip (by decide) (.made fun _ => ⟨_, rfl, by simp [hes]⟩))

theorem readBack_tableArgument (h : TableBack t) (ht : t.isNode = true) : ArgumentsBack t := by
  obtain ⟨ws, hsay, hstarts, hreads⟩ := h
  have hargs : ∀ w, argumentSteps w t = t.script true := by
    cases t with
    | node => exact fun _ => rfl
    | _ => cases ht
  refine ⟨?_, fun w => ⟨ws, ?_, hstarts.mono (by decide), ?_⟩⟩
  · cases t with
    | node => rfl
    | _ => cases ht
  · rw [hargs]
    exact hsay
  · intro toks n i j hrow hn hi hend
    obtain ⟨a, x, ha⟩ := hstarts.takes hrow
    obtain ⟨e, he, htable⟩ := hreads n hrow hn hi hend
    exact ⟨e, he, arguments_table ha htable⟩

theorem readBack_stringArgument {a : Token} (ha : IsLeaf [.kind .string] a) : ArgumentsBack (.token a) := by
  have hkind : a.kind = .string := by
    obtain ⟨p, hp, hfits⟩ := ha.fits
    rw [mem_singleton.mp hp] at hfits
    simpa [Token.fits] using hfits
  refine ⟨by rw [isArguments, hkind]; rfl, fun w => ⟨[a.unplaced], .take _ ha.lexeme ha.solid .nil,
    ((ha.starts []).mono (by decide)), ?_⟩⟩
  intro toks n i j hrow hn hi hend
  obtain ⟨b, x, hix, hx, hb, hab, hrow⟩ := hrow.takes [.kind .string] ha.fits_unplaced
  cases hrow
  exact ⟨_, by rw [essence_token, essence_token, hab], arguments_string hb⟩

/-! ### Chains -/

def ChainStart (t : Tree) (ws : List Token) : Prop :=
  StartsIn chainStarts ws ∧ (t.startsWithName = true → StartsIn [.kind .name] ws)

def ByChain (t : Tree) (toks : Array Token) (inner : Phrase → Parse (Option Tree)) (i : Nat) (e : Tree)
    (j : Nat) : Prop :=
  ChainLoop toks inner e i j ∧ ∀ k, e.isA k = t.isA k

structure ChainBack (t : Tree) : Prop where
  kind : t.isChain = true
  restores : Restores (t.script true) t (ChainStart t) (ByChain t) Anyhow

def BaseBack (t : Tree) : Prop :=
  t.isBase = true → Restores (t.script true) t (ChainStart t)
    (fun toks inner i e j => ChainLoop toks inner e i j) Anyhow

theorem isNode_of_isChain (h : t.isChain = true) : t.isNode = true := by
  cases t with
  | node => rfl
  | _ => cases h

theorem readBack_variable {a : Token} (ha : IsLeaf [.kind .name] a) :
    ChainBack (.made .varName [.token a] i j) := by
  refine ⟨rfl, [a.unplaced], ?_, ⟨(ha.starts []).mono (by decide), fun _ => ha.starts []⟩, ?_⟩
  · exact .gap _ (.name _ ha.lexeme ha.solid .nil)
  · intro toks n i j hrow hn hi hend
    obtain ⟨b, x, hix, hx, hb, hab, hrow⟩ := hrow.takes [.kind .name] ha.fits_unplaced
    cases hrow
    exact ⟨_, by simp [hab], chainLoop_name hb, fun _ => rfl⟩

theorem readBack_chainBase (h : ChainBack t) : BaseBack t := by
  intro _
  obtain ⟨ws, hsay, hstarts, hreads⟩ := h.restores
  refine ⟨ws, hsay, hstarts, fun {toks} n {i j} hrow hn hi hend => ?_⟩
  obtain ⟨e, he, hloop, -⟩ := hreads n hrow hn hi hend
  exact ⟨e, he, hloop⟩

theorem readBack_bracketedBase (h : ValueBack ByOperations t) : BaseBack t := by
  intro hbase
  have hchain : t.isChain = false := by
    have hkind := h.kind
    cases t with
    | node k fs o => cases k <;> first | rfl | cases hkind
    | _ => cases hkind
  obtain ⟨v, o, rfl, hv⟩ := exists_value_of_isBase hbase hchain
  obtain ⟨ws, hsay, -, hreads⟩ := h.inside rfl hv
  have hscript : (Tree.node .expValue [v] o).script true =
      .gap o.owner :: .gap o.owner :: .put (word "(") :: .indent ::
        (v.script true ++ [.dedent, .text o.owner (word ")")]) := by
    cases v with
    | node => rfl
    | _ => cases hv
  refine ⟨Token.symbol "(" :: (ws ++ [Token.symbol ")"]), ?_,
    ⟨⟨_, _, rfl, .exact (Token.symbol "("), by decide, by decide⟩, nofun⟩, ?_⟩
  · rw [hscript]
    exact .gap _ (.put _ (lexeme_of_mem_symbols (by decide)) rfl
      (.indent (hsay.append (.dedent (.sign _ (by decide) .nil)))))
  · intro toks n i j hrow hn hi hend
    obtain ⟨a, x, hix, hx, ha, hrow⟩ := hrow.exact
    obtain ⟨k, b, y, hxk, hky, hy, hws, hb, hrow⟩ := hrow.upTo
    cases hrow
    obtain ⟨e, he, hexp⟩ := hreads.expression n hws (by omega) (by omega) (hb.stops (by decide))
    exact ⟨e, by rw [essence, if_pos hv, he], chainLoop_brackets ha hexp hb⟩

theorem BaseBack.suffix {k : NodeKind} {first : Tree} {parts : List Tree} {steps : List Step}
    (h : BaseBack first) (hbase : first.isBase = true)
    (hchain : (Tree.made k (first :: parts) i j).isChain = true)
    (hname : (Tree.made k (first :: parts) i j).startsWithName = first.startsWithName)
    (hscript : (Tree.made k (first :: parts) i j).script true = .gap w :: (first.script true ++ steps))
    (hword : ¬Says steps [])
    (hread : ∀ toks n e, Rereads toks (toks.size - n) steps (fun _ => True)
      (Gives (Grammar.suffix toks (phrase toks n) e))
      fun r => ∃ es i j, r = some (.made k (e :: es) i j) ∧ es.map essence = parts.map essence) :
    ChainBack (.made k (first :: parts) i j) := by
  have hk : k ≠ .expValue := by
    rintro rfl
    cases hchain
  obtain ⟨ws, hsay, hstarts, hreads⟩ := h hbase
  obtain ⟨us, hsay', -⟩ := hread #[] 0 first
  refine ⟨hchain, ws ++ us, ?_, ⟨hstarts.1.append us, fun h => (hstarts.2 ?_).append us⟩, ?_⟩
  · rw [hscript]
    exact .gap _ (hsay.append hsay')
  · rw [← hname, h]
  · intro toks n i j hrow hn hi hend
    obtain ⟨k', hik, hws, hrow⟩ := hrow.split
    obtain ⟨e, he, hloop⟩ := hreads n hws hn hi trivial
    have hk' := hws.end_le hi
    obtain ⟨_, ⟨es, _, _, rfl, hes⟩, hsuffix⟩ := (hread toks n e).read hsay' hrow (by omega) hk' trivial
    have hlt : k' < j := by
      have hlength := hrow.length_le
      have := length_pos_iff.mpr fun hus : us = [] => hword (hus ▸ hsay')
      omega
    refine ⟨_, ?_, hloop.suffix hsuffix hlt (hrow.end_le hk'), fun _ => rfl⟩
    rw [essence_made hk, essence_made hk, map_cons, map_cons, he, hes]

theorem readBack_index {first key : Tree} (h : BaseBack first) (hbase : first.isBase = true)
    (hkey : ValueBack ByOperations key) : ChainBack (.made .varIndex [first, key] i j) := by
  refine h.suffix hbase rfl rfl (by simp only [Tree.made, Tree.script, append_assoc, cons_append, nil_append]; rfl)
    (by rintro ⟨⟩) fun toks n e => .fromHere fun _ => .lead (by decide) fun _ => .indent ?_
  refine .part hkey.valued.read (.dedent (.word (by decide))) fun f hf => .dedent (.skip (by decide) ?_)
  exact .made fun _ => ⟨[f], _, _, rfl, by simp [hf]⟩

theorem readBack_attribute {first : Tree} {a : Token} (h : BaseBack first) (hbase : first.isBase = true)
    (ha : IsLeaf [.kind .name] a) : ChainBack (.made .varAttribute [first, .token a] i j) := by
  refine h.suffix hbase rfl rfl rfl nofun fun toks n e => .fromHere fun _ => .pass (.word (by decide)) ?_
  refine .lead (by decide) fun _ => .leaf (.name _ ha.lexeme ha.solid) ha.fits_unplaced (fun ht hf => .expect ht hf)
    (Nat.le_succ _) fun b hb => ?_
  exact .made fun _ => ⟨[.token b], _, _, rfl, by simp [hb]⟩

theorem readBack_call {first args : Tree} (h : BaseBack first) (hbase : first.isBase = true)
    (hargs : ArgumentsBack args) : ChainBack (.made .functionCall [first, args] i j) := by
  obtain ⟨hkind, hback⟩ := hargs
  have hscript : (Tree.made .functionCall [first, args] i j).script true =
      .gap (.upTo j) :: (first.script true ++ argumentSteps (.upTo j) args) := by
    cases args with
    | node => rfl
    | token a =>
      have hstring : (a.kind == .string) = true := hkind
      rw [Tree.made, Tree.script, if_pos hstring]
      rfl
    | _ => cases hkind
  refine h.suffix hbase rfl rfl hscript (fun hnil => ?_) fun toks n e => ?_
  · obtain ⟨_, hsay, ⟨_, _, rfl, -⟩, -⟩ := hback (.upTo j)
    cases hnil.eq hsay
  · refine .fromHere fun _ => .pass ((hback _).before id (by decide)) (.pass ((hback _).before id (by decide)) ?_)
    rw [← append_nil (argumentSteps _ args)]
    refine .option ((hback _).rereads (by omega)) (.nil fun _ _ => trivial) fun f hf => ?_
    exact .made fun _ => ⟨[f], _, _, rfl, by simp [hf]⟩

theorem readBack_method {first args : Tree} {a : Token} (h : BaseBack first) (hbase : first.isBase = true)
    (ha : IsLeaf [.kind .name] a) (hargs : ArgumentsBack args) :
    ChainBack (.made .functionCallMethod [first, .token a, args] i j) := by
  obtain ⟨hkind, hback⟩ := hargs
  have hscript : (Tree.made .functionCallMethod [first, .token a, args] i j).script true =
      .gap (.upTo j) :: (first.script true ++ .text (.upTo j) (word ":") :: .name (.upTo j) (.token a) ::
        argumentSteps (.upTo j) args) := by
    cases args with
    | node => simp [Tree.made, Tree.script, argumentSteps, spelling, Origin.owner]
    | token a =>
      have hstring : (a.kind == .string) = true := hkind
      rw [Tree.made, Tree.script, if_pos hstring, append_assoc]
      simp [argumentSteps, spelling, Origin.owner]
    | _ => cases hkind
  refine h.suffix hbase rfl rfl hscript (by rintro ⟨⟩) fun toks n e => ?_
  refine .fromHere fun _ => .pass (.word (by decide)) (.pass (.word (by decide)) ?_)
  refine .miss (.word (by decide)) (fun _ _ h => arguments_none h) (.lead (by decide) fun _ => ?_)
  refine .leaf (.name _ ha.lexeme ha.solid) ha.fits_unplaced (fun ht hf => .expect ht hf) (Nat.le_succ _) fun b hb => ?_
  refine .last ((hback _).rereads (by omega)) (fun _ _ => trivial) fun f hf => ?_
  exact .made fun _ => ⟨[.token b, f], _, _, rfl, by simp [hb, hf]⟩

/-! ### Values of other phrases -/

theorem valued_of_term (hv : v.isNode = true)
    (h : Restores (v.script true) v (fun _ => True)
      (fun toks inner i e j => Gives (term toks inner) i (some (.made .expValue [e] i j)) j)
      (Unless suffixStarts)) : Valued v := by
  obtain ⟨ws, hsay, -, hreads⟩ := h
  refine ⟨ws, hsay, trivial, fun {toks} n {i j} hrow hn hi hend => ?_⟩
  obtain ⟨e, he, hterm⟩ := hreads n hrow hn hi (hend.mono (subset_append_left _ _))
  refine ⟨_, ?_, (operationLoop_term hterm).gives (hend.mono (subset_append_right _ _))
    (hrow.end_le hi)⟩
  rw [essence_value (isNode_of_essence he hv), he]

theorem ChainBack.valued (h : ChainBack t) : Valued t := by
  have hnode := isNode_of_isChain h.kind
  obtain ⟨ws, hsay, hstarts, hreads⟩ := h.restores
  refine valued_of_term hnode ⟨ws, hsay, trivial, fun {toks} n {i j} hrow hn hi hend => ?_⟩
  obtain ⟨a, x, ha⟩ := hstarts.1.takes hrow
  obtain ⟨e, he, hloop, -⟩ := hreads n hrow hn hi trivial
  exact ⟨e, he, term_chain ha (hloop.gives (ne_absent_of_isNode (isNode_of_essence he hnode)) hend
    (hrow.end_le hi))⟩

theorem TableBack.valued (h : TableBack t) (ht : t.isNode = true) : Valued t := by
  obtain ⟨ws, hsay, hstarts, hreads⟩ := h
  refine valued_of_term ht ⟨ws, hsay, trivial, fun {toks} n {i j} hrow hn hi hend => ?_⟩
  obtain ⟨a, x, ha⟩ := hstarts.takes hrow
  obtain ⟨e, he, htable⟩ := hreads n hrow hn hi trivial
  exact ⟨e, he, term_table ha htable⟩

/-! ### Names -/

section Names

theorem essence_made_pair {k : NodeKind} (hk : k ≠ .expValue) (t u : Tree) (i j : Nat) :
    (made k [t, u] i j).essence = .node k [t.essence, u.essence] {} :=
  essence_made hk _ i j

variable {first : Token} {rest : List Token} {sign : String}

theorem says_names (hsign : Bytes.ofText sign ∈ symbols) (h : ∀ a ∈ first :: rest, IsLeaf [.kind .name] a) :
    Says (nameSteps w (word sign) ((first :: rest).map .token))
      ([first.unplaced] ++ rest.flatMap fun a => Token.symbol sign :: [a.unplaced]) := by
  have hmore : ∀ {as : List Token}, (∀ a ∈ as, IsLeaf [.kind .name] a) →
      Says ((as.map Tree.token).flatMap fun t => [.text w (word sign), .name w t.spelling])
        (as.flatMap fun a => Token.symbol sign :: [a.unplaced]) := by
    intro as has
    induction as with
    | nil => exact .nil
    | cons a as ih =>
      have ha := has a List.mem_cons_self
      exact .sign _ hsign (.name _ ha.lexeme ha.solid (ih fun b hb => has b (List.mem_cons_of_mem a hb)))
  have hfirst := h first List.mem_cons_self
  exact .name _ hfirst.lexeme hfirst.solid (hmore fun a ha => h a (List.mem_cons_of_mem first ha))

theorem Row.names {toks : Array Token} (h : ∀ a ∈ first :: rest, IsLeaf [.kind .name] a)
    (hrow : Row toks i ([first.unplaced] ++ rest.flatMap fun a => Token.symbol sign :: [a.unplaced]) j)
    (hi : i ≤ toks.size) :
    ∃ c cs x, Takes toks [.kind .name] i c x ∧
      (c :: cs).map Token.unplaced = (first :: rest).map Token.unplaced ∧
      Chained (Behind toks sign (Named toks)) (x + 1) cs j := by
  have hread : ∀ {a}, a ∈ first :: rest → ∀ {i' k}, i ≤ i' → i' ≤ toks.size → Row toks i' [a.unplaced] k →
      True → ∃ c : Token, c.unplaced = a.unplaced ∧ Named toks i' c k := by
    intro a ha i' k _ _ hrow _
    obtain ⟨c, x, -, -, hc, hac, hrow⟩ := hrow.takes [.kind .name] (h a ha).fits_unplaced
    cases hrow
    exact ⟨c, hac, x, hc, rfl⟩
  obtain ⟨c, cs, k, hc, ⟨x, hx, rfl⟩, hcs, hchain⟩ := Row.sequence (F := fun _ _ => True)
    (fun _ => trivial) hi hread hrow fun _ => trivial
  refine ⟨c, cs, x, hx, ?_, hchain⟩
  rw [map_cons, map_cons, hc]
  refine congrArg _ ?_
  clear hchain hread hrow h hx
  induction hcs with
  | nil => rfl
  | cons h _ ih => rw [map_cons, map_cons, h, ih]

def NamesEnd (toks : Array Token) (j : Nat) : Prop :=
  ∀ u y, Takes toks [.exact (Token.symbol ",")] j u y → Stops toks [.kind .name] (y + 1)

def NamesBack (t : Tree) : Prop :=
  Restores (t.script true) t (fun _ => True) (By fun toks _ => nameList toks) NamesEnd

theorem NamesBack.read (h : NamesBack t) {toks : Array Token} {m : Nat} :
    Rereads toks m (t.script true) (NamesEnd toks) (Gives (nameList toks)) (Like t) :=
  Restores.rereads h (Nat.le_add_right toks.size m)

theorem NamesEnd.of_stops {toks : Array Token} (h : Stops toks (signs [","]) j) : NamesEnd toks j :=
  fun u y hu => absurd hu (h u y)

theorem essence_names {first' : Token} {rest' : List Token}
    (h : (first' :: rest').map Token.unplaced = (first :: rest).map Token.unplaced) :
    ((first' :: rest').map Tree.token).map essence = ((first :: rest).map Tree.token).map essence := by
  have hcomp : ∀ as : List Token, (as.map Tree.token).map essence = (as.map Token.unplaced).map .token := by
    intro as
    rw [map_map, map_map]
    exact map_congr_left fun a _ => essence_token a
  rw [hcomp, hcomp, h]

theorem readBack_names (h : ∀ a ∈ first :: rest, IsLeaf [.kind .name] a) :
    NamesBack (.made .nameList [.list ((first :: rest).map .token)] i j) := by
  refine ⟨_, .gap _ (says_names (by decide) h), trivial, fun {toks} n {i j} hrow hn hi hend => ?_⟩
  obtain ⟨c, cs, x, hc, hsame, hchain⟩ := hrow.names h hi
  refine ⟨_, ?_, nameList_gives hc hchain (hrow.end_le hi) hend⟩
  rw [essence_made_list (by decide), essence_made_list (by decide), essence_names hsame]

def PathBack (t : Tree) : Prop :=
  Restores (t.script true) t (fun _ => True) (By fun toks _ => functionName toks) (Unless (signs [".", ":"]))

theorem readBack_path {method : Option Token} (h : ∀ a ∈ first :: rest, IsLeaf [.kind .name] a)
    (hmethod : ∀ a ∈ method, IsLeaf [.kind .name] a) :
    PathBack (.made .functionName [.list ((first :: rest).map .token), .ofToken? method] i j) := by
  have hnames : Says (nameSteps (.upTo j) (word ".") ((first :: rest).map .token)) _ :=
    says_names (by decide) h
  cases method with
  | none =>
    refine ⟨_, .gap _ (hnames.append .nil), trivial, ?_⟩
    intro toks n i j hrow hn hi hend
    rw [append_nil] at hrow
    obtain ⟨c, cs, x, hc, hsame, hchain⟩ := hrow.names h hi
    refine ⟨_, ?_, functionName_gives hc hchain (hrow.end_le hi) (.inl ⟨rfl, rfl, hend⟩)⟩
    rw [essence_made_pair (by decide), essence_made_pair (by decide), essence_list, essence_list,
      essence_names hsame]
  | some a =>
    have ha := hmethod a rfl
    refine ⟨_, .gap _ (hnames.append (.sign (s := ":") _ (by decide) (.name _ ha.lexeme ha.solid .nil))),
      trivial, ?_⟩
    intro toks n i j hrow hn hi hend
    obtain ⟨k, hik, hpath, hrow⟩ := hrow.split
    obtain ⟨c, cs, x, hc, hsame, hchain⟩ := hpath.names h hi
    obtain ⟨b, y, hky, hy, hb, hrow⟩ := hrow.exact
    obtain ⟨d, z, hyz, hz, hd, had, hrow⟩ := hrow.takes [.kind .name] ha.fits_unplaced
    cases hrow
    refine ⟨_, ?_, functionName_gives hc hchain (hpath.end_le hi)
      (.inr ⟨d, rfl, b, y, hb, z, hd, rfl⟩)⟩
    rw [essence_made_pair (by decide), essence_made_pair (by decide), essence_list, essence_list,
      essence_names hsame, Tree.ofToken?, Tree.ofToken?, essence_token, essence_token, had]

end Names

/-! ### Functions -/

def blockGoesOn : List Pattern :=
  termStarts ++ (valueGoesOn ++ (statementStarts ++ (lastStarts ++ signs [";", ",", "="])))

def BlockBack (t : Tree) : Prop :=
  Restores (t.script true) t (fun _ => True) (By block) (Unless blockGoesOn)

theorem BlockBack.read (h : BlockBack t) {toks : Array Token} {n : Nat} :
    Rereads toks (toks.size - n + 1) (t.script true) (Stops toks blockGoesOn) (Gives (phrase toks n .block))
      (Like t) :=
  h.inside fun hn hgives => hn ▸ hgives

def BodyBack (t : Tree) : Prop :=
  Restores (t.script true) t (StartsIn [.exact (Token.symbol "(")]) (By functionBody) Anyhow

theorem readBack_body {names dots : Option Tree} {block : Tree}
    (hnames : ∀ t ∈ names, t.isNode = true ∧ NamesBack t)
    (hdots : ∀ t ∈ dots, ∃ i j, t = .made .varargDots [] i j) (hblock : BlockBack block) :
    BodyBack (.made .functionBody [.ofOption names, .ofOption dots, block] i j) := by
  refine Rereads.restores (.word (by decide)) fun toks n => ?_
  simp only [Tree.made, Tree.script, append_assoc, cons_append, nil_append]
  refine .gap (.fromHere fun start => .lead (by decide) fun _ => .indent ?_)
  have hrest : ∀ ns {d}, (Tree.ofOption ns).essence = (Tree.ofOption names).essence →
      d.essence = (Tree.ofOption dots).essence → Rereads toks (toks.size - n + 1)
        (.dedent :: .text (.upTo j) (word ")") :: .indent ::
          (block.script true ++ [.dedent, .text (.upTo j) (word "end")])) (Anyhow toks)
        (Gives (afterParameters toks (phrase toks n) start ns d))
        (Like (.made .functionBody [.ofOption names, .ofOption dots, block] i j)) := by
    intro ns d hns hd
    refine .dedent (.skip (by decide) (.indent (.part hblock.read (.dedent (.word (by decide))) fun e he => ?_)))
    exact .dedent (.skip (by decide) (.made fun _ => ⟨_, rfl, by simp [hns, hd, he]⟩))
  cases names with
  | none =>
    cases dots with
    | none =>
      refine .miss (.dedent (.word (by decide))) (fun _ _ h => nameList_none h) (.fromHere fun _ => ?_)
      exact .pass (.dedent (.word (by decide))) (hrest none rfl rfl)
    | some t =>
      obtain ⟨i, j, rfl⟩ := hdots t rfl
      refine .miss (.gap (.word (by decide))) (fun _ _ h => nameList_none h) (.fromHere fun _ => ?_)
      exact .gap (.take (by decide) fun _ => .fromHere fun _ => hrest none rfl (by simp [Tree.ofOption]))
  | some t =>
    obtain ⟨hnode, hback⟩ := hnames t rfl
    rw [show (Tree.ofOption (some t)).isAbsent = false from isAbsent_of_isNode hnode, if_neg Bool.false_ne_true,
      append_assoc]
    cases dots with
    | none =>
      refine .option hback.read ((Before.dedent (.word (by decide))).imp .of_stops) fun e he => ?_
      exact .pass (.dedent (.word (by decide))) (hrest (some e) he rfl)
    | some t =>
      obtain ⟨i, j, rfl⟩ := hdots t rfl
      refine .option hback.read ((Before.next (w := Token.symbol ",")
        (F := Stops toks [.kind .name]) (by decide) (.gap (.word (by decide)))).imp ?_)
        fun e he => .take (by decide) fun _ => .fromHere fun _ => ?_
      · rintro k ⟨u, x, hu, hnext⟩ u' x' hu'
        obtain ⟨rfl, rfl⟩ := hu.eq hu'
        exact hnext
      · exact .gap (.skip (by decide) (.fromHere fun _ => hrest (some e) he (by simp [Tree.ofOption])))

def FunctionBack (t : Tree) : Prop :=
  Restores (t.script true) t (StartsIn [.exact (Token.keyword "function")]) (By function) Anyhow

theorem readBack_function (h : BodyBack t) : FunctionBack (.made .function [t] i j) := by
  obtain ⟨ws, hsay, -, hreads⟩ := h
  refine ⟨Token.keyword "function" :: ws, ?_, ⟨_, _, rfl, _, List.mem_singleton_self _, by decide⟩, ?_⟩
  · exact .gap _ (.reserved _ (by decide) hsay)
  · intro toks n i j hrow hn hi hend
    obtain ⟨a, x, hix, hx, ha, hrow⟩ := hrow.exact
    obtain ⟨e, he, hbody⟩ := hreads n hrow (by omega) (by omega) trivial
    exact ⟨_, by simp [he], function_gives ha hbody⟩

theorem FunctionBack.valued (h : FunctionBack t) (ht : t.isNode = true) : Valued t := by
  obtain ⟨ws, hsay, hstarts, hreads⟩ := h
  refine valued_of_term ht ⟨ws, hsay, trivial, fun {toks} n {i j} hrow hn hi hend => ?_⟩
  obtain ⟨a, x, ha⟩ := hstarts.takes hrow
  obtain ⟨e, he, hfunction⟩ := hreads n hrow hn hi trivial
  exact ⟨e, he, term_function ha hfunction⟩

end Grammar
end Cartridge.Lua
