import Cartridge.Proofs.Lua.Stepwise

/-!
# Phrases are found

The converse of what the grammar finds being derived: where the words of a phrase come one after the
other, and no word behind them goes on with it, the phrase is found.  There is one lemma for each parser,
over what the parsers of the inner phrases give.

Chains and expressions are read in a loop that starts with what has been read so far.  So the first part
of a longer chain or expression is not said to be found, but to be where the loop goes on from.
-/

namespace Cartridge.Lua
namespace Grammar

variable {body e first value : Tree} {exps : Option Tree} {kind : TokenKind} {m n start : Nat}
  {rest : List Tree} {w : Token} {word : String}

abbrev signs (ss : List String) : List Pattern := ss.map fun s => .exact (Token.symbol s)

abbrev reserveds (ws : List String) : List Pattern := ws.map fun w => .exact (Token.keyword w)

def argumentStarts : List Pattern := .kind .string :: signs ["(", "\x7b"]

def suffixStarts : List Pattern := argumentStarts ++ signs ["[", ".", ":"]

def chainStarts : List Pattern := [.kind .name, .exact (Token.symbol "(")]

def termStarts : List Pattern :=
  chainStarts ++ ([.kind .number, .kind .string] ++ (signs ["...", "\x7b", "-", "#"] ++
    reserveds ["nil", "false", "true", "function", "not"]))

def ledStarts : List Pattern :=
  reserveds ["do", "while", "repeat", "if", "for", "function", "local", "goto"] ++ [.kind .label]

def statementStarts : List Pattern := chainStarts ++ ledStarts

def lastStarts : List Pattern := reserveds ["break", "return"]

def Behind {α : Type} (toks : Array Token) (sign : String) (ok : Nat → α → Nat → Prop) (i : Nat) (a : α)
    (k : Nat) : Prop :=
  ∃ u x, Takes toks [.exact (Token.symbol sign)] i u x ∧ ok (x + 1) a k

def Named (toks : Array Token) (i : Nat) (t : Token) (k : Nat) : Prop :=
  ∃ x, Takes toks [.kind .name] i t x ∧ k = x + 1

theorem Named.le {toks : Array Token} {i k : Nat} {t : Token} (h : Named toks i t k) : i ≤ k := by
  obtain ⟨x, hx, rfl⟩ := h
  exact Nat.le_succ_of_le hx.blank.le

structure Given {α : Type} (toks : Array Token) (p : Parse (Option α)) (i : Nat) (a : α) (j : Nat) :
    Prop where
  gives : Gives p i (some a) j
  le : i ≤ j
  le_size : j ≤ toks.size

section Rows

variable {α : Type} {toks : Array Token} {i j : Nat}

theorem Gives.repeated_behind {p : Parse (Option α)} {sign : String} {ok : Nat → α → Nat → Prop}
    {as : List α} (h : Chained (Behind toks sign ok) i as j) (hle : ∀ {i a k}, ok i a k → i ≤ k)
    (hstep : ∀ {i a k u x}, Takes toks [.exact (Token.symbol sign)] i u x → ok (x + 1) a k →
      Gives p i (some a) k)
    (hstop : Gives p j none j) (hj : j ≤ toks.size) :
    Gives (Grammar.repeated p (rounds toks)) i as j := by
  refine .repeated ?_ hstop hj (by rw [rounds]; omega)
  refine h.imp fun hround => ?_
  obtain ⟨u, x, hu, ha⟩ := hround
  exact ⟨Nat.lt_of_le_of_lt hu.blank.le (hle ha), hstep hu ha⟩

end Rows

section Tokens

variable {toks : Array Token} {i j k x y : Nat} {t u v : Token}

/-! ### Phrases without inner ones -/

theorem nameList_gives {first : Token} {rest : List Token} (hfirst : Takes toks [.kind .name] i first x)
    (hrest : Chained (Behind toks "," (Named toks)) (x + 1) rest j) (hj : j ≤ toks.size)
    (hstop : ∀ u y, Takes toks [.exact (Token.symbol ",")] j u y → Stops toks [.kind .name] (y + 1)) :
    Gives (nameList toks) i (some (.made .nameList [.list ((first :: rest).map .token)] i j)) j := by
  refine .fromHere (.take hfirst ?_)
  refine .bind (.repeated_behind hrest Named.le (fun hu ht => ?_) ?_ hj) (.made _ _ _ _)
  · obtain ⟨y, ht, rfl⟩ := ht
    exact .attempt (.take hu (.accept ht))
  · by_cases hcomma : ∃ u y, Takes toks [.exact (Token.symbol ",")] j u y
    · obtain ⟨u, y, hu⟩ := hcomma
      exact .attempt_none (.take hu (.accept_none (hstop u y hu)))
    · exact .attempt_none (.pass (fun u y hu => hcomma ⟨u, y, hu⟩) (.pure none j))

theorem nameList_none (h : Stops toks [.kind .name] i) : Gives (nameList toks) i none i :=
  .lead_none h fun _ => rfl

theorem functionName_gives {first : Token} {rest : List Token} {method : Option Token}
    (hfirst : Takes toks [.kind .name] i first x)
    (hrest : Chained (Behind toks "." (Named toks)) (x + 1) rest k) (hk : k ≤ toks.size)
    (hmethod : (method = none ∧ k = j ∧ Stops toks (signs [".", ":"]) j) ∨
      ∃ t, method = some t ∧ Behind toks ":" (Named toks) k t j) :
    Gives (functionName toks) i
      (some (.made .functionName [.list ((first :: rest).map .token), .ofToken? method] i j)) j := by
  have hstop : Stops toks [.exact (Token.symbol ".")] k := by
    obtain ⟨-, rfl, hstop⟩ | ⟨t, -, u, y, hu, -⟩ := hmethod
    · exact hstop.mono (by simp)
    · exact hu.stops (by decide)
  refine .fromHere (.take hfirst ?_)
  refine .bind (.repeated_behind hrest Named.le (fun hu ht => ?_) ?_ hk) ?_
  · obtain ⟨y, ht, rfl⟩ := ht
    exact .take hu (.expect ht (.pure _ _))
  · exact .pass hstop (.pure none k)
  · obtain ⟨rfl, rfl, hcolon⟩ | ⟨t, rfl, u, y, hu, z, ht, rfl⟩ := hmethod
    · exact .pass (hcolon.mono (by simp)) (.made _ _ _ _)
    · exact .take hu (.expect ht (.made _ _ _ _))

theorem constant_gives (value : Tree) (h : Takes toks [.exact (Token.keyword word)] i t x) :
    Gives (constant toks word value) i (some (.made .expValue [value] i (x + 1))) (x + 1) :=
  .fromHere (.take h (.made _ _ _ _))

theorem constant_none (value : Tree) (h : Stops toks [.exact (Token.keyword word)] i) :
    Gives (constant toks word value) i none i :=
  .lead_none h fun _ => rfl

theorem literal_gives [(Pattern.kind kind).Solid] (h : Takes toks [.kind kind] i t x) :
    Gives (literal toks kind) i (some (.made .expValue [.token t] i (x + 1))) (x + 1) :=
  .fromHere (.take h (.made _ _ _ _))

theorem literal_none [(Pattern.kind kind).Solid] (h : Stops toks [.kind kind] i) :
    Gives (literal toks kind) i none i :=
  .lead_none h fun _ => rfl

end Tokens

/-! ### Phrases over blocks and expressions -/

section Phrases

variable {toks : Array Token} {inner : Phrase → Parse (Option Tree)} {i j k l x y z : Nat}
  {t u v : Token}

theorem expList_gives (hfirst : Gives (inner .expression) i (some first) k)
    (hrest : Chained (Behind toks "," (Given toks (inner .expression))) k rest j)
    (hstop : Stops toks [.exact (Token.symbol ",")] j) (hj : j ≤ toks.size) :
    Gives (expList toks inner) i (some (.made .expList [.list (first :: rest)] i j)) j := by
  refine .attempt (.fromHere (.bind hfirst ?_))
  refine .bind (.repeated_behind hrest Given.le (fun hu ht => ?_) ?_ hj) (.made _ _ _ _)
  · exact .take hu (.need ht.gives (.pure _ _))
  · exact .pass hstop (.pure none j)

theorem expList_none (h : Gives (inner .expression) i none j) : Gives (expList toks inner) i none i :=
  .attempt_none (.fromHere (.bind h (.pure none j)))

theorem tableField_named (hname : Takes toks [.kind .name] i t x)
    (hequal : Takes toks [.exact (Token.symbol "=")] (x + 1) u y)
    (hvalue : Gives (inner .expression) (y + 1) (some value) j) :
    Gives (tableField toks inner) i (some (.made .fieldNamedKey [.token t, value] i j)) j :=
  .fromHere (.pass (hname.stops (by decide)) (.bind (.attempt (.take hname (.take hequal
    (.need hvalue (.made _ _ _ _))))) (.pure _ _)))

theorem tableField_plain (hvalue : Gives (inner .expression) i (some value) j)
    (hstop : Stops toks [.kind .name, .exact (Token.symbol "[")] i) :
    Gives (tableField toks inner) i (some (.made .fieldExp [value] i j)) j :=
  .fromHere (.pass (hstop.mono (by simp)) (.bind
    (.attempt_none (.pass (hstop.mono (by simp)) (.pure none i)))
    (.bind hvalue (.made _ _ _ _))))

theorem tableField_none (hvalue : Gives (inner .expression) i none j)
    (hstop : Stops toks [.kind .name, .exact (Token.symbol "[")] i) :
    Gives (tableField toks inner) i none j :=
  .fromHere (.pass (hstop.mono (by simp)) (.bind
    (.attempt_none (.pass (hstop.mono (by simp)) (.pure none i)))
    (.bind hvalue (.pure none j))))

theorem table_gives (hopen : Takes toks [.exact (Token.symbol "\x7b")] i t x)
    (hfirst : Gives (tableField toks inner) (x + 1) (some first) k)
    (hrest : Chained (Behind toks "," (Given toks (tableField toks inner))) k rest j)
    (hclose : Takes toks [.exact (Token.symbol "\x7d")] j u y) :
    Gives (table toks inner) i (some (.made .tableConstructor [.list (first :: rest)] i (y + 1)))
      (y + 1) := by
  have hj : j ≤ toks.size := Nat.le_of_lt (Nat.lt_of_le_of_lt hclose.blank.le hclose.lt_size)
  have hstop : Stops toks (signs [",", ";"]) j := hclose.stops (by decide)
  refine .fromHere (.take hopen (.bind hfirst ?_))
  refine .bind (.repeated_behind hrest Given.le (fun hu ht => ?_) ?_ hj) (.skip hclose (.made _ _ _ _))
  · refine .bind (.firstOf_some (.accept hu)) ?_
    exact ht.gives
  · refine .bind (.passFirst hstop (by decide)) ?_
    exact .pure none j

theorem table_empty (hopen : Takes toks [.exact (Token.symbol "\x7b")] i t x)
    (hclose : Takes toks [.exact (Token.symbol "\x7d")] (x + 1) u y)
    (hnone : Gives (inner .expression) (x + 1) none (x + 1)) :
    Gives (table toks inner) i (some (.made .tableConstructor [.list []] i (y + 1))) (y + 1) := by
  have hsize := hclose.lt_size
  have hle := hclose.blank.le
  have hstop : Stops toks (signs [",", ";"]) (x + 1) := hclose.stops (by decide)
  refine .fromHere (.take hopen (.bind (tableField_none hnone (hclose.stops (by decide))) ?_))
  have hn : toks.size < rounds toks + (x + 1) := by
    rw [rounds]
    omega
  refine .bind (.repeated (.nil _) ?_ (by omega) hn) (.skip hclose (.made _ _ _ _))
  refine .bind (.passFirst hstop (by decide)) ?_
  exact .pure none _

theorem table_none (h : Stops toks [.exact (Token.symbol "\x7b")] i) : Gives (table toks inner) i none i :=
  .lead_none h fun _ => rfl

theorem arguments_table {args : Tree} (hopen : Takes toks [.exact (Token.symbol "\x7b")] i t x)
    (hargs : Gives (table toks inner) i (some args) j) : Gives (arguments toks inner) i (some args) j :=
  .fromHere (.pass (hopen.stops (by decide)) (.bind hargs (.pure _ _)))

theorem arguments_string (h : Takes toks [.kind .string] i t x) :
    Gives (arguments toks inner) i (some (.token t)) (x + 1) :=
  .fromHere (.pass (h.stops (by decide)) (.bind (table_none (h.stops (by decide)))
    (.take h (.pure _ _))))

theorem arguments_none (h : Stops toks argumentStarts i) : Gives (arguments toks inner) i none i :=
  .fromHere (.pass (h.mono (by decide)) (.bind (table_none (h.mono (by decide)))
    (.pass (h.mono (by decide)) (.pure none i))))

/-! ### Chains -/

theorem suffix_index {key : Tree} (hopen : Takes toks [.exact (Token.symbol "[")] i t x)
    (hkey : Gives (inner .expression) (x + 1) (some key) k)
    (hclose : Takes toks [.exact (Token.symbol "]")] k u y) :
    Gives (suffix toks inner first) i (some (.made .varIndex [first, key] i (y + 1))) (y + 1) :=
  .fromHere (.take hopen (.need hkey (.skip hclose (.made _ _ _ _))))

theorem suffix_attribute (hdot : Takes toks [.exact (Token.symbol ".")] i t x)
    (hname : Takes toks [.kind .name] (x + 1) u y) :
    Gives (suffix toks inner first) i (some (.made .varAttribute [first, .token u] i (y + 1)))
      (y + 1) :=
  .fromHere (.pass (hdot.stops (by decide)) (.take hdot (.expect hname (.made _ _ _ _))))

theorem suffix_none (h : Stops toks suffixStarts i) : Gives (suffix toks inner first) i none i :=
  .fromHere (.pass (h.mono (by decide)) (.pass (h.mono (by decide))
    (.bind (arguments_none (h.mono (by decide))) (.pass (h.mono (by decide)) (.pure none i)))))

def ChainLoop (toks : Array Token) (inner : Phrase → Parse (Option Tree)) (t : Tree) (i j : Nat) : Prop :=
  ∃ n, toks.size < n + j ∧ ∀ u l, u ≠ .absent → Gives (extended (suffix toks inner) n t) j u l →
    Gives (prefixed toks inner) i (some u) l

theorem chainLoop_name (h : Takes toks [.kind .name] i t x) :
    ChainLoop toks inner (.made .varName [.token t] i (x + 1)) i (x + 1) := by
  refine ⟨rounds toks, by rw [rounds]; omega, fun u l _ hu => ?_⟩
  exact .fromHere (.take h (.fromHere (.bind hu (.pure _ _))))

theorem chainLoop_brackets (hopen : Takes toks [.exact (Token.symbol "(")] i t x)
    (hexp : Gives (inner .expression) (x + 1) (some e) k)
    (hclose : Takes toks [.exact (Token.symbol ")")] k u y) : ChainLoop toks inner e i (y + 1) := by
  refine ⟨rounds toks, by rw [rounds]; omega, fun v l hv hloop => ?_⟩
  refine .fromHere (.pass (hopen.stops (by decide)) (.take hopen (.bind hexp
    (.skip hclose (.bind hloop ?_)))))
  cases v with
  | absent => exact absurd rfl hv
  | _ => exact .pure _ _

theorem ChainLoop.suffix (h : ChainLoop toks inner first i k)
    (hs : Gives (suffix toks inner first) k (some e) j) (hkj : k < j) (hj : j ≤ toks.size) :
    ChainLoop toks inner e i j := by
  obtain ⟨n, hn, hloop⟩ := h
  obtain ⟨n, rfl⟩ : ∃ m, n = m + 1 := ⟨n - 1, by omega⟩
  exact ⟨n, by omega, fun u l hu hrest => hloop u l hu (.bind hs hrest)⟩

theorem ChainLoop.gives (h : ChainLoop toks inner e i j) (he : e ≠ .absent)
    (hstop : Stops toks suffixStarts j) (hj : j ≤ toks.size) : Gives (prefixed toks inner) i (some e) j := by
  obtain ⟨n, hn, hloop⟩ := h
  obtain ⟨n, rfl⟩ : ∃ m, n = m + 1 := ⟨n - 1, by omega⟩
  exact hloop e j he (.bind (suffix_none hstop) (.pure _ _))

theorem prefixed_none (h : Stops toks chainStarts i) : Gives (prefixed toks inner) i none i :=
  .fromHere (.pass (h.mono (by decide)) (.pass (h.mono (by decide)) (.pure none i)))

/-! ### Functions -/

inductive Parameters (toks : Array Token) (i : Nat) : Option Tree → Option Tree → Nat → Prop
  | none : Parameters toks i none none i
  | names {names : Tree} {j : Nat} (h : Given toks (nameList toks) i names j) :
      Parameters toks i (some names) none j
  | dots {t : Token} {x : Nat} (h : Takes toks [.exact (Token.symbol "...")] i t x) :
      Parameters toks i none (some (.made .varargDots [] i (x + 1))) (x + 1)
  | both {names : Tree} {k x y : Nat} {t u : Token} (h : Given toks (nameList toks) i names k)
      (hcomma : Takes toks [.exact (Token.symbol ",")] k t x)
      (hdots : Takes toks [.exact (Token.symbol "...")] (x + 1) u y) :
      Parameters toks i (some names) (some (.made .varargDots [] (x + 1) (y + 1))) (y + 1)

theorem functionBody_gives {names dots : Option Tree} {block : Tree}
    (hopen : Takes toks [.exact (Token.symbol "(")] i t x)
    (hparams : Parameters toks (x + 1) names dots k)
    (hclose : Takes toks [.exact (Token.symbol ")")] k u y)
    (hblock : Gives (inner .block) (y + 1) (some block) l)
    (hend : Takes toks [.exact (Token.keyword "end")] l v z) :
    Gives (functionBody toks inner) i
      (some (.made .functionBody [.ofOption names, .ofOption dots, block] i (z + 1))) (z + 1) := by
  have hrest : ∀ dots : Tree, Gives (afterParameters toks inner i names dots) k
      (some (.made .functionBody [.ofOption names, dots, block] i (z + 1))) (z + 1) :=
    fun dots => .skip hclose (.need hblock (.skip hend (.made _ _ _ _)))
  refine .fromHere (.take hopen ?_)
  cases hparams with
  | none =>
    refine .bind (nameList_none (hclose.stops (by decide))) ?_
    exact .fromHere (.pass (hclose.stops (by decide)) (hrest .absent))
  | names h =>
    refine .bind h.gives ?_
    exact .pass (hclose.stops (by decide)) (hrest .absent)
  | dots h =>
    refine .bind (nameList_none (h.stops (by decide))) ?_
    exact .fromHere (.take h (.fromHere (hrest _)))
  | both h hcomma hdots =>
    refine .bind h.gives ?_
    exact .take hcomma (.fromHere (.skip hdots (.fromHere (hrest _))))

theorem function_gives (hfunction : Takes toks [.exact (Token.keyword "function")] i t x)
    (hbody : Gives (functionBody toks inner) (x + 1) (some body) j) :
    Gives (function toks inner) i (some (.made .function [body] i j)) j :=
  .fromHere (.take hfunction (.need hbody (.made _ _ _ _)))

theorem function_none (h : Stops toks [.exact (Token.keyword "function")] i) :
    Gives (function toks inner) i none i :=
  .lead_none h fun _ => rfl

/-! ### Expressions -/

theorem unary_gives (hop : Takes toks unaryOperators i t x)
    (hexp : Gives (inner .expression) (x + 1) (some e) j) :
    Gives (unary toks inner start) i (some (.made .expUnOp [.token t, e] start j)) j := by
  refine .bind (.takeFirst hop (by decide)) ?_
  exact .need hexp (.made _ _ _ _)

theorem unary_none (h : Stops toks unaryOperators i) : Gives (unary toks inner start) i none i := by
  refine .bind (.passFirst h (by decide)) ?_
  exact .pure none i

theorem asValue_gives {p : Parse (Option Tree)} (h : Gives p i (some e) j) :
    Gives (asValue start p) i (some (.made .expValue [e] start j)) j :=
  .bind h (.made _ _ _ _)

theorem asValue_none {p : Parse (Option Tree)} (h : Gives p i none j) : Gives (asValue start p) i none j :=
  .bind h (.pure none j)

def plainStarts : List Pattern :=
  reserveds ["nil", "false", "true"] ++ [.kind .number, .kind .string, .exact (Token.symbol "...")]

theorem term_of_rest {r : Option Tree} (h : Stops toks plainStarts i)
    (hrest : Gives (firstOf [asValue i (function toks inner), asValue i (prefixed toks inner),
      asValue i (table toks inner), unary toks inner i]) i r j) : Gives (term toks inner) i r j := by
  refine .fromHere (.firstOf_none (constant_none _ (h.mono (by decide)))
    (.firstOf_none (constant_none _ (h.mono (by decide)))
    (.firstOf_none (constant_none _ (h.mono (by decide)))
    (.firstOf_none (literal_none (h.mono (by decide)))
    (.firstOf_none (literal_none (h.mono (by decide))) (.firstOf_none ?_ hrest))))))
  exact .pass (h.mono (by decide)) (.pure none i)

theorem term_constant (hvalue : (word, value) ∈ constants)
    (h : Takes toks [.exact (Token.keyword word)] i t x) :
    Gives (term toks inner) i (some (.made .expValue [value] i (x + 1))) (x + 1) := by
  simp only [constants, List.mem_cons, Prod.mk.injEq, List.not_mem_nil, or_false] at hvalue
  obtain ⟨rfl, rfl⟩ | ⟨rfl, rfl⟩ | ⟨rfl, rfl⟩ := hvalue
  · exact .fromHere (.firstOf_some (constant_gives _ h))
  · exact .fromHere (.firstOf_none (constant_none _ (h.stops (by decide)))
      (.firstOf_some (constant_gives _ h)))
  · exact .fromHere (.firstOf_none (constant_none _ (h.stops (by decide)))
      (.firstOf_none (constant_none _ (h.stops (by decide))) (.firstOf_some (constant_gives _ h))))

theorem term_literal (hkind : kind = .number ∨ kind = .string) (h : Takes toks [.kind kind] i t x) :
    Gives (term toks inner) i (some (.made .expValue [.token t] i (x + 1))) (x + 1) := by
  have hconstants : Stops toks (reserveds ["nil", "false", "true"]) i := by
    obtain rfl | rfl := hkind <;> exact h.stops (by decide)
  refine .fromHere (.firstOf_none (constant_none _ (hconstants.mono (by decide)))
    (.firstOf_none (constant_none _ (hconstants.mono (by decide)))
    (.firstOf_none (constant_none _ (hconstants.mono (by decide))) ?_)))
  obtain rfl | rfl := hkind
  · exact .firstOf_some (literal_gives h)
  · exact .firstOf_none (literal_none (h.stops (by decide))) (.firstOf_some (literal_gives h))

theorem term_dots (h : Takes toks [.exact (Token.symbol "...")] i t x) :
    Gives (term toks inner) i (some (.made .varargDots [] i (x + 1))) (x + 1) := by
  refine .fromHere (.firstOf_none (constant_none _ (h.stops (by decide)))
    (.firstOf_none (constant_none _ (h.stops (by decide)))
    (.firstOf_none (constant_none _ (h.stops (by decide)))
    (.firstOf_none (literal_none (h.stops (by decide)))
    (.firstOf_none (literal_none (h.stops (by decide))) (.firstOf_some ?_))))))
  exact .take h (.made _ _ _ _)

theorem term_function (hstart : Takes toks [.exact (Token.keyword "function")] i t x)
    (h : Gives (function toks inner) i (some e) j) :
    Gives (term toks inner) i (some (.made .expValue [e] i j)) j :=
  term_of_rest (hstart.stops (by decide)) (.firstOf_some (asValue_gives h))

theorem term_chain (hstart : Takes toks chainStarts i t x) (h : Gives (prefixed toks inner) i (some e) j) :
    Gives (term toks inner) i (some (.made .expValue [e] i j)) j :=
  term_of_rest (hstart.stops (by decide))
    (.firstOf_none (asValue_none (function_none (hstart.stops (by decide))))
      (.firstOf_some (asValue_gives h)))

theorem term_table (hstart : Takes toks [.exact (Token.symbol "\x7b")] i t x)
    (h : Gives (table toks inner) i (some e) j) :
    Gives (term toks inner) i (some (.made .expValue [e] i j)) j :=
  term_of_rest (hstart.stops (by decide))
    (.firstOf_none (asValue_none (function_none (hstart.stops (by decide))))
      (.firstOf_none (asValue_none (prefixed_none (hstart.stops (by decide))))
        (.firstOf_some (asValue_gives h))))

theorem term_unary (hop : Takes toks unaryOperators i t x)
    (hexp : Gives (inner .expression) (x + 1) (some e) j) :
    Gives (term toks inner) i (some (.made .expUnOp [.token t, e] i j)) j :=
  term_of_rest (hop.stops (by decide))
    (.firstOf_none (asValue_none (function_none (hop.stops (by decide))))
      (.firstOf_none (asValue_none (prefixed_none (hop.stops (by decide))))
        (.firstOf_none (asValue_none (table_none (hop.stops (by decide))))
          (.firstOf_some (unary_gives hop hexp)))))

theorem term_none (h : Stops toks termStarts i) : Gives (term toks inner) i none i :=
  term_of_rest (h.mono (by decide))
    (.firstOf_none (asValue_none (function_none (h.mono (by decide))))
      (.firstOf_none (asValue_none (prefixed_none (h.mono (by decide))))
        (.firstOf_none (asValue_none (table_none (h.mono (by decide))))
          (.firstOf_none (unary_none (h.mono (by decide))) (.pure none i)))))

theorem operation_gives {second : Tree} (hop : Takes toks binaryOperators i t x)
    (hsecond : Gives (term toks inner) (x + 1) (some second) j) :
    Gives (operation toks inner first) i (some (.made .expBinOp [first, .token t, second] i j)) j := by
  refine .fromHere (.bind (.takeFirst hop (by decide)) ?_)
  exact .need hsecond (.made _ _ _ _)

theorem operation_none (h : Stops toks binaryOperators i) : Gives (operation toks inner first) i none i := by
  refine .fromHere (.bind (.passFirst h (by decide)) ?_)
  exact .pure none i

def OperationLoop (toks : Array Token) (inner : Phrase → Parse (Option Tree)) (e : Tree) (i j : Nat) :
    Prop :=
  ∃ n, toks.size < n + j ∧ ∀ u l, Gives (extended (operation toks inner) n e) j u l →
    Gives (expression toks inner) i (some u) l

theorem operationLoop_term (h : Gives (term toks inner) i (some e) j) : OperationLoop toks inner e i j := by
  refine ⟨rounds toks, by rw [rounds]; omega, fun u l hu => .bind h ?_⟩
  exact .bind hu (.pure _ _)

theorem OperationLoop.operation {second : Tree} (h : OperationLoop toks inner first i k)
    (hop : Takes toks binaryOperators k t x) (hsecond : Gives (term toks inner) (x + 1) (some second) j)
    (hj : x < j) : OperationLoop toks inner (.made .expBinOp [first, .token t, second] k j) i j := by
  obtain ⟨n, hn, hloop⟩ := h
  have hle := hop.blank.le
  have hsize := hop.lt_size
  obtain ⟨n, rfl⟩ : ∃ m, n = m + 1 := ⟨n - 1, by omega⟩
  exact ⟨n, by omega, fun u l hrest => hloop u l (.bind (operation_gives hop hsecond) hrest)⟩

theorem OperationLoop.gives (h : OperationLoop toks inner e i j) (hstop : Stops toks binaryOperators j)
    (hj : j ≤ toks.size) : Gives (expression toks inner) i (some e) j := by
  obtain ⟨n, hn, hloop⟩ := h
  obtain ⟨n, rfl⟩ : ∃ m, n = m + 1 := ⟨n - 1, by omega⟩
  exact hloop e j (.bind (operation_none hstop) (.pure _ _))

theorem expression_none (h : Stops toks termStarts i) : Gives (expression toks inner) i none i :=
  .bind (term_none h) (.pure none i)

/-! ### Statements -/

theorem assignable_gives (h : Gives (prefixed toks inner) i (some e) j)
    (he : (e.isA .varName || e.isA .varAttribute || e.isA .varIndex) = true) :
    Gives (assignable toks inner) i (some e) j := by
  refine .bind h ?_
  show Gives (if _ then _ else _) j _ j
  rw [if_pos he]
  exact .pure _ _

theorem varList_gives (hfirst : Gives (assignable toks inner) i (some first) k)
    (hrest : Chained (Behind toks "," (Given toks (assignable toks inner))) k rest j)
    (hstop : Stops toks [.exact (Token.symbol ",")] j) (hj : j ≤ toks.size) :
    Gives (varList toks inner) i (some (.made .varList [.list (first :: rest)] i j)) j := by
  refine .fromHere (.bind hfirst ?_)
  refine .bind (.repeated_behind hrest Given.le (fun hu ht => ?_) ?_ hj) (.made _ _ _ _)
  · exact .take hu (.need ht.gives (.pure _ _))
  · exact .pass hstop (.pure none j)

theorem assignment_gives {vars exps : Tree} (hvars : Gives (varList toks inner) i (some vars) k)
    (hop : Takes toks assignOperators k t x)
    (hexps : Gives (expList toks inner) (x + 1) (some exps) j) :
    Gives (assignment toks inner) i (some (.made .statAssignment [vars, .token t, exps] i j)) j := by
  refine .attempt (.fromHere (.bind hvars ?_))
  refine .bind (.takeFirst hop (by decide)) ?_
  exact .need hexps (.made _ _ _ _)

theorem assignment_of_none (h : Gives (assignable toks inner) i none j) :
    Gives (assignment toks inner) i none i := by
  have hvars : Gives (varList toks inner) i none j := .fromHere (.bind h (.pure none j))
  exact .attempt_none (.fromHere (.bind hvars (.pure none j)))

theorem assignment_none (h : Stops toks chainStarts i) : Gives (assignment toks inner) i none i :=
  assignment_of_none (.bind (prefixed_none h) (.pure none i))

theorem assignment_of_call (h : Gives (prefixed toks inner) i (some e) j)
    (he : (e.isA .functionCall || e.isA .functionCallMethod) = true) :
    Gives (assignment toks inner) i none i := by
  have hnot : (e.isA .varName || e.isA .varAttribute || e.isA .varIndex) = false := by
    cases e with
    | node kind fs o => cases kind <;> simp_all [Tree.isA]
    | _ => rfl
  have hnone : Gives (assignable toks inner) i none j := by
    refine .bind h ?_
    show Gives (if _ then _ else _) j none j
    rw [if_neg (by simp [hnot])]
    exact .pure _ _
  exact assignment_of_none hnone

theorem callStatement_gives (h : Gives (prefixed toks inner) i (some e) j)
    (he : (e.isA .functionCall || e.isA .functionCallMethod) = true) :
    Gives (callStatement toks inner) i (some (.made .statFunctionCall [e] i j)) j := by
  refine .attempt (.fromHere (.bind h ?_))
  show Gives (if _ then _ else _) j _ j
  rw [if_pos he]
  exact .made _ _ _ _

theorem callStatement_none (h : Stops toks chainStarts i) :
    Gives (callStatement toks inner) i none i :=
  .attempt_none (.fromHere (.bind (prefixed_none h) (.pure none i)))

theorem functionStatement_gives {path : Tree}
    (hfunction : Takes toks [.exact (Token.keyword "function")] i t x)
    (hpath : Gives (functionName toks) (x + 1) (some path) k)
    (hbody : Gives (functionBody toks inner) k (some body) j) :
    Gives (functionStatement toks inner) i (some (.made .statFunction [path, body] i j)) j :=
  .fromHere (.take hfunction (.need hpath (.need hbody (.made _ _ _ _))))

def ledStatements (toks : Array Token) (inner : Phrase → Parse (Option Tree)) :
    List (Pattern × Parse (Option Tree)) :=
  [(.exact (Token.keyword "do"), doStatement toks inner),
    (.exact (Token.keyword "while"), whileStatement toks inner),
    (.exact (Token.keyword "repeat"), repeatStatement toks inner),
    (.exact (Token.keyword "if"), ifStatement toks inner),
    (.exact (Token.keyword "for"), forStatement toks inner),
    (.exact (Token.keyword "function"), functionStatement toks inner),
    (.exact (Token.keyword "local"), localStatement toks inner),
    (.exact (Token.keyword "goto"), gotoStatement toks), (.kind .label, labelStatement toks)]

theorem statement_of_rest {r : Option Tree} (h : Stops toks chainStarts i)
    (hrest : Gives (firstOf ((ledStatements toks inner).map Prod.snd)) i r j) :
    Gives (statement toks inner) i r j :=
  .firstOf_none (assignment_none h) (.firstOf_none (callStatement_none h) hrest)

theorem ledStatement_none {a : Pattern × Parse (Option Tree)} (ha : a ∈ ledStatements toks inner)
    (h : Stops toks [a.1] i) : Gives a.2 i none i := by
  simp only [ledStatements, List.mem_cons, List.not_mem_nil, or_false] at ha
  obtain rfl | rfl | rfl | rfl | rfl | rfl | rfl | rfl | rfl := ha
  all_goals exact .lead_none h fun _ => rfl

theorem statement_assignment (h : Gives (assignment toks inner) i (some e) j) :
    Gives (statement toks inner) i (some e) j :=
  .firstOf_some h

theorem statement_call (h : Gives (prefixed toks inner) i (some e) j)
    (he : (e.isA .functionCall || e.isA .functionCallMethod) = true) :
    Gives (statement toks inner) i (some (.made .statFunctionCall [e] i j)) j :=
  .firstOf_none (assignment_of_call h he) (.firstOf_some (callStatement_gives h he))

theorem statement_led {p : Pattern} {q : Parse (Option Tree)} (hmem : (p, q) ∈ ledStatements toks inner)
    (ht : Takes toks [p] i t x) (hq : Gives q i (some e) j) : Gives (statement toks inner) i (some e) j := by
  have hapart : (ledStatements toks inner).Pairwise fun a b => b.1.meets a.1 = false := by
    have hstarts : ledStarts.Pairwise fun p q => q.meets p = false := by decide
    exact List.Pairwise.of_map Prod.fst (fun _ _ => id) hstarts
  have hchains : ∀ p ∈ ledStarts, ∀ q ∈ chainStarts, p.meets q = false := by decide
  have hp : p ∈ ledStarts := List.mem_map_of_mem (f := Prod.fst) hmem
  refine statement_of_rest (ht.stops fun r hr => ?_)
    (.firstOf_led hapart ledStatement_none hmem ht hq)
  rw [List.mem_singleton.mp hr]
  exact hchains p hp

theorem statement_none (h : Stops toks statementStarts i) : Gives (statement toks inner) i none i := by
  refine statement_of_rest (h.mono (by decide)) (.firstOf_nothing fun p hp => ?_)
  obtain ⟨a, ha, rfl⟩ := List.mem_map.mp hp
  have hstart : a.1 ∈ ledStarts := List.mem_map_of_mem (f := Prod.fst) ha
  exact ledStatement_none ha (h.mono (by simp [statementStarts, hstart]))

theorem lastStatement_none (h : Stops toks lastStarts i) : Gives (lastStatement toks inner) i none i :=
  .fromHere (.pass (h.mono (by decide)) (.pass (h.mono (by decide)) (.pure none i)))

end Phrases
end Grammar
end Cartridge.Lua
