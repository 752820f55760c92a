import Cartridge.Proofs.Linking.LinkedText
import Cartridge.Proofs.Lua.Embedding
import Cartridge.Proofs.Lua.Phrases

/-!
# Programs with their packages in front

The text of a linked program is read as the statements that it was made for: the table of packages, an
assignment for each package, the function that packages are required with, and the program itself.  The
statements of a library are those of the function that makes its package.
-/

namespace Cartridge.Linking

open Lua Grammar List Token Program

variable {main q : Program} {name : Bytes} {rest : List Token}

/-! ### The statements -/

def bare (k : NodeKind) (fs : List Tree) : Tree := .node k fs {}

def assignTo (var value : Tree) : Tree :=
  bare .statAssignment [bare .varList [.list [var]], .token (symbol "="), bare .expList [.list [value]]]

def packageVariable : Tree := bare .varName [.token (nameToken "package")]

def tableValue (fields : List Tree) : Tree := bare .expValue [bare .tableConstructor [.list fields]]

def emptyField (name : String) : Tree := bare .fieldNamedKey [.token (nameToken name), tableValue []]

def tableStatement : Tree := assignTo packageVariable (tableValue [emptyField "loaded", emptyField "_c"])

def packageStatement (name : Bytes) (stats : List Tree) : Tree :=
  assignTo
    (bare .varIndex [bare .varAttribute [packageVariable, .token (nameToken "_c")],
      bare .expValue [.token (quotedString 34 name)]])
    (bare .expValue [bare .function [bare .functionBody [.absent, .absent, bare .chunk [.list stats]]]])

def statementsOf (ls : List Bytes) : List Tree :=
  match ofLines libraryVersion ls with
  | .ok p => p.root.statements.map Tree.shape
  | .error _ => []

def requireStatement : Tree :=
  bare .statFunction [bare .functionName [.list [.token (nameToken "require")], .absent],
    bare .functionBody [bare .nameList [.list [.token (nameToken "p")]], .absent,
      bare .chunk [.list (statementsOf requireBody)]]]

/-! ### Reading them -/

section Reading

variable {toks : Array Token} {i j k n : Nat}

theorem expression_of_term {e : Tree} (h : Gives (term toks (phrase toks n)) i (some e) j)
    (hstop : Stops toks binaryOperators j) (hj : j ≤ toks.size) :
    Gives (phrase toks (n + 1) .expression) i (some e) j :=
  (operationLoop_term h).gives hstop hj

theorem emptyField_gives {name : String} (hrow : Row toks i (fieldWords name) k)
    (hstop : Stops toks binaryOperators k) :
    ∃ f, Given toks (tableField toks (phrase toks (n + 2))) i f k ∧ f.shape = emptyField name := by
  have hle := hrow.length_le
  simp only [fieldWords, Chained.cons_iff, Chained.nil_iff] at hrow
  obtain ⟨_, h₁, _, h₂, _, h₃, _, h₄, rfl⟩ := hrow
  obtain ⟨t, _, hname, ht, rfl⟩ := h₁.takes [.kind .name] ⟨_, mem_singleton_self _, rfl⟩
  obtain ⟨_, _, hequal, -, rfl⟩ := h₂.takes [.exact (symbol "=")] (by decide)
  obtain ⟨_, x, hopen, -, rfl⟩ := h₃.takes [.exact (symbol "\x7b")] (by decide)
  obtain ⟨_, y, hclose, -, rfl⟩ := h₄.takes [.exact (symbol "\x7d")] (by decide)
  have hnone : Gives (phrase toks (n + 1) .expression) (x + 1) none (x + 1) :=
    expression_none (hclose.stops (by decide))
  have hvalue : Gives (phrase toks (n + 2) .expression) _ _ (y + 1) :=
    expression_of_term (term_table hopen (table_empty hopen hclose hnone)) hstop hclose.lt_size
  exact ⟨_, ⟨tableField_named hname hequal hvalue, by omega, hclose.lt_size⟩, by
    simp [emptyField, tableValue, bare, ht]⟩

theorem assignment_single {var value : Tree} {u : Token} {x : Nat}
    (hvar : Gives (prefixed toks (parts toks)) i (some var) k)
    (hkind : (var.isA .varName || var.isA .varAttribute || var.isA .varIndex) = true)
    (hequal : Takes toks [.exact (symbol "=")] k u x)
    (hvalue : Gives (parts toks .expression) (x + 1) (some value) j)
    (hcomma : Stops toks [.exact (symbol ",")] j) (hj : j ≤ toks.size) :
    ∃ t, Gives (statement toks (parts toks)) i (some t) j ∧
      (u.unplaced = symbol "=" → t.shape = assignTo var.shape value.shape) := by
  have hk : k ≤ toks.size := Nat.le_of_lt (Nat.lt_of_le_of_lt hequal.blank.le hequal.lt_size)
  have hvars := varList_gives (assignable_gives hvar hkind) (.nil k) (hequal.stops (by decide)) hk
  have hexps := expList_gives hvalue (.nil j) hcomma hj
  refine ⟨_, statement_assignment (assignment_gives hvars (hequal.mono (by decide)) hexps), fun hu => ?_⟩
  simp [assignTo, bare, hu]

def NextIs (toks : Array Token) (i : Nat) (s : Tree) (k : Nat) : Prop :=
  ∃ t, i < k ∧ Gives (nextStatement toks (parts toks)) i (some t) k ∧ t.shape = s

def valueGoesOn : List Pattern := .exact (symbol ",") :: binaryOperators

theorem table_next (hrow : Row toks i tableWords k) (hstop : Stops toks valueGoesOn k) :
    NextIs toks i tableStatement k := by
  have hlength : i + 13 ≤ k := hrow.length_le
  have hsize : k ≤ toks.size := hrow.le_size
  -- there are as many levels as tokens, and three are enough
  obtain ⟨n, hn⟩ : ∃ n, toks.size = n + 2 + 1 := ⟨toks.size - 3, by omega⟩
  simp only [tableWords, Chained.append_iff, Chained.cons_iff, Chained.nil_iff] at hrow
  obtain ⟨_, ⟨_, h₁, _, h₂, _, h₃, rfl⟩, _, hfirst, _, ⟨_, h₄, rfl⟩, _, hsecond, _, h₅, rfl⟩ := hrow
  obtain ⟨t, x, hname, ht, rfl⟩ := h₁.takes [.kind .name] (by decide)
  obtain ⟨u, _, hequal, hu, rfl⟩ := h₂.takes [.exact (symbol "=")] (by decide)
  obtain ⟨_, _, hopen, -, rfl⟩ := h₃.takes [.exact (symbol "\x7b")] (by decide)
  obtain ⟨_, _, hcomma, -, rfl⟩ := h₄.takes [.exact (symbol ",")] (by decide)
  obtain ⟨_, y, hclose, -, rfl⟩ := h₅.takes [.exact (symbol "\x7d")] (by decide)
  obtain ⟨f, hf, hfs⟩ := emptyField_gives (n := n) hfirst (hcomma.stops (by decide))
  obtain ⟨g, hg, hgs⟩ := emptyField_gives (n := n) hsecond (hclose.stops (by decide))
  have htable := table_gives hopen hf.gives (.cons ⟨_, _, hcomma, hg⟩ (.nil _)) hclose
  have hvalue := expression_of_term (term_table hopen htable) (hstop.mono (by decide)) hclose.lt_size
  rw [← hn] at hvalue
  have hvar : Gives (prefixed toks (parts toks)) i _ (x + 1) :=
    (chainLoop_name hname).gives Tree.noConfusion (hequal.stops (by decide)) hname.lt_size
  obtain ⟨s, hs, hshape⟩ := assignment_single hvar rfl hequal hvalue (hstop.mono (by decide)) hclose.lt_size
  refine ⟨s, by omega, .bind (.semicolons (hname.stops (by decide))) hs, ?_⟩
  rw [hshape hu]
  simp [tableStatement, packageVariable, tableValue, bare, ht, hfs, hgs]

example : (ofLines libraryVersion [tableLine]).toOption.map (·.root.statements.map (·.isA .statAssignment)) =
    some [true] := by decide +kernel

theorem ReadToEnd.exists_root (hq : ReadToEnd q) :
    ∃ stats stop, q.root = .made .chunk [.list stats] 0 stop ∧ Tree.ofTokens q.tokens = .ok q.root ∧
      Blank q.tokens stop q.tokens.size := by
  obtain ⟨v, s, hread⟩ := hq.text
  have hcovered := hq.covered
  obtain ⟨ls, root, -, hroot, rfl⟩ := (ofLines_eq_ok_iff (lineCut_lines s)).mp hread
  obtain ⟨stop, hgives⟩ := Tree.ofTokens_eq_ok_iff.mp hroot
  obtain ⟨stats, last, k, rfl, -, hk, hends⟩ := (block_gives_iff (Nat.zero_le _)).mp hgives
  exact ⟨_, stop, rfl, hroot, blank_of_all (hends.le hk).2 hcovered⟩

theorem body_within (hq : ReadToEnd q)
    (hold : Holds toks i (tokensIn q ++ endTokens)) (hlead : Blank toks start i)
    (hlevel : q.tokens.size < n) :
    ∃ block l t z, Gives (phrase toks n .block) start (some block) l ∧
      block.shape = bare .chunk [.list (q.root.statements.map Tree.shape)] ∧
      Takes toks [.exact (keyword "end")] l t z ∧ i ≤ z ∧
      Blank toks (z + 1) (i + (tokensIn q ++ endTokens).length) := by
  obtain ⟨stats, stop, hroot, htree, hblank⟩ := hq.exists_root
  have hsize : (tokensIn q).length = q.tokens.size := by simp [tokensIn]
  -- `end` is the first token behind the program
  have hbehind := hold.right
  rw [hsize, Nat.add_comm] at hbehind
  obtain ⟨t, ht, htend⟩ := hbehind.get
  have hfits : t.fits (.exact (keyword "end")) = true := by
    rw [← fits_unplaced, htend]
    rfl
  have hsolid : t.isGap = false := by
    rw [← isGap_unplaced, htend]
    rfl
  have hlt := (Array.getElem?_eq_some_iff.mp ht).1
  have hle := hlead.le
  have hwindow : Window q.tokens toks ⟨start, i⟩ q.tokens.size := by
    refine window_of_holds hold.left hlead fun {x t'} hx ht' _ => ?_
    rw [hx.eq_of_solid ht hsolid, ht, Option.some.injEq] at ht'
    exact ht' ▸ hfits
  have hstart : start ≤ toks.size := by omega
  obtain ⟨block, l, hmoved, hgives, hl⟩ := block_within htree (by rw [hroot]; rfl) hblank hwindow hlevel
    hstart
  refine ⟨block, l, t, _, hgives, ?_, ⟨hl, ht, hsolid, _, mem_singleton_self _, hfits⟩,
    Nat.le_add_left i _, ?_⟩
  · rw [hmoved.shape_eq, hroot]
    simp [bare, Tree.statements, Tree.made]
  · have hline : Holds toks (q.tokens.size + i) ([keyword "end"] ++ [newlineToken]) := hbehind
    obtain ⟨u, hu, hnewline⟩ := hline.right.get
    have hgap : u.isGap = true := by
      rw [← isGap_unplaced, hnewline]
      rfl
    have hlength : i + (tokensIn q ++ endTokens).length = q.tokens.size + i + 1 + 1 := by
      rw [length_append, hsize]
      show i + (q.tokens.size + 2) = _
      omega
    rw [hlength]
    exact .single hu hgap

theorem package_next (hq : ReadToEnd q)
    (hold : Holds toks i (packageTokens name q)) (hblank : Blank toks start i)
    (hstop : Stops toks valueGoesOn (i + (packageTokens name q).length)) :
    ∃ k, NextIs toks start (packageStatement name (q.root.statements.map Tree.shape)) k ∧
      Blank toks k (i + (packageTokens name q).length) := by
  have hlength : i + (packageTokens name q).length =
      i + (frameTokens name).length + (tokensIn q ++ endTokens).length := by
    rw [packageTokens, length_append, Nat.add_assoc]
  rw [hlength] at hstop ⊢
  obtain ⟨k, hrow, hk⟩ := hold.left.row
  have hsize := hrow.le_size
  have hlt := hrow.length_le
  have hbody := hold.right
  -- the words of the first line
  have hwords : solids (frameTokens name) = beforeName ++ quotedString 34 name :: behindName := rfl
  rw [hwords] at hrow
  simp only [beforeName, behindName, Chained.append_iff, Chained.cons_iff, Chained.nil_iff] at hrow
  obtain ⟨_, ⟨_, h₁, _, h₂, _, h₃, _, h₄, rfl⟩, _, h₅, _, h₆, _, h₇, _, h₈, _, h₉, _, h₁₀, rfl⟩ := hrow
  obtain ⟨t, x, hname, ht, rfl⟩ := (h₁.of_blank hblank).takes [.kind .name] (by decide)
  obtain ⟨_, _, hdot, -, rfl⟩ := h₂.takes [.exact (symbol ".")] (by decide)
  obtain ⟨c, _, hattribute, hc, rfl⟩ := h₃.takes [.kind .name] (by decide)
  obtain ⟨_, _, hopen, -, rfl⟩ := h₄.takes [.exact (symbol "[")] (by decide)
  obtain ⟨u, _, hstring, hu, rfl⟩ := h₅.takes [.kind .string] ⟨_, mem_singleton_self _, rfl⟩
  obtain ⟨_, _, hclose, -, rfl⟩ := h₆.takes [.exact (symbol "]")] (by decide)
  obtain ⟨e, _, hequal, he, rfl⟩ := h₇.takes [.exact (symbol "=")] (by decide)
  obtain ⟨_, _, hfunction, -, rfl⟩ := h₈.takes [.exact (keyword "function")] (by decide)
  obtain ⟨_, _, hleft, -, rfl⟩ := h₉.takes [.exact (symbol "(")] (by decide)
  obtain ⟨_, y, hright, -, rfl⟩ := h₁₀.takes [.exact (symbol ")")] (by decide)
  -- the tokens outnumber those of the library, and so do the levels
  have hall := hold.le_size (by omega)
  have hframe : i + 10 ≤ y + 1 := hlt
  have hlibrary : (frameTokens name).length = 11 ∧ (tokensIn q ++ endTokens).length = q.tokens.size + 2 := by
    simp [frameTokens, wordLine, beforeName, behindName, tokensIn, endTokens]
  obtain ⟨n, hn⟩ : ∃ n, toks.size = n + 1 := ⟨toks.size - 1, by omega⟩
  obtain ⟨block, _, _, z, hgives, hshape, hend, hiz, hz⟩ := body_within (n := n) hq hbody hk (by omega)
  have hafter := hstop.of_blank hz
  have hfunctionBody := functionBody_gives hleft .none hright hgives hend
  have hvalue := expression_of_term (term_function hfunction (function_gives hfunction hfunctionBody))
    (hafter.mono (by decide)) hend.lt_size
  have hkey := expression_of_term (n := n) (term_literal (.inr rfl) hstring) (hclose.stops (by decide))
    hstring.lt_size
  rw [← hn] at hvalue hkey
  have hdotted := Nat.lt_trans h₂.lt.1 h₃.lt.1
  have hindexed := Nat.lt_trans (Nat.lt_trans h₄.lt.1 h₅.lt.1) h₆.lt.1
  have hdotLoop : ChainLoop toks (parts toks) _ start _ :=
    (chainLoop_name hname).suffix (suffix_attribute hdot hattribute) hdotted hattribute.lt_size
  have hchain := hdotLoop.suffix (suffix_index hopen hkey hclose) hindexed hclose.lt_size
  have hvar := hchain.gives Tree.noConfusion (hequal.stops (by decide)) hclose.lt_size
  obtain ⟨s, hs, hassign⟩ := assignment_single hvar rfl hequal hvalue (hafter.mono (by decide)) hend.lt_size
  have hstart := hblank.le
  refine ⟨_, ⟨s, by omega, .bind (.semicolons (hname.stops (by decide))) hs, ?_⟩, hz⟩
  rw [hassign he]
  simp [packageStatement, packageVariable, bare, ht, hc, hu, hshape, Tree.ofOption]

theorem exists_requireBody : ∃ q, ReadToEnd q ∧ tokensIn q = requireBodyTokens ∧
    q.root.statements.map Tree.shape = statementsOf requireBody := by
  have hlines : requireBody = Bytes.lines requireBody.flatten := by decide +kernel
  have hcovered : (ofLines libraryVersion requireBody).toOption.any isCovered = true := by
    decide +kernel
  obtain ⟨sc, htokens, hread⟩ := ofLines_of_readAs readAs_requireBody libraryVersion
  cases htree : Tree.ofTokens sc.tokens with
  | error e =>
    rw [hread, htree] at hcovered
    cases hcovered
  | ok root =>
    rw [htree] at hread
    rw [hread] at hcovered
    refine ⟨_, ⟨⟨libraryVersion, requireBody.flatten, ?_⟩, hcovered⟩, ?_, ?_⟩
    · rw [← hlines, hread]
      rfl
    · rw [requireBodyTokens, flatMap_def, ← htokens]
      rfl
    · rw [statementsOf, hread]
      rfl

theorem require_next (hold : Holds toks i requireTokens) (hblank : Blank toks start i) :
    ∃ k, NextIs toks start requireStatement k ∧ Blank toks k (i + requireTokens.length) := by
  obtain ⟨q, hq, htokens, hstats⟩ := exists_requireBody
  rw [requireTokens, ← htokens] at hold ⊢
  rw [length_append, ← Nat.add_assoc]
  obtain ⟨k, hrow, hk⟩ := hold.left.row
  have hsize := hrow.le_size
  have hlt : i + 5 ≤ k := hrow.length_le
  have hall := hold.le_size (by omega)
  have hwords : solids requireHead = [keyword "function", nameToken "require", symbol "(",
    nameToken "p", symbol ")"] := rfl
  rw [hwords] at hrow
  simp only [Chained.cons_iff, Chained.nil_iff] at hrow
  obtain ⟨_, h₁, _, h₂, _, h₃, _, h₄, _, h₅, rfl⟩ := hrow
  obtain ⟨_, _, hfunction, -, rfl⟩ :=
    (h₁.of_blank hblank).takes [.exact (keyword "function")] (by decide)
  obtain ⟨t, _, hname, ht, rfl⟩ := h₂.takes [.kind .name] (by decide)
  obtain ⟨_, _, hleft, -, rfl⟩ := h₃.takes [.exact (symbol "(")] (by decide)
  obtain ⟨u, _, hparameter, hu, rfl⟩ := h₄.takes [.kind .name] (by decide)
  obtain ⟨_, y, hright, -, rfl⟩ := h₅.takes [.exact (symbol ")")] (by decide)
  have hlibrary : (tokensIn q ++ endTokens).length = q.tokens.size + 2 := by
    simp [tokensIn, endTokens, wordLine]
  rw [length_append] at hall
  obtain ⟨block, _, _, z, hgives, hshape, hend, hiz, hz⟩ := body_within (n := toks.size) hq hold.right hk
    (by omega)
  have hcomma : Stops toks [.exact (symbol ",")] _ := hright.stops (by decide)
  have hnames := nameList_gives hparameter (.nil _) hparameter.lt_size fun v l hv => absurd hv (hcomma v l)
  have hpath : Gives (functionName toks) _ (some (.made .functionName [_, .ofToken? none] _ _)) _ :=
    functionName_gives hname (.nil _) hname.lt_size (.inl ⟨rfl, rfl, hleft.stops (by decide)⟩)
  have hparameters : Parameters toks _ _ none _ :=
    .names ⟨hnames, Nat.le_succ_of_le hparameter.blank.le, hparameter.lt_size⟩
  have hbody := functionBody_gives hleft hparameters hright hgives hend
  have hled : (.exact (keyword "function"), functionStatement toks (parts toks)) ∈
      ledStatements toks (parts toks) := by simp [ledStatements]
  have hstatement := statement_led hled hfunction (functionStatement_gives hfunction hpath hbody)
  have hstart := hblank.le
  refine ⟨_, ⟨_, by omega, .bind (.semicolons (hfunction.stops (by decide))) hstatement, ?_⟩, hz⟩
  simp [requireStatement, bare, ht, hu, hshape, hstats, Tree.ofOption, Tree.ofToken?]

end Reading

/-! ### The whole program -/

def linkedStatements (main : Program) (ps : Packages) : List Tree :=
  tableStatement :: (ps.map fun q => packageStatement q.1 (q.2.root.statements.map Tree.shape)) ++
    requireStatement :: main.root.statements.map Tree.shape

section Whole

variable {toks : Array Token} {i start : Nat} {ps : Packages}

theorem stops_packages
    (hold : Holds toks i (ps.flatMap (fun q => packageTokens q.1 q.2) ++ (requireTokens ++ rest))) :
    Stops toks valueGoesOn i := by
  cases ps with
  | nil => exact Holds.stops (u := keyword "function") hold rfl (by decide)
  | cons q ps => exact Holds.stops (u := nameToken "package") hold rfl (by decide)

theorem series_packages (hps : ∀ q ∈ ps, ReadToEnd q.2)
    (hold : Holds toks i (ps.flatMap (fun q => packageTokens q.1 q.2) ++ (requireTokens ++ rest)))
    (hblank : Blank toks start i) :
    ∃ stats k, Series toks (parts toks) start stats k ∧
      stats.map Tree.shape = (ps.map fun q => packageStatement q.1 (q.2.root.statements.map Tree.shape)) ∧
      Blank toks k (i + (ps.flatMap fun q => packageTokens q.1 q.2).length) := by
  induction ps generalizing i start with
  | nil => exact ⟨[], start, .nil start, rfl, hblank⟩
  | cons q ps ih =>
    rw [flatMap_cons, append_assoc] at hold
    obtain ⟨k, ⟨t, hlt, hnext, hshape⟩, hk⟩ := package_next (hps q mem_cons_self) hold.left hblank
      (stops_packages hold.right)
    obtain ⟨stats, l, hseries, hstats, hl⟩ := ih (fun q hq => hps q (mem_cons_of_mem _ hq)) hold.right hk
    refine ⟨t :: stats, l, .cons ⟨hlt, hnext⟩ hseries, by rw [map_cons, map_cons, hshape, hstats], ?_⟩
    rwa [flatMap_cons, length_append, ← Nat.add_assoc]

theorem ofTokens_linked (hmain : ReadToEnd main) (hps : ∀ q ∈ ps, ReadToEnd q.2)
    (htoks : toks.toList.map Token.unplaced = linkedTokens main ps) :
    ∃ root stop, Tree.ofTokens toks = .ok root ∧ root.stop? = some stop ∧ Blank toks stop toks.size ∧
      root.statements.map Tree.shape = linkedStatements main ps := by
  have hold := holds_of_eq htoks
  have hsize : toks.size = (linkedTokens main ps).length := by rw [← htoks]; simp
  -- what is in front of the program, statement by statement
  obtain ⟨k₁, hrow, hk₁⟩ := hold.left.row
  have htable := hold.right
  have hwords : solids tableTokens = tableWords := rfl
  rw [hwords] at hrow
  obtain ⟨t, ht⟩ := table_next hrow ((stops_packages htable).of_blank hk₁)
  obtain ⟨stats, k₂, hstats, hshapes, hk₂⟩ := series_packages hps htable hk₁
  obtain ⟨k₃, ⟨u, hu⟩, hk₃⟩ := require_next htable.right.left hk₂
  have hfront : Series toks (parts toks) 0 (t :: (stats ++ [u])) k₃ :=
    .cons ⟨ht.1, ht.2.1⟩ (hstats.append (.cons ⟨hu.1, hu.2.1⟩ (.nil k₃)))
  -- the program itself
  obtain ⟨_, stop, hroot, htree, hgap⟩ := hmain.exists_root
  have hmains := htable.right.right
  generalize ho : 0 + tableTokens.length + (ps.flatMap fun q => packageTokens q.1 q.2).length +
    requireTokens.length = o at hmains hk₃
  have hlast : main.tokens.size + o = toks.size := by
    simp only [hsize, linkedTokens, length_append, tokensIn, length_map, Array.length_toList]
    omega
  have hwindow : Window main.tokens toks ⟨k₃, o⟩ main.tokens.size := by
    refine window_of_holds hmains hk₃ fun {x t'} hx ht' _ => ?_
    have hlt := (Array.getElem?_eq_some_iff.mp ht').1
    have hle : main.tokens.size + o ≤ x := hx.le
    omega
  obtain ⟨rest, last, k₄, j, hseries, hk₄, hends, hj, hrest⟩ :=
    series_within htree (by rw [hroot]; rfl) hgap hwindow (Nat.le_of_eq hlast)
  have hblock := (block_gives_iff (Nat.zero_le _)).mpr
    ⟨t :: (stats ++ [u]) ++ rest, last, k₄, rfl, hfront.append hseries, hk₄, hends⟩
  refine ⟨_, j, Tree.ofTokens_eq_ok_iff.mpr ⟨j, hblock⟩, rfl, hlast ▸ hj, ?_⟩
  show (t :: (stats ++ [u]) ++ rest ++ last.toList).map Tree.shape = _
  rw [append_assoc, map_append, hrest, map_cons, map_append, ht.2.2, hshapes, linkedStatements]
  simp [hu.2.2]

end Whole

theorem exists_prepend (hsome : ps ≠ []) (hmain : ReadToEnd main) (given : Bytes → Bytes)
    (hframes : ∀ q ∈ ps, ReadToEnd q.2 ∧ ReadAs (frameLine q.1) (frameTokens (given q.1))) :
    ∃ r, prepend main ps = .ok r ∧
      r.source = written (linkedTokens main (ps.map fun q => (given q.1, q.2))) := by
  obtain ⟨tss, hlines, hflat⟩ := readAs_linkedLines hmain hframes
  obtain ⟨sc, htokens, hread⟩ := ofLines_of_readAs hlines libraryVersion
  rw [hflat] at htokens
  have hlibraries : ∀ q ∈ ps.map fun q => (given q.1, q.2), ReadToEnd q.2 :=
    forall_mem_map.mpr fun q hq => (hframes q hq).1
  obtain ⟨root, _, htree, -⟩ := ofTokens_linked hmain hlibraries htokens
  refine ⟨{ version := libraryVersion, scanner := sc, root := root }, ?_, ?_⟩
  · rw [prepend, if_neg (by simpa using hsome), hread, htree]
    rfl
  · rw [source_eq, ← htokens]
    rfl

/-- The text of a linked program is read, to its last word, as the tokens and the statements of the
parts. -/
theorem reread_linked (hmain : ReadToEnd main)
    (hps : ∀ q ∈ ps, ReadToEnd q.2 ∧ isSpellable q.1 = true ∧ endsApart q.2 = true) (v : Int) :
    ∃ r, ofLines v (Bytes.lines (written (linkedTokens main ps))) = .ok r ∧
      tokensIn r = linkedTokens main ps ∧ r.isCovered = true ∧
      r.root.statements.map Tree.shape = linkedStatements main ps := by
  have hwritten := (readAs_linked hmain hps).written
  have htokens : (Scanner.passedAll {} ((linkedTokens main ps).map fun t => (t.code, t))).tokens.toList.map
      Token.unplaced = linkedTokens main ps :=
    (Scanner.unplaced_fresh hwritten).trans (by simp [Function.comp_def])
  obtain ⟨root, stop, htree, hstop, hblank, hstats⟩ :=
    ofTokens_linked hmain (fun q hq => (hps q hq).1) htokens
  rw [← Bytes.flatten_lines (written _)] at hwritten
  exact ⟨_, (ofLines_eq_ok_iff (lineCut_lines _)).mpr ⟨_, root, hwritten, htree, rfl⟩, htokens,
    isCovered_of_blank hstop hblank, hstats⟩

/-- **Linking keeps every package and the program itself.**

A program and at least one package, all read from texts to their last words, are put together if no
backslash of a package's name escapes anything and no library runs into the `end` behind it; a library
that ends in a newline does not.  The text of the result is read, to its last word, as these statements:
the table of packages; for each package, in their order, the assignment of a function with the statements
of the library to the package's name; the function that packages are required with; and the statements of
the program. -/
theorem prepend_statements {main : Program} {ps : Packages} (hsome : ps ≠ []) (hmain : ReadToEnd main)
    (hps : ∀ q ∈ ps, ReadToEnd q.2 ∧ isSpellable q.1 = true ∧ endsApart q.2 = true) (v : Int) :
    ∃ r r', prepend main ps = .ok r ∧ Program.ofLines v (Bytes.lines r.source) = .ok r' ∧
      r'.isCovered = true ∧ r'.root.statements.map Tree.shape = linkedStatements main ps := by
  obtain ⟨r, hprepend, hsource⟩ := exists_prepend hsome hmain id fun q hq =>
    ⟨(hps q hq).1, readAs_frame (hps q hq).2.1⟩
  have hsame : (ps.map fun q => (id q.1, q.2)) = ps := List.map_id' ps
  rw [hsame] at hsource
  obtain ⟨r', hread, -, hcovered, hstats⟩ := reread_linked hmain hps v
  exact ⟨r, r', hprepend, hsource ▸ hread, hcovered, hstats⟩

def nameSample : Bytes := Bytes.ofText "a\"\\x"

def librarySample : Bytes := Bytes.ofText "local t = {1} -- x\nif (t) t[1]=2\nreturn f'a'..g()"

def mainSample : Bytes := Bytes.ofText "(require'a')()"

theorem prepend_statements_sample : ∃ main library r r',
    Program.ofLines libraryVersion (Bytes.lines mainSample) = .ok main ∧
    Program.ofLines libraryVersion (Bytes.lines librarySample) = .ok library ∧
    library.root.statements.length = 3 ∧ prepend main [(nameSample, library)] = .ok r ∧
    Program.ofLines 8 (Bytes.lines r.source) = .ok r' ∧ r'.isCovered = true ∧
    r'.root.statements.map Tree.shape = linkedStatements main [(nameSample, library)] := by
  have hmain : (Program.ofLines libraryVersion (Bytes.lines mainSample)).toOption.any Program.isCovered = true := by
    decide +kernel
  have hlibrary : (Program.ofLines libraryVersion (Bytes.lines librarySample)).toOption.any
      (fun p => p.isCovered && endsApart p && p.root.statements.length == 3) = true := by
    decide +kernel
  cases hp : Program.ofLines libraryVersion (Bytes.lines mainSample) with
  | error e =>
    rw [hp] at hmain
    cases hmain
  | ok main =>
    cases hq : Program.ofLines libraryVersion (Bytes.lines librarySample) with
    | error e =>
      rw [hq] at hlibrary
      cases hlibrary
    | ok library =>
      rw [hp] at hmain
      rw [hq] at hlibrary
      simp only [Except.toOption, Option.any_some, Bool.and_eq_true, beq_iff_eq] at hmain hlibrary
      have hname : isSpellable nameSample = true := by decide
      have hps : ∀ q ∈ [(nameSample, library)],
          ReadToEnd q.2 ∧ isSpellable q.1 = true ∧ endsApart q.2 = true := by
        intro q hq'
        rw [List.mem_singleton.mp hq']
        exact ⟨⟨⟨_, _, hq⟩, hlibrary.1.1⟩, hname, hlibrary.1.2⟩
      obtain ⟨r, r', hr⟩ : ∃ r r', prepend main [(nameSample, library)] = .ok r ∧
          Program.ofLines 8 (Bytes.lines r.source) = .ok r' ∧ r'.isCovered = true ∧
          r'.root.statements.map Tree.shape = linkedStatements main [(nameSample, library)] :=
        prepend_statements (List.cons_ne_nil _ _) ⟨⟨_, _, hp⟩, hmain⟩ hps 8
      exact ⟨main, library, r, r', rfl, rfl, hlibrary.2, hr⟩

def relinked (main library name : Bytes) : Except Failure Program := do
  let p ← ofLines libraryVersion (Bytes.lines main)
  let q ← ofLines libraryVersion (Bytes.lines library)
  let r ← prepend p [(name, q)]
  ofLines libraryVersion (Bytes.lines r.source)

theorem exists_readToEnd {s : Bytes}
    (h : (ofLines libraryVersion (Bytes.lines s)).toOption.any isCovered = true) :
    ∃ p, ofLines libraryVersion (Bytes.lines s) = .ok p ∧ ReadToEnd p ∧ tokensOf? s = some (tokensIn p) := by
  cases hp : ofLines libraryVersion (Bytes.lines s) with
  | error e =>
    rw [hp] at h
    cases h
  | ok p =>
    rw [hp] at h
    obtain ⟨ls, hls, hholds⟩ := holds_of_ofLines (lineCut_lines s) hp
    rw [Bytes.flatten_lines] at hls
    exact ⟨p, rfl, ⟨⟨_, _, hp⟩, h⟩, tokensOf?_eq_some_iff.mpr ⟨ls, hls, hholds.tokens_eq.symm⟩⟩

theorem relinked_eq {main library given : Bytes} {p : Program}
    (hp : ofLines libraryVersion (Bytes.lines main) = .ok p)
    (hq : ofLines libraryVersion (Bytes.lines library) = .ok q) (hmain : ReadToEnd p)
    (hlibrary : ReadToEnd q) (hframe : ReadAs (frameLine name) (frameTokens given)) :
    relinked main library name =
      ofLines libraryVersion (Bytes.lines (written (linkedTokens p [(given, q)]))) := by
  have hframes : ∀ q' ∈ [(name, q)], ReadToEnd q'.2 ∧ ReadAs (frameLine q'.1) (frameTokens given) :=
    forall_mem_singleton.mpr ⟨hlibrary, hframe⟩
  obtain ⟨r, hr, hsource⟩ := exists_prepend (cons_ne_nil _ _) hmain (fun _ => given) hframes
  simp only [relinked, hp, hq, hr, hsource, bind, Except.bind, map_singleton]

/-- **A library that ends in a word without a newline makes the linked text unreadable**, and the name
`a\b` of a package is read as another one. -/
theorem relinked_not_intact :
    (relinked (Bytes.ofText "x=1\n") (Bytes.ofText "x=a") (Bytes.ofText "l")).toOption.isNone = true ∧
    (relinked (Bytes.ofText "x=1\n") (Bytes.ofText "x=1\n") (Bytes.ofText "a\\b")).toOption.map
      (fun r => (r.tokens.toList.filter fun t => t.kind == .string).map (·.data)) = some [[97, 8]] := by
  obtain ⟨p, hp, hmain, hpt⟩ := exists_readToEnd (s := Bytes.ofText "x=1\n") (by decide +kernel)
  obtain ⟨q, hq, hlibrary, hqt⟩ := exists_readToEnd (s := Bytes.ofText "x=a") (by decide +kernel)
  have hp' : tokensIn p = (tokensOf? (Bytes.ofText "x=1\n")).getD [] := by rw [hpt]; rfl
  have hq' : tokensIn q = (tokensOf? (Bytes.ofText "x=a")).getD [] := by rw [hqt]; rfl
  constructor
  · rw [relinked_eq hp hq hmain hlibrary (readAs_frame (by decide)), linkedTokens, List.flatMap_singleton,
      packageTokens, hp', hq']
    dsimp only
    decide +kernel
  · have hframe : ReadAs (frameLine (Bytes.ofText "a\\b")) (frameTokens [97, 8]) :=
      tokensOf?_eq_some_iff.mp (by decide +kernel)
    have hps : ∀ q ∈ [(([97, 8] : Bytes), p)],
        ReadToEnd q.2 ∧ isSpellable q.1 = true ∧ endsApart q.2 = true := by
      refine List.forall_mem_singleton.mpr ⟨hmain, rfl, endsApart_of_newline hmain ?_⟩
      rw [source_eq, hp']
      decide +kernel
    obtain ⟨r, hr, htokens, -⟩ := reread_linked hmain hps libraryVersion
    -- kinds and data of tokens do not depend on their places
    have hunplaced : (r.tokens.toList.filter fun t => t.kind == .string).map (·.data) =
        ((tokensIn r).filter fun t => t.kind == .string).map (·.data) := by
      rw [tokensIn, List.filter_map, List.map_map]
      rfl
    rw [relinked_eq hp hp hmain hmain hframe, hr]
    refine congrArg some (hunplaced.trans ?_)
    rw [htokens, linkedTokens, List.flatMap_singleton, packageTokens, hp']
    dsimp only
    decide +kernel

end Cartridge.Linking
