import Cartridge.Lua.Tree

/-!
# The grammar

A recursive-descent grammar over an array of tokens.  Spaces, newlines and
comments before a token are passed over when the token is accepted.  A cursor may
carry a limit: a conditional in its one-line form has no closing word and ends
with its line, so no token at or past the limit is accepted.

The only phrases that contain themselves are blocks and expressions.  Every other
phrase is written over a parser `inner` for these two, and the parser itself is
the iteration of that step.  A phrase inside another starts at a later token, so
that the number of tokens bounds the depth.
-/

namespace Cartridge.Lua

/-- Where the grammar is: the next token, and the first one that may not be
taken. -/
structure Cursor where
  pos : Nat := 0
  limit : Option Nat := none
  deriving DecidableEq, Repr, Inhabited

/-- A parser: moves the cursor, or fails. -/
abbrev Parse := StateT Cursor (Except Failure)

namespace Grammar

/-! ### The cursor -/

def here : Parse Nat := do return (← get).pos

def goTo (pos : Nat) : Parse Unit := modify fun c => { c with pos := pos }

def limitTo (limit : Option Nat) : Parse Unit := modify fun c => { c with limit := limit }

def attempt {α : Type} (p : Parse (Option α)) : Parse (Option α) := do
  let start ← here
  match ← p with
  | some a => return some a
  | none => goTo start; return none

def firstOf {α : Type} : List (Parse (Option α)) → Parse (Option α)
  | [] => return none
  | p :: ps => do
      match ← p with
      | some a => return some a
      | none => firstOf ps

/-- Repeats a parser until it finds nothing.  Every round takes a token, so that
the number of tokens bounds the rounds. -/
def repeated {α : Type} (p : Parse (Option α)) : Nat → Parse (List α)
  | 0 => throw .exhausted
  | bound + 1 => do
      match ← p with
      | none => return []
      | some a => return a :: (← repeated p bound)

def extended (p : Tree → Parse (Option Tree)) : Nat → Tree → Parse Tree
  | 0, _ => throw .exhausted
  | bound + 1, t => do
      match ← p t with
      | none => return t
      | some t' => extended p bound t'

def passAll {α : Type} (p : Parse (Option α)) : Nat → Parse Unit
  | 0 => throw .exhausted
  | bound + 1 => do
      match ← p with
      | none => return ()
      | some _ => passAll p bound

/-! ### Taking tokens -/

section Tokens

variable (toks : Array Token)

/-- The first index from `i` on, within `count` tokens, whose token fits the
pattern or belongs to the grammar. -/
def seek (p : Pattern) : Nat → Nat → Nat
  | 0, i => i
  | count + 1, i =>
      match toks[i]? with
      | none => i
      | some t => if t.fits p || !t.isGap then i else seek p count (i + 1)

/-- Takes the next token if it fits the pattern and is within reach, together
with the gap before it. -/
def accept (p : Pattern) : Parse (Option Token) := do
  let c ← get
  let i := seek toks p (toks.size - c.pos) c.pos
  match toks[i]? with
  | some t =>
      if t.fits p && c.limit.all (fun l => decide (i < l)) then
        set { c with pos := i + 1 }
        return some t
      else return none
  | none => return none

def keyword (word : String) : Parse (Option Token) := accept toks (.exact (Token.keyword word))

def symbol (sign : String) : Parse (Option Token) := accept toks (.exact (Token.symbol sign))

def name : Parse (Option Token) := accept toks (.kind .name)

def fault {α : Type} (wanted : Wanted) : Parse α := do
  let c ← get
  throw (.grammar wanted (toks[c.pos]? >>= fun t => t.place))

def expect (p : Pattern) : Parse Token := do
  match ← accept toks p with
  | some t => return t
  | none => fault toks (.token p)

def expectKeyword (word : String) : Parse Token := expect toks (.exact (Token.keyword word))

def expectSymbol (sign : String) : Parse Token := expect toks (.exact (Token.symbol sign))

def need {α : Type} (p : Parse (Option α)) (description : String) : Parse α := do
  match ← p with
  | some a => return a
  | none => fault toks (.phrase description)

/-- How often a parser can take a token. -/
def rounds : Nat := toks.size + 1

def semicolons : Parse Unit := passAll (symbol toks ";") (rounds toks)

/-! ### Phrases without inner ones -/

def nameList : Parse (Option Tree) := do
  let start ← here
  match ← name toks with
  | none => return none
  | some first =>
      let more := attempt do
        match ← symbol toks "," with
        | none => return none
        | some _ => name toks
      let rest ← repeated more (rounds toks)
      return some (.made .nameList [.list ((first :: rest).map .token)] start (← here))

def functionName : Parse (Option Tree) := do
  let start ← here
  match ← name toks with
  | none => return none
  | some first =>
      let more := do
        match ← symbol toks "." with
        | none => return none
        | some _ => return some (← expect toks (.kind .name))
      let rest ← repeated more (rounds toks)
      let method ← do
        match ← symbol toks ":" with
        | none => pure Tree.absent
        | some _ => pure (Tree.token (← expect toks (.kind .name)))
      return some (.made .functionName [.list ((first :: rest).map .token), method] start (← here))

/-! ### Phrases over blocks and expressions -/

end Tokens

/-- The phrases that contain themselves. -/
inductive Phrase where
  | block
  | expression
  deriving DecidableEq, Repr

section Phrases

variable (toks : Array Token) (inner : Phrase → Parse (Option Tree))

def expList : Parse (Option Tree) := attempt do
  let start ← here
  match ← inner .expression with
  | none => return none
  | some first =>
      let more := do
        match ← symbol toks "," with
        | none => return none
        | some _ => return some (← need toks (inner .expression) "exp after comma")
      let rest ← repeated more (rounds toks)
      return some (.made .expList [.list (first :: rest)] start (← here))

def tableField : Parse (Option Tree) := do
  let start ← here
  match ← symbol toks "[" with
  | some _ =>
      let key ← need toks (inner .expression) "exp key in field"
      discard (expectSymbol toks "]")
      discard (expectSymbol toks "=")
      let value ← need toks (inner .expression) "exp value in field"
      return some (.made .fieldExpKey [key, value] start (← here))
  | none =>
      let named := attempt do
        match ← name toks with
        | none => return none
        | some key =>
            match ← symbol toks "=" with
            | none => return none
            | some _ =>
                let value ← need toks (inner .expression) "exp value in field"
                return some (.made .fieldNamedKey [.token key, value] start (← here))
      match ← named with
      | some t => return some t
      | none =>
          match ← inner .expression with
          | some value => return some (.made .fieldExp [value] start (← here))
          | none => return none

def table : Parse (Option Tree) := do
  let start ← here
  match ← symbol toks "\x7b" with
  | none => return none
  | some _ =>
      let first ← tableField toks inner
      let more := do
        match ← firstOf [symbol toks ",", symbol toks ";"] with
        | none => return none
        | some _ => tableField toks inner
      let rest ← repeated more (rounds toks)
      discard (expectSymbol toks "\x7d")
      return some (.made .tableConstructor [.list (first.toList ++ rest)] start (← here))

/-- The arguments of a call: expressions in parentheses, a table or a string. -/
def arguments : Parse (Option Tree) := do
  let start ← here
  match ← symbol toks "(" with
  | some _ =>
      let exps ← expList toks inner
      discard (expectSymbol toks ")")
      return some (.made .functionArgs [.ofOption exps] start (← here))
  | none =>
      match ← table toks inner with
      | some t => return some t
      | none => return (← accept toks (.kind .string)).map .token

/-- What can follow a variable, a call or an expression in parentheses: a key, an
attribute, arguments, or a method call. -/
def suffix (first : Tree) : Parse (Option Tree) := do
  let start ← here
  match ← symbol toks "[" with
  | some _ =>
      let key ← need toks (inner .expression) "exp in prefixexp index"
      discard (expectSymbol toks "]")
      return some (.made .varIndex [first, key] start (← here))
  | none =>
      match ← symbol toks "." with
      | some _ =>
          let attr ← expect toks (.kind .name)
          return some (.made .varAttribute [first, .token attr] start (← here))
      | none =>
          match ← arguments toks inner with
          | some args => return some (.made .functionCall [first, args] start (← here))
          | none =>
              match ← symbol toks ":" with
              | some _ =>
                  let method ← expect toks (.kind .name)
                  let args ← need toks (arguments toks inner) "args for method call"
                  return some
                    (.made .functionCallMethod [first, .token method, args] start (← here))
              | none => return none

/-- A name or an expression in parentheses, with all that follows it.  Empty
parentheses are passed over, and stand for nothing unless something follows
them. -/
def prefixed : Parse (Option Tree) := do
  let start ← here
  match ← name toks with
  | some n =>
      let first := Tree.made .varName [.token n] start (← here)
      return some (← extended (suffix toks inner) (rounds toks) first)
  | none =>
      match ← symbol toks "(" with
      | none => return none
      | some _ =>
          let exp ← inner .expression
          discard (expectSymbol toks ")")
          match ← extended (suffix toks inner) (rounds toks) (.ofOption exp) with
          | .absent => return none
          | t => return some t

def functionBody : Parse (Option Tree) := do
  let start ← here
  match ← symbol toks "(" with
  | none => return none
  | some _ =>
      let names ← nameList toks
      let dots ← do
        match names with
        | some _ =>
            match ← symbol toks "," with
            | none => pure Tree.absent
            | some _ =>
                let dotsStart ← here
                discard (expectSymbol toks "...")
                pure (Tree.made .varargDots [] dotsStart (← here))
        | none =>
            let dotsStart ← here
            match ← symbol toks "..." with
            | none => pure Tree.absent
            | some _ => pure (Tree.made .varargDots [] dotsStart (← here))
      discard (expectSymbol toks ")")
      let block ← need toks (inner .block) "block in funcbody"
      discard (expectKeyword toks "end")
      return some (.made .functionBody [.ofOption names, dots, block] start (← here))

def function : Parse (Option Tree) := do
  let start ← here
  match ← keyword toks "function" with
  | none => return none
  | some _ =>
      let body ← need toks (functionBody toks inner) "funcbody in function"
      return some (.made .function [body] start (← here))

def constant (word : String) (value : Tree) : Parse (Option Tree) := do
  let start ← here
  match ← keyword toks word with
  | none => return none
  | some _ => return some (.made .expValue [value] start (← here))

def literal (kind : TokenKind) : Parse (Option Tree) := do
  let start ← here
  match ← accept toks (.kind kind) with
  | none => return none
  | some t => return some (.made .expValue [.token t] start (← here))

def unary (start : Nat) : Parse (Option Tree) := do
  match ← firstOf [symbol toks "-", keyword toks "not", symbol toks "#"] with
  | none => return none
  | some op =>
      let exp ← need toks (inner .expression) "exp after unary op"
      return some (.made .expUnOp [.token op, exp] start (← here))

/-- An expression that no binary operator splits.  The phrase starts at the cursor
even if empty parentheses are passed over first. -/
def term : Parse (Option Tree) := do
  let start ← here
  let wrap (p : Parse (Option Tree)) : Parse (Option Tree) := do
    match ← p with
    | none => return none
    | some t => return some (.made .expValue [t] start (← here))
  firstOf
    [constant toks "nil" .absent, constant toks "false" (.truth false),
      constant toks "true" (.truth true), literal toks .number, literal toks .string,
      (do
        match ← symbol toks "..." with
        | none => return none
        | some _ => return some (.made .varargDots [] start (← here))),
      wrap (function toks inner), wrap (prefixed toks inner), wrap (table toks inner),
      unary toks inner start]

def binaryOperators : List Pattern :=
  ["<", ">", "<=", ">=", "~=", "!=", "==", "..", "+", "-", "*", "/", "%", "^"].map
      (fun s => .exact (Token.symbol s)) ++
    ["and", "or"].map fun w => .exact (Token.keyword w)

def operation (first : Tree) : Parse (Option Tree) := do
  let start ← here
  match ← firstOf (binaryOperators.map (accept toks)) with
  | none => return none
  | some op =>
      let second ← need toks (term toks inner) "exp2 in binop"
      return some (.made .expBinOp [first, .token op, second] start (← here))

def expression : Parse (Option Tree) := do
  match ← term toks inner with
  | none => return none
  | some first => return some (← extended (operation toks inner) (rounds toks) first)

/-! ### Statements -/

def assignable : Parse (Option Tree) := do
  match ← prefixed toks inner with
  | some t =>
      if t.isA .varName || t.isA .varAttribute || t.isA .varIndex then return some t
      else return none
  | none => return none

def varList : Parse (Option Tree) := do
  let start ← here
  match ← assignable toks inner with
  | none => return none
  | some first =>
      let more := do
        match ← symbol toks "," with
        | none => return none
        | some _ => return some (← need toks (assignable toks inner) "var in varlist")
      let rest ← repeated more (rounds toks)
      return some (.made .varList [.list (first :: rest)] start (← here))

def assignSigns : List String := ["=", "+=", "-=", "*=", "/=", "%="]

def assignment : Parse (Option Tree) := attempt do
  let start ← here
  match ← varList toks inner with
  | none => return none
  | some vars =>
      match ← firstOf (assignSigns.map (symbol toks)) with
      | none => return none
      | some op =>
          let exps ← need toks (expList toks inner) "Expected expression in assignment"
          return some (.made .statAssignment [vars, .token op, exps] start (← here))

def callStatement : Parse (Option Tree) := attempt do
  let start ← here
  match ← prefixed toks inner with
  | none => return none
  | some t =>
      if t.isA .functionCall || t.isA .functionCallMethod then
        return some (.made .statFunctionCall [t] start (← here))
      else return none

def doStatement : Parse (Option Tree) := do
  let start ← here
  match ← keyword toks "do" with
  | none => return none
  | some _ =>
      let block ← need toks (inner .block) "block in do"
      discard (expectKeyword toks "end")
      return some (.made .statDo [block] start (← here))

def whileStatement : Parse (Option Tree) := do
  let start ← here
  match ← keyword toks "while" with
  | none => return none
  | some _ =>
      let exp ← need toks (inner .expression) "exp in while"
      discard (expectKeyword toks "do")
      let block ← need toks (inner .block) "block in while"
      discard (expectKeyword toks "end")
      return some (.made .statWhile [exp, block] start (← here))

def repeatStatement : Parse (Option Tree) := do
  let start ← here
  match ← keyword toks "repeat" with
  | none => return none
  | some _ =>
      let block ← need toks (inner .block) "block in repeat"
      discard (expectKeyword toks "until")
      let exp ← need toks (inner .expression) "expression in repeat"
      return some (.made .statRepeat [block, exp] start (← here))

def lineEnd : Nat → Nat → Nat
  | 0, i => i
  | count + 1, i =>
      match toks[i]? with
      | none => i
      | some t => if t.kind == .newline then i else lineEnd count (i + 1)

def branch (condition block : Tree) : Tree := .list [condition, block]

def hasStatements : Tree → Bool
  | .node .chunk [.list (_ :: _)] _ => true
  | _ => false

/-- The rest of a conditional on one line, whose condition ends in a closing
parenthesis.  The limit is lifted afterwards, also for a conditional around this
one. -/
def shortIf (start : Nat) (condition : Tree) (conditionEnd : Nat) : Parse (Option Tree) := do
  limitTo (some (lineEnd toks (toks.size - conditionEnd) conditionEnd))
  let block ← need toks (inner .block) "valid chunk in short-if"
  let otherwise ← do
    match ← keyword toks "else" with
    | none => pure none
    | some _ => inner .block
  limitTo none
  let bare ← condition.field .value
  let other := match otherwise with
    | some b => if hasStatements b then [branch .absent b] else []
    | none => []
  let stop ← here
  return some (.node .statIf [.list (branch bare block :: other)]
    { span := some ⟨start, stop⟩, short := true })

def longIf (start : Nat) (condition : Option Tree) : Parse (Option Tree) := do
  match ← keyword toks "do" with
  | some _ => pure ()
  | none => discard (expectKeyword toks "then")
  let block ← need toks (inner .block) "Expected block in if"
  let more := do
    match ← keyword toks "elseif" with
    | none => return none
    | some _ =>
        let condition ← inner .expression
        discard (expectKeyword toks "then")
        let block ← need toks (inner .block) "Expected block in elseif"
        return some (branch (.ofOption condition) block)
  let rest ← repeated more (rounds toks)
  let other ← do
    match ← keyword toks "else" with
    | none => pure []
    | some _ => pure [branch .absent (← need toks (inner .block) "Expected block in else")]
  discard (expectKeyword toks "end")
  return some
    (.made .statIf [.list (branch (.ofOption condition) block :: rest ++ other)] start (← here))

def closesBefore (stop : Nat) : Bool :=
  match toks[stop - 1]? with
  | some t => t.agrees (Token.symbol ")")
  | none => false

def ifStatement : Parse (Option Tree) := do
  let start ← here
  match ← keyword toks "if" with
  | none => return none
  | some _ =>
      let condition ← inner .expression
      let afterCondition ← here
      match ← firstOf [keyword toks "then", keyword toks "do"] with
      | some _ =>
          goTo afterCondition
          longIf toks inner start condition
      | none =>
          match condition.bind (fun t => t.stop?.map fun s => (t, s)) with
          | none => throw .missingPart
          | some (t, stop) =>
              if closesBefore toks stop then shortIf toks inner start t stop
              else
                goTo afterCondition
                longIf toks inner start condition

def forStatement : Parse (Option Tree) := do
  let start ← here
  match ← keyword toks "for" with
  | none => return none
  | some _ =>
      let afterFor ← here
      let counter ← name toks
      match ← symbol toks "=" with
      | some _ =>
          let first ← need toks (inner .expression) "exp-init in for"
          discard (expectSymbol toks ",")
          let last ← need toks (inner .expression) "exp-end in for"
          let step ← do
            match ← symbol toks "," with
            | none => pure Tree.absent
            | some _ => need toks (inner .expression) "exp-step in for"
          discard (expectKeyword toks "do")
          let block ← need toks (inner .block) "block in for"
          discard (expectKeyword toks "end")
          return some
            (.made .statForStep [.ofToken? counter, first, last, step, block] start (← here))
      | none =>
          goTo afterFor
          let names ← need toks (nameList toks) "namelist in for-in"
          discard (expectKeyword toks "in")
          let exps ← need toks (expList toks inner) "explist in for-in"
          discard (expectKeyword toks "do")
          let block ← need toks (inner .block) "block in for-in"
          discard (expectKeyword toks "end")
          return some (.made .statForIn [names, exps, block] start (← here))

def functionStatement : Parse (Option Tree) := do
  let start ← here
  match ← keyword toks "function" with
  | none => return none
  | some _ =>
      let funcname ← need toks (functionName toks) "funcname in function"
      let body ← need toks (functionBody toks inner) "funcbody in function"
      return some (.made .statFunction [funcname, body] start (← here))

def localStatement : Parse (Option Tree) := do
  let start ← here
  match ← keyword toks "local" with
  | none => return none
  | some _ =>
      match ← keyword toks "function" with
      | some _ =>
          let funcname ← expect toks (.kind .name)
          let body ← need toks (functionBody toks inner) "funcbody in local function"
          return some (.made .statLocalFunction [.token funcname, body] start (← here))
      | none =>
          let names ← need toks (nameList toks) "namelist in local assignment"
          let exps ← do
            match ← symbol toks "=" with
            | none => pure Tree.absent
            | some _ => need toks (expList toks inner) "explist in local assignment"
          return some (.made .statLocalAssignment [names, exps] start (← here))

def gotoStatement : Parse (Option Tree) := do
  let start ← here
  match ← keyword toks "goto" with
  | none => return none
  | some _ =>
      let target ← expect toks (.kind .name)
      return some (.made .statGoto [.label target.data] start (← here))

def labelStatement : Parse (Option Tree) := do
  let start ← here
  match ← accept toks (.kind .label) with
  | none => return none
  | some t =>
      return some
        (.made .statLabel [.label ((t.data.take (t.data.length - 2)).drop 2)] start (← here))

def statement : Parse (Option Tree) :=
  firstOf
    [assignment toks inner, callStatement toks inner, doStatement toks inner,
      whileStatement toks inner, repeatStatement toks inner, ifStatement toks inner,
      forStatement toks inner, functionStatement toks inner, localStatement toks inner,
      gotoStatement toks, labelStatement toks]

def lastStatement : Parse (Option Tree) := do
  let start ← here
  match ← keyword toks "break" with
  | some _ => return some (.made .statBreak [] start (← here))
  | none =>
      match ← keyword toks "return" with
      | some _ =>
          let exps ← expList toks inner
          return some (.made .statReturn [.ofOption exps] start (← here))
      | none => return none

def block : Parse (Option Tree) := do
  let start ← here
  let stats ← repeated (do semicolons toks; statement toks inner) (rounds toks)
  semicolons toks
  let last ← lastStatement toks inner
  semicolons toks
  return some (.made .chunk [.list (stats ++ last.toList)] start (← here))

/-- One level of the grammar over the inner phrases. -/
def level : Phrase → Parse (Option Tree)
  | .block => block toks inner
  | .expression => expression toks inner

end Phrases

/-- Phrases of at most so many levels. -/
def phrase (toks : Array Token) : Nat → Phrase → Parse (Option Tree)
  | 0, _ => throw .exhausted
  | depth + 1, p => level toks (phrase toks depth) p

end Grammar

def Tree.ofTokens (toks : Array Token) : Except Failure Tree := do
  let (t, _) ← (Grammar.need toks (Grammar.phrase toks (toks.size + 1) .block)
    "input to be a program").run {}
  return t

end Cartridge.Lua
