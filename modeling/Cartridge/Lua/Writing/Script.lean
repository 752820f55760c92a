import Cartridge.Lua.Tree

/-!
# Writing scripts

The order in which a tree is written does not depend on the style: it is a list
of steps, each of which a style carries out in its own way.  Steps name the node
they belong to by the end of its span, beyond which they look for no gap.

With `plain` set, the source tokens are not looked at: brackets around nested
expressions are written out, and a conditional is always closed by `end`.
-/

namespace Cartridge.Lua

/-- What a step belongs to. -/
inductive Owner where
  | program
  | upTo (stop : Nat)
  | unplaced
  | foreign
  deriving DecidableEq, Repr, Inhabited

/-- What a name step writes. -/
inductive Spelling where
  | token (t : Token)
  | label (name : Bytes)
  | noToken
  | noName
  deriving DecidableEq, Repr, Inhabited

inductive Step where
  | gap (owner : Owner)
  | text (owner : Owner) (word : Bytes)
  | name (owner : Owner) (spelling : Spelling)
  | semicolons (owner : Owner)
  | put (text : Bytes)
  | take (text : Bytes)
  | check (t : Token)
  | openIf
  /-- The parenthesis that closes one which the source has. -/
  | closeIf (owner : Owner)
  /-- The separator of table fields that the source has here. -/
  | separator (owner : Owner)
  /-- The separator after the last table field, if the source has one. -/
  | lastSeparator (owner : Owner)
  | indent
  | dedent
  | stop (failure : Failure)
  deriving DecidableEq, Repr, Inhabited

def Origin.owner (o : Origin) : Owner :=
  match o.span with
  | some s => .upTo s.stop
  | none => .unplaced

namespace Tree

def spelling : Tree → Spelling
  | .token t => .token t
  | _ => .noToken

def labelSpelling : Tree → Spelling
  | .label b => .label b
  | _ => .noName

def operator (owner : Owner) : Tree → Step
  | .token t => .text owner t.code
  | _ => .stop .missingPart

def isGiven : Tree → Bool
  | .absent => false
  | .truth b => b
  | .list ts => !ts.isEmpty
  | .label b => !b.isEmpty
  | .token t => !t.code.isEmpty
  | .node .. => true

def nameSteps (owner : Owner) (sign : Bytes) : List Tree → List Step
  | [] => [.stop .outOfRange]
  | first :: rest =>
      .name owner first.spelling ::
        rest.flatMap fun t => [.text owner sign, .name owner t.spelling]

def namesScript (owner : Owner) (sign : Bytes) : Tree → List Step
  | .list ts => nameSteps owner sign ts
  | _ => [.stop .wrongType]

def word (s : String) : Bytes := Bytes.ofText s

mutual

def script (plain : Bool) : Tree → List Step
  | .node .chunk [stats] o =>
      let w := o.owner
      .gap w :: (blockScript plain w stats ++ [.semicolons w])
  | .node .statAssignment [vars, op, exps] o =>
      let w := o.owner
      .gap w :: (script plain vars ++ operator w op :: script plain exps)
  | .node .statFunctionCall [call] o =>
      .gap o.owner :: script plain call
  | .node .statDo [block] o =>
      let w := o.owner
      [.gap w, .text w (word "do"), .indent] ++ script plain block ++
        [.dedent, .text w (word "end")]
  | .node .statWhile [exp, block] o =>
      let w := o.owner
      [.gap w, .text w (word "while")] ++ script plain exp ++
        [.text w (word "do"), .indent] ++ script plain block ++ [.dedent, .text w (word "end")]
  | .node .statRepeat [block, exp] o =>
      let w := o.owner
      [.gap w, .text w (word "repeat"), .indent] ++ script plain block ++
        [.dedent, .text w (word "until")] ++ script plain exp
  | .node .statIf [pairs] o =>
      let w := o.owner
      let short := o.short && !plain
      .gap w :: (branchesScript plain w short pairs ++
        (if short then [] else [.text w (word "end")]))
  | .node .statForStep [name, first, last, step, block] o =>
      let w := o.owner
      [.gap w, .text w (word "for"), .name w name.spelling, .text w (word "=")] ++
        script plain first ++ [.text w (word ",")] ++ script plain last ++
        (if step.isAbsent then [] else .text w (word ",") :: script plain step) ++
        [.text w (word "do"), .indent] ++ script plain block ++ [.dedent, .text w (word "end")]
  | .node .statForIn [names, exps, block] o =>
      let w := o.owner
      [.gap w, .text w (word "for")] ++ script plain names ++ [.text w (word "in")] ++
        script plain exps ++ [.text w (word "do"), .indent] ++ script plain block ++
        [.dedent, .text w (word "end")]
  | .node .statFunction [name, body] o =>
      let w := o.owner
      [.gap w, .text w (word "function")] ++ script plain name ++ script plain body
  | .node .statLocalFunction [name, body] o =>
      let w := o.owner
      [.gap w, .text w (word "local"), .text w (word "function"), .name w name.spelling] ++
        script plain body
  | .node .statLocalAssignment [names, exps] o =>
      let w := o.owner
      [.gap w, .text w (word "local")] ++ script plain names ++
        (if exps.isAbsent then [] else .text w (word "=") :: script plain exps)
  | .node .statGoto [target] o =>
      let w := o.owner
      [.gap w, .text w (word "goto"), .name w target.labelSpelling]
  | .node .statLabel [target] o =>
      let w := o.owner
      [.gap w, .gap w, .put (word "::"), .name w target.labelSpelling, .put (word "::")]
  | .node .statBreak [] o =>
      let w := o.owner
      [.gap w, .text w (word "break")]
  | .node .statReturn [exps] o =>
      let w := o.owner
      [.gap w, .text w (word "return")] ++ (if exps.isAbsent then [] else script plain exps)
  | .node .functionName [path, method] o =>
      let w := o.owner
      .gap w :: (namesScript w (word ".") path ++
        (if method.isAbsent then [] else [.text w (word ":"), .name w method.spelling]))
  | .node .functionArgs [exps] o =>
      let w := o.owner
      [.gap w, .text w (word "("), .indent] ++ (if exps.isAbsent then [] else script plain exps) ++
        [.dedent, .text w (word ")")]
  | .node .varList [vars] o =>
      let w := o.owner
      .gap w :: separatedScript plain w vars
  | .node .varName [name] o =>
      let w := o.owner
      [.gap w, .name w name.spelling]
  | .node .varIndex [first, key] o =>
      let w := o.owner
      .gap w :: (script plain first ++ [.text w (word "["), .indent] ++ script plain key ++
        [.dedent, .text w (word "]")])
  | .node .varAttribute [first, name] o =>
      let w := o.owner
      .gap w :: (script plain first ++ [.text w (word "."), .name w name.spelling])
  | .node .nameList [names] o =>
      let w := o.owner
      .gap w :: (if names.isAbsent then [] else namesScript w (word ",") names)
  | .node .expList [exps] o =>
      let w := o.owner
      .gap w :: (if exps.isAbsent then [] else separatedScript plain w exps)
  | .node .expValue [value] o =>
      let w := o.owner
      let opening := if plain then
          (if value.isNode then [.put (word "("), .indent] else [])
        else [.openIf]
      let closing := if plain then
          (if value.isNode then [.dedent, .text w (word ")")] else [])
        else [.closeIf w]
      let middle := match value with
        | .absent => [.text w (word "nil")]
        | .truth false => [.text w (word "false")]
        | .truth true => [.text w (word "true")]
        | .token t =>
            if t.kind == .name then [.name w (.token t)]
            else if t.kind == .number || t.kind == .string then [.gap w, .take t.code]
            else [.gap .foreign]
        | _ => script plain value
      [.gap w, .gap w] ++ opening ++ middle ++ closing
  | .node .varargDots [] o =>
      let w := o.owner
      [.gap w, .text w (word "...")]
  | .node .expBinOp [first, op, second] o =>
      let w := o.owner
      .gap w :: (script plain first ++ operator w op :: script plain second)
  | .node .expUnOp [op, exp] o =>
      let w := o.owner
      [.gap w, operator w op] ++ script plain exp
  | .node .functionCall [first, args] o =>
      let w := o.owner
      .gap w :: (script plain first ++ (match args with
        | .absent => [.text w (word "("), .text w (word ")")]
        | .token t =>
            if t.kind == .string then [.gap w, .take t.code] else [.gap .foreign]
        | _ => script plain args))
  | .node .functionCallMethod [first, method, args] o =>
      let w := o.owner
      .gap w :: (script plain first ++ [.text w (word ":"), .name w method.spelling] ++
        (match args with
        | .absent => [.text w (word "("), .text w (word ")")]
        | .token t =>
            if t.kind == .string then
              .gap w :: ((if plain then [] else [.check t]) ++ [.take t.code])
            else [.gap .foreign]
        | _ => script plain args))
  | .node .function [body] o =>
      let w := o.owner
      [.gap w, .text w (word "function")] ++ script plain body
  | .node .functionBody [params, dots, block] o =>
      let w := o.owner
      [.gap w, .text w (word "("), .indent] ++
        (if params.isAbsent then (if dots.isAbsent then [] else script plain dots)
        else script plain params ++
          (if dots.isAbsent then [] else .text w (word ",") :: script plain dots)) ++
        [.dedent, .text w (word ")"), .indent] ++ script plain block ++
        [.dedent, .text w (word "end")]
  | .node .tableConstructor [fields] o =>
      let w := o.owner
      [.gap w, .text w (word "\x7b"), .indent] ++
        (if fields.isGiven then fieldsScript plain w fields else []) ++
        [.dedent, .gap w] ++ (if plain then [] else [.lastSeparator w]) ++
        [.text w (word "\x7d")]
  | .node .fieldExpKey [key, exp] o =>
      let w := o.owner
      [.gap w, .text w (word "["), .indent] ++ script plain key ++
        [.dedent, .text w (word "]"), .text w (word "=")] ++ script plain exp
  | .node .fieldNamedKey [name, exp] o =>
      let w := o.owner
      [.gap w, .name w name.spelling, .text w (word "=")] ++ script plain exp
  | .node .fieldExp [exp] o =>
      .gap o.owner :: script plain exp
  | .node _ _ _ => [.stop .missingPart]
  | .list ts => .gap .foreign :: allScript plain ts
  | .label b => List.replicate (b.length + 1) (.gap .foreign)
  | .token _ => [.gap .foreign]
  | .truth _ => [.gap .foreign]
  | .absent => [.gap .program]

def allScript (plain : Bool) : List Tree → List Step
  | [] => []
  | t :: ts => script plain t ++ allScript plain ts

def blockScript (plain : Bool) (w : Owner) : Tree → List Step
  | .list ts => statsScript plain w ts
  | _ => [.stop .wrongType]

def statsScript (plain : Bool) (w : Owner) : List Tree → List Step
  | [] => []
  | t :: ts => .semicolons w :: (script plain t ++ statsScript plain w ts)

def separatedScript (plain : Bool) (w : Owner) : Tree → List Step
  | .list [] => [.stop .outOfRange]
  | .list (t :: ts) => script plain t ++ moreScript plain w ts
  | _ => [.stop .wrongType]

def moreScript (plain : Bool) (w : Owner) : List Tree → List Step
  | [] => []
  | t :: ts => .text w (word ",") :: (script plain t ++ moreScript plain w ts)

def fieldsScript (plain : Bool) (w : Owner) : Tree → List Step
  | .list [] => [.stop .outOfRange]
  | .list (t :: ts) => script plain t ++ moreFieldsScript plain w ts
  | _ => [.stop .wrongType]

/-- The steps for further fields of a table, each with a separator before it. -/
def moreFieldsScript (plain : Bool) (w : Owner) : List Tree → List Step
  | [] => []
  | t :: ts =>
      [.gap w, if plain then .put (word ", ") else .separator w] ++
        (script plain t ++ moreFieldsScript plain w ts)

def branchesScript (plain : Bool) (w : Owner) (short : Bool) : Tree → List Step
  | .list ts => branchList plain w short true ts
  | _ => [.stop .wrongType]

/-- The steps for branches.  The first condition has the word `if` before it, any
other `elseif`; a branch without a condition has the word `else`. -/
def branchList (plain : Bool) (w : Owner) (short first : Bool) : List Tree → List Step
  | [] => []
  | .list [.absent, block] :: rest =>
      [.text w (word "else"), .indent] ++ script plain block ++ [.dedent] ++
        branchList plain w short first rest
  | .list [condition, block] :: rest =>
      .text w (word (if first then "if" else "elseif")) ::
        ((if short then
            [.text w (word "("), .indent] ++ script plain condition ++
              [.dedent, .text w (word ")")] ++ script plain block
          else
            script plain condition ++ [.text w (word "then"), .indent] ++ script plain block ++
              [.dedent]) ++
        branchList plain w short false rest)
  | .list _ :: _ => [.stop .unfitValue]
  | _ :: _ => [.stop .wrongType]

end

end Tree
end Cartridge.Lua
