import Cartridge.Failure

/-!
# Syntax trees

A node has a kind and one child for each field of the kind.  A child is a node, a
token, a list, a bare name (of a label), a truth value or nothing at all.  Nodes
made by the grammar remember the span of tokens they were made from; nodes made
by hand have none.
-/

namespace Cartridge.Lua

inductive Field where
  | stats | varlist | assignop | explist | functioncall | block | exp | expBlockPairs | name
  | expInit | expEnd | expStep | namelist | funcname | funcbody | label | namepath | methodname
  | vars | expPrefix | expIndex | attrName | names | exps | value | exp1 | binop | exp2 | unop
  | args | parlist | dots | fields | keyExp | keyName
  deriving DecidableEq, Repr, Inhabited

def Field.title : Field → String
  | stats => "stats"
  | varlist => "varlist"
  | assignop => "assignop"
  | explist => "explist"
  | functioncall => "functioncall"
  | block => "block"
  | exp => "exp"
  | expBlockPairs => "exp_block_pairs"
  | name => "name"
  | expInit => "exp_init"
  | expEnd => "exp_end"
  | expStep => "exp_step"
  | namelist => "namelist"
  | funcname => "funcname"
  | funcbody => "funcbody"
  | label => "label"
  | namepath => "namepath"
  | methodname => "methodname"
  | vars => "vars"
  | expPrefix => "exp_prefix"
  | expIndex => "exp_index"
  | attrName => "attr_name"
  | names => "names"
  | exps => "exps"
  | value => "value"
  | exp1 => "exp1"
  | binop => "binop"
  | exp2 => "exp2"
  | unop => "unop"
  | args => "args"
  | parlist => "parlist"
  | dots => "dots"
  | fields => "fields"
  | keyExp => "key_exp"
  | keyName => "key_name"

inductive NodeKind where
  | chunk
  | statAssignment
  | statFunctionCall
  | statDo
  | statWhile
  | statRepeat
  /-- A conditional: a list of pairs of a condition and a block. -/
  | statIf
  /-- A counting loop: name, start, end, step if given, block. -/
  | statForStep
  | statForIn
  | statFunction
  | statLocalFunction
  | statLocalAssignment
  | statGoto
  | statLabel
  | statBreak
  | statReturn
  /-- The name of a function: its path, and a method name if given. -/
  | functionName
  | functionArgs
  | varList
  | varName
  | varIndex
  | varAttribute
  | nameList
  | expList
  | expValue
  | varargDots
  | expBinOp
  | expUnOp
  | functionCall
  /-- A method call: the object, the method, and arguments. -/
  | functionCallMethod
  | function
  | functionBody
  | tableConstructor
  | fieldExpKey
  | fieldNamedKey
  | fieldExp
  deriving DecidableEq, Repr, Inhabited

namespace NodeKind

def all : List NodeKind :=
  [chunk, statAssignment, statFunctionCall, statDo, statWhile, statRepeat, statIf, statForStep,
    statForIn, statFunction, statLocalFunction, statLocalAssignment, statGoto, statLabel,
    statBreak, statReturn, functionName, functionArgs, varList, varName, varIndex, varAttribute,
    nameList, expList, expValue, varargDots, expBinOp, expUnOp, functionCall, functionCallMethod,
    function, functionBody, tableConstructor, fieldExpKey, fieldNamedKey, fieldExp]

def title : NodeKind → String
  | chunk => "Chunk"
  | statAssignment => "StatAssignment"
  | statFunctionCall => "StatFunctionCall"
  | statDo => "StatDo"
  | statWhile => "StatWhile"
  | statRepeat => "StatRepeat"
  | statIf => "StatIf"
  | statForStep => "StatForStep"
  | statForIn => "StatForIn"
  | statFunction => "StatFunction"
  | statLocalFunction => "StatLocalFunction"
  | statLocalAssignment => "StatLocalAssignment"
  | statGoto => "StatGoto"
  | statLabel => "StatLabel"
  | statBreak => "StatBreak"
  | statReturn => "StatReturn"
  | functionName => "FunctionName"
  | functionArgs => "FunctionArgs"
  | varList => "VarList"
  | varName => "VarName"
  | varIndex => "VarIndex"
  | varAttribute => "VarAttribute"
  | nameList => "NameList"
  | expList => "ExpList"
  | expValue => "ExpValue"
  | varargDots => "VarargDots"
  | expBinOp => "ExpBinOp"
  | expUnOp => "ExpUnOp"
  | functionCall => "FunctionCall"
  | functionCallMethod => "FunctionCallMethod"
  | function => "Function"
  | functionBody => "FunctionBody"
  | tableConstructor => "TableConstructor"
  | fieldExpKey => "FieldExpKey"
  | fieldNamedKey => "FieldNamedKey"
  | fieldExp => "FieldExp"

def ofTitle? (s : String) : Option NodeKind := all.find? fun k => k.title == s

def fields : NodeKind → List Field
  | chunk => [.stats]
  | statAssignment => [.varlist, .assignop, .explist]
  | statFunctionCall => [.functioncall]
  | statDo => [.block]
  | statWhile => [.exp, .block]
  | statRepeat => [.block, .exp]
  | statIf => [.expBlockPairs]
  | statForStep => [.name, .expInit, .expEnd, .expStep, .block]
  | statForIn => [.namelist, .explist, .block]
  | statFunction => [.funcname, .funcbody]
  | statLocalFunction => [.funcname, .funcbody]
  | statLocalAssignment => [.namelist, .explist]
  | statGoto => [.label]
  | statLabel => [.label]
  | statBreak => []
  | statReturn => [.explist]
  | functionName => [.namepath, .methodname]
  | functionArgs => [.explist]
  | varList => [.vars]
  | varName => [.name]
  | varIndex => [.expPrefix, .expIndex]
  | varAttribute => [.expPrefix, .attrName]
  | nameList => [.names]
  | expList => [.exps]
  | expValue => [.value]
  | varargDots => []
  | expBinOp => [.exp1, .binop, .exp2]
  | expUnOp => [.unop, .exp]
  | functionCall => [.expPrefix, .args]
  | functionCallMethod => [.expPrefix, .methodname, .args]
  | function => [.funcbody]
  | functionBody => [.parlist, .dots, .block]
  | tableConstructor => [.fields]
  | fieldExpKey => [.keyExp, .exp]
  | fieldNamedKey => [.keyName, .exp]
  | fieldExp => [.exp]

def arrange {α : Type} (k : NodeKind) (values : List α) : Except Failure (List (Field × α)) :=
  if values.length = k.fields.length then .ok (k.fields.zip values)
  else .error (.fieldCount k.title k.fields.length values.length)

end NodeKind

/-- A range of tokens, from `start` up to `stop`. -/
structure Span where
  start : Nat
  stop : Nat
  deriving DecidableEq, Repr, Inhabited

/-- What a node remembers of its source. -/
structure Origin where
  span : Option Span := none
  short : Bool := false
  deriving DecidableEq, Repr, Inhabited

inductive Tree where
  /-- A node: its kind, its fields in order, and its source. -/
  | node (kind : NodeKind) (fields : List Tree) (origin : Origin)
  | token (t : Token)
  | list (items : List Tree)
  | label (name : Bytes)
  | truth (b : Bool)
  | absent
  deriving Repr, Inhabited

namespace Tree

def made (kind : NodeKind) (fields : List Tree) (start stop : Nat) : Tree :=
  .node kind fields { span := some ⟨start, stop⟩ }

def fresh (kind : NodeKind) (fields : List Tree) : Tree := .node kind fields {}

def ofOption : Option Tree → Tree
  | some t => t
  | none => .absent

def ofToken? : Option Token → Tree
  | some t => .token t
  | none => .absent

def isA (k : NodeKind) : Tree → Bool
  | .node k' _ _ => k' == k
  | _ => false

def isNode : Tree → Bool
  | .node .. => true
  | _ => false

def isAbsent : Tree → Bool
  | .absent => true
  | _ => false

def field (f : Field) : Tree → Except Failure Tree
  | .node k fs _ =>
      match (k.fields.zip fs).find? fun p => p.1 == f with
      | some p => .ok p.2
      | none => .error .missingPart
  | _ => .error .missingPart

def setField (t : Tree) (f : Field) (new : Tree) : Tree :=
  match t with
  | .node k fs o => .node k ((k.fields.zip fs).map fun p => if p.1 == f then new else p.2) o
  | t => t

def items : Tree → Except Failure (List Tree)
  | .list ts => .ok ts
  | _ => .error .wrongType

def stop? : Tree → Option Nat
  | .node _ _ o => o.span.map (·.stop)
  | _ => none

def start? : Tree → Option Nat
  | .node _ _ o => o.span.map (·.start)
  | _ => none

end Tree

/-- What a tree holds besides nodes and lists. -/
inductive Leaf where
  | token (t : Token)
  | byte (c : UInt8)
  | truth (b : Bool)
  | absent
  deriving DecidableEq, Repr, Inhabited

namespace Tree

mutual

def leaves : Tree → List Leaf
  | .node _ fs _ => leavesOf fs
  | .list ts => leavesOf ts
  | .token t => [.token t]
  | .label b => b.map .byte
  | .truth b => [.truth b]
  | .absent => [.absent]

def leavesOf : List Tree → List Leaf
  | [] => []
  | t :: ts => t.leaves ++ leavesOf ts

end

end Tree
end Cartridge.Lua
