import Cartridge.Numeral.Integer

/-!
# Command-line arguments

Arguments are options, which start with a dash, and words. A long option may be shortened as long as
it stays clear which one is meant, and its value may follow an equals sign. After two dashes there
are only words. Words are given to the slots of a usage from the left, in runs between options; a
run fills as many slots as it can.
-/

namespace Cartridge.Command

inductive Taking where
  | nothing
  | value
  | number
deriving DecidableEq, Repr, Inhabited

structure Flag where
  name : String
  short : Option String := none
  taking : Taking := .nothing
deriving DecidableEq, Repr, Inhabited

inductive Slot where
  | one
  | optional
  | several
  | command
deriving DecidableEq, Repr, Inhabited

structure Usage where
  flags : List Flag := []
  slots : List Slot := []
deriving DecidableEq, Repr, Inhabited

/-- Why there is nothing to carry out. -/
inductive Refusal where
  | help
  | misuse
deriving DecidableEq, Repr, Inhabited

structure Parsed where
  options : List (String × String) := []
  words : List (List String) := []
  unknown : List String := []
deriving DecidableEq, Repr, Inhabited

inductive Shape where
  | word
  | dashes
  /-- An option by the name it is called, with a value if that is part of it. -/
  | option (flag : Flag) (called : String) (value : Option String)
  | unknown
deriving DecidableEq, Repr, Inhabited

def helpFlag : Flag := { name := "--help", short := some "-h" }

namespace Usage

def allFlags (u : Usage) : List Flag := helpFlag :: u.flags

def names (u : Usage) : List (String × Flag) :=
  u.allFlags.flatMap fun f => (f.short.toList ++ [f.name]).map fun n => (n, f)

def flag? (u : Usage) (name : String) : Option Flag :=
  (u.names.find? fun p => p.1 == name).map (·.2)

end Usage

def cutValue (s : String) : String × Option String :=
  let cs := s.toList
  let name := cs.takeWhile (· != '=')
  match cs.dropWhile (· != '=') with
  | [] => (s, none)
  | _ :: value => (String.ofList name, some (String.ofList value))

def Usage.meant (u : Usage) (arg : String) : List Shape :=
  match arg.toList with
  | '-' :: '-' :: _ =>
    let (start, value) := cutValue arg
    (u.names.filter fun p => start.toList.isPrefixOf p.1.toList).map fun p => .option p.2 p.1 value
  | '-' :: c :: rest =>
    u.names.filterMap fun p =>
      if p.1 = String.ofList ['-', c] then some (.option p.2 p.1 (some (String.ofList rest)))
      else if arg.toList.isPrefixOf p.1.toList then some (.option p.2 p.1 none)
      else none
  | _ => []

def isNegative (arg : List Char) : Bool :=
  match arg with
  | '-' :: rest =>
    let digits := rest.takeWhile Char.isDigit
    match rest.dropWhile Char.isDigit with
    | [] => !digits.isEmpty
    | '.' :: more => !more.isEmpty && more.all Char.isDigit
    | _ => false
  | _ => false

def Usage.shape (u : Usage) (arg : String) : Except Refusal Shape :=
  if arg.toList.head? ≠ some '-' then .ok .word
  else
    match u.flag? arg with
    | some f => .ok (.option f arg none)
    | none =>
      if arg = "-" then .ok .word
      else
        let (name, value) := cutValue arg
        match value, u.flag? name with
        | some v, some f =>
          -- an option that takes nothing keeps the equals sign, which no option is named by
          .ok (.option f name (some (if f.taking = .nothing then "=" ++ v else v)))
        | _, _ =>
          match u.meant arg with
          | [s] => .ok s
          | _ :: _ :: _ => .error .misuse
          | [] =>
            if isNegative arg.toList || arg.toList.contains ' ' then .ok .word else .ok .unknown

def Usage.shapes (u : Usage) : List String → Except Refusal (List (Shape × String))
  | [] => .ok []
  | "--" :: rest => .ok ((.dashes, "--") :: rest.map fun a => (.word, a))
  | a :: rest => do
    let s ← u.shape a
    return (s, a) :: (← u.shapes rest)

def Shape.isOption : Shape → Bool
  | word | dashes => false
  | _ => true

def leadingDashes (rest : List (Shape × String)) : Nat :=
  (rest.takeWhile fun a => a.1 == .dashes).length

def Slot.count (p : Slot) (rest : List (Shape × String)) : Option Nat :=
  let n := leadingDashes rest
  let behind := rest.drop n
  let isWord := (behind.head?.map (·.1)) == some Shape.word
  let tail := behind.drop 1
  match p with
  | one => if isWord then some (n + 1 + leadingDashes tail) else none
  | optional => some (if isWord then n + 1 + leadingDashes tail else n)
  | several => if isWord then some (n + 1 + (tail.takeWhile fun a => !a.1.isOption).length) else none
  | command => if isWord then some rest.length else none

def Slot.values (p : Slot) (taken : List (Shape × String)) : List String :=
  let args := taken.map (·.2)
  if p = .command then args else args.erase "--"

/-- Fills as many slots as can be filled. The slots that are left and the arguments that are left
are returned too. -/
def fill : List Slot → List (Shape × String) → List (List String) × List Slot × List (Shape × String)
  | [], rest => ([], [], rest)
  | p :: slots, rest =>
    match p.count rest with
    | none => ([], p :: slots, rest)
    | some n =>
      let (words, left, rest') := fill slots (rest.drop n)
      (p.values (rest.take n) :: words, left, rest')

/-- How far arguments were read. -/
structure Reading where
  parsed : Parsed := {}
  slots : List Slot

def isWhole (s : String) : Bool :=
  s.toList.all (fun c => c.toNat < 128) && (Numeral.integer? 10 0 (Bytes.ofText s)).isSome

def Reading.note (r : Reading) (f : Flag) (value : String) : Except Refusal Reading :=
  if f = helpFlag then .error .help
  else if f.taking = .number ∧ !isWhole value then .error .misuse
  else .ok { r with parsed := { r.parsed with options := r.parsed.options ++ [(f.name, value)] } }

def Reading.noteAll (r : Reading) (fs : List Flag) : Except Refusal Reading :=
  fs.foldlM (fun r f => r.note f "") r

/-- Notes short options without values that are written together: those in `noted` and the ones
that follow. What follows the last known one is an unknown option. -/
def Reading.noteTogether (u : Usage) (r : Reading) (noted : List Flag) :
    List Char → Except Refusal Reading
  | [] => r.noteAll noted
  | c :: more =>
    if c = '=' ∨ c = '-' then .error .misuse
    else
      match u.flag? (String.ofList ['-', c]) with
      | none => do
        let r ← r.noteAll noted
        return { r with parsed :=
          { r.parsed with unknown := r.parsed.unknown ++ [String.ofList ('-' :: c :: more)] } }
      | some f => noteTogether u r (noted ++ [f]) more

/-- Notes the option at the front of the arguments. What is left of the arguments is returned
too. -/
def Reading.takeOption (u : Usage) (r : Reading) :
    List (Shape × String) → Except Refusal (Reading × List (Shape × String))
  | (.option f called (some value), _) :: rest =>
    if f.taking ≠ .nothing then return (← r.note f value, rest)
    else if (called.toList.drop 1).head? = some '-' ∨ value = "" then .error .misuse
    else return (← r.noteTogether u [f] value.toList, rest)
  | (.option f _ none, _) :: rest =>
    if f.taking = .nothing then return (← r.note f "", rest)
    else
      match rest with
      | (.word, v) :: rest => return (← r.note f v, rest)
      | _ => .error .misuse
  | (_, a) :: rest =>
    .ok ({ r with parsed := { r.parsed with unknown := r.parsed.unknown ++ [a] } }, rest)
  | [] => .ok (r, [])

def Reading.takeWords (r : Reading) (rest : List (Shape × String)) :
    Reading × List (Shape × String) :=
  let (words, left, rest) := fill r.slots rest
  ({ parsed := { r.parsed with words := r.parsed.words ++ words }, slots := left }, rest)

def Reading.skip (r : Reading) (args : List (Shape × String)) : Reading :=
  { r with parsed := { r.parsed with unknown := r.parsed.unknown ++ args.map (·.2) } }

/-- Reads arguments in at most as many rounds as the first argument says: each takes some words or
an option. -/
def Usage.readFrom (u : Usage) : Nat → Reading → List (Shape × String) → Except Refusal Reading
  | 0, r, rest => .ok (r.skip rest)
  | n + 1, r, rest =>
    if rest.any fun a => a.1.isOption then
      let (r', rest') := if (rest.head?.map fun a => a.1.isOption) == some true then (r, rest)
        else r.takeWords rest
      if rest'.length < rest.length then u.readFrom n r' rest'
      else do
        let r' := r'.skip (rest'.takeWhile fun a => !a.1.isOption)
        let (r', rest') ← r'.takeOption u (rest'.dropWhile fun a => !a.1.isOption)
        u.readFrom n r' rest'
    else
      let (r, rest) := r.takeWords rest
      .ok (r.skip rest)

def Slot.isNeeded : Slot → Bool
  | one | several => true
  | optional | command => false

def Usage.parse (u : Usage) (args : List String) : Except Refusal Parsed := do
  let shapes ← u.shapes args
  let r ← u.readFrom (shapes.length + 1) { slots := u.slots } shapes
  if r.slots.any Slot.isNeeded then .error .misuse else .ok r.parsed

namespace Parsed

def has (p : Parsed) (name : String) : Bool := p.options.any fun o => o.1 == name

def value? (p : Parsed) (name : String) : Option String :=
  (p.options.reverse.find? fun o => o.1 == name).map (·.2)

def wordsAt (p : Parsed) (i : Nat) : List String := p.words.getD i []

end Parsed

end Cartridge.Command
