import Cartridge.Lua.Token

/-!
# Failures

Everything that can go wrong, by cause.  The failures about a cart's contents
carry what their message needs; the others say which kind of operation could not
be carried out.
-/

namespace Cartridge

open Lua (Place Pattern)

/-- What is wrong with source that cannot be cut into tokens. -/
inductive LexicalFault where
  | unknown (rest : Bytes)
  | openString
  | openLongString
  | openComment
  deriving DecidableEq, Repr, Inhabited

def LexicalFault.message : LexicalFault → String
  | unknown rest => "Syntax error (remaining:" ++ Bytes.quoted rest ++ ")"
  | openString => "Unterminated string"
  | openLongString => "Unterminated multiline string"
  | openComment => "Unterminated multiline comment"

inductive Wanted where
  | token (pattern : Pattern)
  | phrase (description : String)
  deriving DecidableEq, Repr, Inhabited

def Wanted.message : Wanted → String
  | token p => "Expected " ++ p.noun
  | phrase d => d

/-- What is wrong with a `require` call or the file it names. -/
inductive LinkFault where
  | argumentCount (count : Nat)
  | notString
  | notTable
  | badOptions
  | badPath
  | notFound (name path : String)
  deriving DecidableEq, Repr, Inhabited

def LinkFault.message : LinkFault → String
  | argumentCount n => "require() has " ++ toString n ++ " args, should have 1 or 2"
  | notString => "require() first argument must be a string literal"
  | notTable => "require() second argument must be a table literal"
  | badOptions =>
      "Invalid require() options; did you mean \x7buse_game_loop=true\x7d ?"
  | badPath => "require() filename cannot contain \"./\" or \"../\" or start with \"/\""
  | notFound name path =>
      "require() file " ++ name ++ " not found; used load path " ++ path

inductive Failure where
  /-- Source that cannot be cut into tokens, with the line and column to report. -/
  | lexical (fault : LexicalFault) (line column : Nat)
  /-- Source that does not follow the grammar, with the place to report: the end
  of the source if there is none. -/
  | grammar (wanted : Wanted) (place : Option Place)
  | linking (fault : LinkFault) (place : Option Place)
  | badHeader
  | badSection (name : Bytes)
  | badPicture
  /-- Data that does not fit in the cart memory that can be written. -/
  | dataTooLarge (size : Nat) (start : Int)
  | fieldCount (node : String) (wanted given : Nat)
  | unsupported
  | noSuchWriter
  | outOfRange
  | unmetCondition
  /-- A value that does not fit where it should be put, or a text that cannot be
  read. -/
  | unfitValue
  | wrongType
  | missingPart
  | unknownName
  | missingKey
  /-- Bytes that are no text in the encoding they should have. -/
  | badEncoding
  | tooLarge
  | dividedByZero
  | noSuchFile
  | aDirectory
  | notADirectory
  | interrupted
  /-- A bound on the number of steps that no input reaches. -/
  | exhausted
  deriving DecidableEq, Repr, Inhabited

namespace Failure

def locate (text : String) : Option Place → String
  | none => text ++ " at end of file"
  | some p => text ++ " at line " ++ toString (p.line + 1) ++ " char " ++ toString p.column

/-- The wording of a failure, empty for those that carry none. -/
def message : Failure → String
  | lexical fault line column =>
      fault.message ++ " at line " ++ toString line ++ " char " ++ toString column
  | grammar wanted place => locate wanted.message place
  | linking fault place => locate fault.message place
  | badHeader => "Invalid .p8: missing or corrupt header"
  | badSection name => "Invalid .p8: bad section delimiter '" ++ Bytes.toText name ++ "'"
  | dataTooLarge size start =>
      "Data too large: " ++ toString size ++ " bytes starting at " ++ toString start ++
        " exceeds 0x4300"
  | fieldCount node wanted given =>
      "Initializer for " ++ node ++ " requires " ++ toString wanted ++ " fields, saw " ++
        toString given
  | unsupported => "--optimize_tokens not yet implemented, sorry"
  | _ => ""

def isBadCart : Failure → Bool
  | lexical .. | grammar .. | linking .. | badHeader | badSection _ | badPicture => true
  | _ => false

end Failure
end Cartridge
