import Cartridge.Disk

/-!
# Where required files are looked for

A load path is a list of patterns with semicolons between them. The name of a required file is put
for every question mark of a pattern, and the result is seen from the directory of the file that
requires it. The first file that is there is taken.
-/

namespace Cartridge.Linking

/-- A load path: the one asked for, or else that of the environment, or else the standard one. -/
structure LoadPath where
  asked : Option String := none
  environment : Option String := none
deriving DecidableEq, Repr, Inhabited

namespace LoadPath

/-- The standard load path: the name itself, and the name with the ending of program files. -/
def standard : String := "?;?.lua"

def text (l : LoadPath) : String := (l.asked <|> l.environment).getD standard

def patterns (l : LoadPath) : List (List Char) := Path.pieces ';' l.text.toList

/-- A pattern with a name put for every question mark. -/
def fill (name pattern : List Char) : List Char :=
  pattern.flatMap fun c => if c = '?' then name else [c]

def candidates (l : LoadPath) (name file : List Char) : List (List Char) :=
  l.patterns.map fun p => Path.join (Path.directory file) (fill name p)

def locate (l : LoadPath) (d : Disk) (name file : List Char) : Option (List Char) :=
  (l.candidates name file).find? d.isFile

end LoadPath

end Cartridge.Linking
