/-!
# Paths

A path is a text with slashes between its components.
-/

namespace Cartridge.Path

/-- The pieces between separators, with `current` the reversed start of the first one. -/
def piecesFrom (sep : Char) (current : List Char) : List Char → List (List Char)
  | [] => [current.reverse]
  | c :: rest =>
    if c = sep then current.reverse :: piecesFrom sep [] rest
    else piecesFrom sep (c :: current) rest

def pieces (sep : Char) (s : List Char) : List (List Char) := piecesFrom sep [] s

def components (p : List Char) : List (List Char) := pieces '/' p

def baseName (p : List Char) : List Char := (p.reverse.takeWhile (· != '/')).reverse

/-- What stands before the last slash. Slashes at its end are dropped, unless there is nothing
else. -/
def directory (p : List Char) : List Char :=
  let head := p.reverse.dropWhile (· != '/')
  if head.all (· == '/') then head else (head.dropWhile (· == '/')).reverse

def join (dir p : List Char) : List Char :=
  if p.head? = some '/' ∨ dir = [] then p
  else if dir.getLast? = some '/' then dir ++ p
  else dir ++ '/' :: p

end Cartridge.Path
