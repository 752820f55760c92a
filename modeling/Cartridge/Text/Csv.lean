/-!
# Rows of comma-separated values
-/

namespace Cartridge.Csv

def needsQuotes (s : List Char) : Bool := s.any fun c => [',', '"', '\r', '\n'].contains c

def value (s : String) : String :=
  if needsQuotes s.toList then
    String.ofList ('"' :: s.toList.flatMap (fun c => if c = '"' then ['"', '"'] else [c]) ++ ['"'])
  else s

def row (values : List String) : String := ",".intercalate (values.map value) ++ "\r\n"

end Cartridge.Csv
