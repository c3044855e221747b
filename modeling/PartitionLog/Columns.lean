/-!
# Columns

Texts filled up with blanks to the width of a column; a text that is wider stays as it is.
-/

namespace PartitionLog.Columns

def blanks (n : Nat) : String := String.ofList (List.replicate n ' ')

def toRight (width : Nat) (text : String) : String := blanks (width - text.length) ++ text

def toLeft (width : Nat) (text : String) : String := text ++ blanks (width - text.length)

/-- Two columns, indented; the first is as wide as its widest text. -/
def table (rows : List (String × String)) : String :=
  let width := (rows.map (·.1.length)).foldl max 0
  String.join (rows.map fun (left, right) => "  " ++ toLeft width left ++ "  " ++ right ++ "\n")

end PartitionLog.Columns
