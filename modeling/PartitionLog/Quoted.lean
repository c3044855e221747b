import PartitionLog.Quoted.Escaped

/-!
# Quoted texts

A text in quotes, in which quotes, backslashes and the characters that do not show as themselves
are escaped, and the text of a value that may be missing.
-/

namespace PartitionLog.Quoted

/-- A character by its number. -/
def byNumber (c : Char) : List Char := ['\\', 'u', '\x7b'] ++ Nat.toDigits 16 c.toNat ++ ['\x7d']

def escape (c : Char) : List Char :=
  match c with
  | '"' => ['\\', '"']
  | '\\' => ['\\', '\\']
  | '\n' => ['\\', 'n']
  | '\t' => ['\\', 't']
  | '\r' => ['\\', 'r']
  | '\x00' => ['\\', '0']
  | c => if isEscaped c then byNumber c else [c]

def text (t : String) : String := String.ofList ('"' :: t.toList.flatMap escape ++ ['"'])

/-- A value that may be missing, given its text. -/
def optional : Option String → String
  | none => "None"
  | some t => String.join ["Some(", t, ")"]

end PartitionLog.Quoted
