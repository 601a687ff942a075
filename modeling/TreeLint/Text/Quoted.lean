import TreeLint.Text.Printable

/-!
# Texts between quotes

How names and characters are shown in messages: between quotes, with a backslash in front of the
quote and the backslash, and with everything that cannot be shown by itself spelled out.
-/

namespace TreeLint.Text

/-- The digits of `n` in base 16, in lower case. -/
def hexDigits (n : Nat) : List Char := Nat.toDigits 16 n

/-- How a character is shown between two of the characters `mark`. -/
def showChar (mark c : Char) : List Char :=
  match c with
  | '\x00' => ['\\', '0']
  | '\t' => ['\\', 't']
  | '\n' => ['\\', 'n']
  | '\r' => ['\\', 'r']
  | '\\' => ['\\', '\\']
  | c =>
    if c = mark then ['\\', c]
    else if isPrintable c then [c]
    else ['\\', 'u', '\x7b'] ++ hexDigits c.toNat ++ ['\x7d']

/-- The text `s` between double quotes. -/
def quoted (s : String) : String := .ofList ('"' :: (s.toList.flatMap (showChar '"') ++ ['"']))

/-- The character `c` between single quotes. -/
def quotedChar (c : Char) : String := .ofList ('\'' :: (showChar '\'' c ++ ['\'']))

/-- The texts of `l` between double quotes, in brackets. -/
def quotedList (l : List String) : String := "[" ++ ", ".intercalate (l.map quoted) ++ "]"

end TreeLint.Text
