import TreeLint.Json.Value

/-!
# Printing JSON

A value is printed on one line without blanks (`Json.compact`), or with one item a line, indented
by two blanks a level (`Json.pretty`). Both print the same tokens: in a string, a quote, a
backslash and the control characters are escaped and all else stands for itself.
-/

namespace TreeLint.Json

/-! ## Scalars -/

/-- The hexadecimal digit for `n`, in lower case. -/
def hexDigit (n : Nat) : Char :=
  if n < 10 then .ofNat ('0'.toNat + n) else .ofNat ('a'.toNat + (n - 10))

/-- How the character `c` is written between quotes. -/
def escape (c : Char) : List Char :=
  match c with
  | '"' => ['\\', '"']
  | '\\' => ['\\', '\\']
  | '\x08' => ['\\', 'b']
  | '\x0c' => ['\\', 'f']
  | '\n' => ['\\', 'n']
  | '\r' => ['\\', 'r']
  | '\t' => ['\\', 't']
  | c =>
    if c < ' ' then ['\\', 'u', '0', '0', hexDigit (c.toNat / 16), hexDigit (c.toNat % 16)]
    else [c]

/-- The string `s` between quotes. -/
def quote (s : String) : List Char := '"' :: (s.toList.flatMap escape ++ ['"'])

/-- The number `n` in its digits. -/
def printNumber (n : JsonNumber) : List Char :=
  (if n.negative then ['-'] else []) ++ Nat.toDigits 10 n.whole
    ++ (if n.fraction.isEmpty then [] else '.' :: n.fraction)
    ++ (match n.exponent with
      | none => []
      | some e => 'e' :: (if e < 0 then ['-'] else []) ++ Nat.toDigits 10 e.natAbs)

/-! ## Containers -/

/-- What stands around the parts of a container that is not empty: behind the opening bracket,
between two parts, before the closing bracket, and behind a key. -/
structure Layout where
  opening : List Char
  between : List Char
  closing : List Char
  colon : List Char

/-- All on one line, without blanks. -/
def Layout.compact : Layout := ⟨[], [','], [], [':']⟩

/-- One part a line, indented below `level` enclosing containers. -/
def Layout.pretty (level : Nat) : Layout :=
  let line (depth : Nat) := '\n' :: List.replicate (2 * depth) ' '
  ⟨line (level + 1), ',' :: line (level + 1), line level, [':', ' ']⟩

/-- The `parts` between the brackets `left` and `right`, in the given `layout`. -/
def enclose (layout : Layout) (left right : Char) (parts : List (List Char)) : List Char :=
  match parts with
  | [] => [left, right]
  | parts => left :: layout.opening ++ layout.between.intercalate parts ++ layout.closing ++ [right]

mutual

/-- Prints a value inside `level` containers; `layout` gives the layout on each level. -/
def print (layout : Nat → Layout) (level : Nat) : Json → List Char
  | null => "null".toList
  | bool true => "true".toList
  | bool false => "false".toList
  | number n => printNumber n
  | string s => quote (s.getD "")
  | array items => enclose (layout level) '[' ']' (printItems layout (level + 1) items)
  | object members => enclose (layout level) '\x7b' '\x7d' (printMembers layout (level + 1) members)

/-- Prints the items of an array. -/
def printItems (layout : Nat → Layout) (level : Nat) : List Json → List (List Char)
  | [] => []
  | v :: rest => print layout level v :: printItems layout level rest

/-- Prints the members of an object, each key with its value. -/
def printMembers (layout : Nat → Layout) (level : Nat) :
    List (Option String × Json) → List (List Char)
  | [] => []
  | (k, v) :: rest =>
    (quote (k.getD "") ++ (layout (level - 1)).colon ++ print layout level v)
      :: printMembers layout level rest

end

/-- The value `v` on one line without blanks. -/
def compact (v : Json) : String := .ofList (print (fun _ => .compact) 0 v)

/-- The value `v` with one item a line, indented by two blanks a level. -/
def pretty (v : Json) : String := .ofList (print .pretty 0 v)

end TreeLint.Json
