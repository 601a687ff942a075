import TreeLint.Json.Token

/-!
# Strings in TOML

A string stands between quotes, in which escapes count, or between apostrophes, in which nothing
does. Three marks enclose a string of several lines: a line break right behind the opening is
dropped, every line break becomes a line feed, and up to two marks may stand right before the
closing. Between quotes, a backslash at the end of a line drops the blanks and line breaks behind
it.

Every reader here starts behind the opening marks and gives the text and what is behind the
closing marks.
-/

namespace TreeLint.Toml

/-- The blanks within a line. -/
def isBlank (c : Char) : Bool := c == ' ' || c == '\t'

/-- The text `cs` without the blanks in front. -/
def skipBlanks (cs : List Char) : List Char := cs.dropWhile isBlank

/-- Whether `c` may stand in a line: all but the control characters, except the tab. -/
def isLineChar (c : Char) : Bool := c == '\t' || (' ' ≤ c && c != '\x7f')

/-- The text behind a line break. -/
def newline? : List Char → Option (List Char)
  | '\n' :: cs => some cs
  | '\r' :: '\n' :: cs => some cs
  | _ => none

/-- The character that the hexadecimal `digits` stand for. -/
def escaped? (digits : List Char) : Option Char := do
  let values ← digits.mapM JsonToken.hexValue?
  let n := values.foldl (fun n v => 16 * n + v) 0
  if n.isValidChar then some (.ofNat n) else none

/-- The character that a one-letter escape stands for. -/
def shortEscape? : Char → Option Char
  | 'b' => some '\x08'
  | 't' => some '\t'
  | 'n' => some '\n'
  | 'f' => some '\x0c'
  | 'r' => some '\r'
  | '"' => some '"'
  | '\\' => some '\\'
  | _ => none

/-- The text of `p` with the character `c` in front, if there are both. -/
def after (c : Option Char) (p : Option (List Char × List Char)) : Option (List Char × List Char) :=
  match c, p with
  | some c, some (text, rest) => some (c :: text, rest)
  | _, _ => none

/-- Reads a string between quotes on one line. -/
def quoted? : List Char → Option (List Char × List Char)
  | [] => none
  | '"' :: cs => some ([], cs)
  | '\\' :: 'u' :: a :: b :: c :: d :: cs => after (escaped? [a, b, c, d]) (quoted? cs)
  | '\\' :: 'U' :: a :: b :: c :: d :: e :: f :: g :: h :: cs =>
    after (escaped? [a, b, c, d, e, f, g, h]) (quoted? cs)
  | '\\' :: c :: cs => after (shortEscape? c) (quoted? cs)
  | c :: cs => if isLineChar c then after c (quoted? cs) else none

/-- Reads a string between quotes on several lines. While `skipping`, blanks and line breaks are
dropped. -/
def quotedLines? (skipping : Bool) : List Char → Option (List Char × List Char)
  | [] => none
  | '"' :: '"' :: '"' :: '"' :: '"' :: cs => some (['"', '"'], cs)
  | '"' :: '"' :: '"' :: '"' :: cs => some (['"'], cs)
  | '"' :: '"' :: '"' :: cs => some ([], cs)
  | '\r' :: '\n' :: cs =>
    if skipping then quotedLines? true cs else after '\n' (quotedLines? false cs)
  | '\n' :: cs => if skipping then quotedLines? true cs else after '\n' (quotedLines? false cs)
  | '\\' :: 'u' :: a :: b :: c :: d :: cs =>
    after (escaped? [a, b, c, d]) (quotedLines? false cs)
  | '\\' :: 'U' :: a :: b :: c :: d :: e :: f :: g :: h :: cs =>
    after (escaped? [a, b, c, d, e, f, g, h]) (quotedLines? false cs)
  | '\\' :: c :: cs =>
    if (newline? (skipBlanks (c :: cs))).isSome then quotedLines? true (c :: cs)
    else after (shortEscape? c) (quotedLines? false cs)
  | c :: cs =>
    if skipping && isBlank c then quotedLines? true cs
    else if isLineChar c then after c (quotedLines? false cs)
    else none

/-- Reads a string between apostrophes on one line. -/
def literal? : List Char → Option (List Char × List Char)
  | [] => none
  | '\'' :: cs => some ([], cs)
  | c :: cs => if isLineChar c then after c (literal? cs) else none

/-- Reads a string between apostrophes on several lines. -/
def literalLines? : List Char → Option (List Char × List Char)
  | [] => none
  | '\'' :: '\'' :: '\'' :: '\'' :: '\'' :: cs => some (['\'', '\''], cs)
  | '\'' :: '\'' :: '\'' :: '\'' :: cs => some (['\''], cs)
  | '\'' :: '\'' :: '\'' :: cs => some ([], cs)
  | '\r' :: '\n' :: cs => after '\n' (literalLines? cs)
  | '\n' :: cs => after '\n' (literalLines? cs)
  | c :: cs => if isLineChar c then after c (literalLines? cs) else none

/-- The text `cs` without a line break in front. -/
def dropNewline (cs : List Char) : List Char := (newline? cs).getD cs

end TreeLint.Toml
