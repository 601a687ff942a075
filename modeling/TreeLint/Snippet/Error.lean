import TreeLint.Text.Quoted
import TreeLint.Tree.Builder

/-!
# Why a snippet cannot be read
-/

namespace TreeLint

/-- Why a snippet cannot be read. Offsets are in bytes. -/
inductive SnippetError where
  | unclosedComment
  | unclosedString (start : Nat)
  /-- No token begins with this character. -/
  | badCharacter (c : Char) (offset : Nat)
  | endOfText
  /-- Another token stands where a mark must be. -/
  | expectedMark (mark : Char) (offset : Nat)
  /-- Another token stands where a name must be. -/
  | expectedName (offset : Nat)
  | unknownTag (offset : Nat)
  /-- A declaration names a type that is not known. -/
  | unknownType (name : String)
  /-- No expression begins with this mark. -/
  | unexpectedMark (mark : Char) (offset : Nat)
  /-- The nodes do not form a tree. -/
  | badTree (error : TreeError)
  deriving DecidableEq, Repr

namespace SnippetError

/-- The first byte of the UTF-8 form of `c`. -/
def leadByte (c : Char) : Nat :=
  let n := c.toNat
  if n < 0x80 then n
  else if n < 0x800 then 0xC0 + n / 0x40
  else if n < 0x10000 then 0xE0 + n / 0x1000
  else 0xF0 + n / 0x40000

/-- The text shown to a user. Texts are read byte by byte, so a character outside ASCII is shown
as the code point that its first byte stands for. -/
def message : SnippetError → String
  | unclosedComment => "unterminated comment"
  | unclosedString start => s!"unterminated string at {start}"
  | badCharacter c offset =>
    s!"unexpected character {Text.quotedChar (.ofNat (leadByte c))} at {offset}"
  | endOfText => "unexpected end of input"
  | expectedMark mark offset => s!"expected {Text.quotedChar mark} at {offset}"
  | expectedName offset => s!"expected a name at {offset}"
  | unknownTag offset => s!"unknown annotation at {offset}"
  | unknownType name => s!"unknown type {name}"
  | unexpectedMark mark offset => s!"unexpected {Text.quotedChar mark} at {offset}"
  | badTree error => error.message

end SnippetError

end TreeLint
