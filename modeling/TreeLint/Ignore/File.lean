import TreeLint.Ignore.Pattern
import TreeLint.Text.Offset

/-!
# Ignore files

An ignore file holds one pattern a line. The last line that describes a path decides: a line with
an exclamation mark keeps what lines before it ignore. A pattern without a slash describes names
in any folder, and one with a slash at its end describes folders only.

- `IgnoreRule.ofLine` reads a line.
- `IgnoreFile.keeps?` says what a file decides about a path.
-/

namespace TreeLint

/-- A line of an ignore file. -/
structure IgnoreRule where
  pattern : IgnorePattern
  /-- Whether the line keeps what it describes. -/
  keeps : Bool := false
  foldersOnly : Bool := false
  deriving Repr, Inhabited

/-- What a line of an ignore file holds. -/
inductive IgnoreLine where
  /-- A comment or nothing. -/
  | empty
  /-- A pattern that cannot be read. -/
  | faulty
  | rule (rule : IgnoreRule)

namespace IgnoreRule

/-- The `text` without the slash at its end, which may be escaped, and whether there was one. -/
def cutSlash (text : List Char) : List Char × Bool :=
  match text.reverse with
  | '/' :: '\\' :: before => (before.reverse, true)
  | '/' :: before => (before.reverse, true)
  | _ => (text, false)

/-- The pattern of a line, for paths that begin in the folder of the file. `anchored` says that a
slash stood in front of the text. -/
def fullPattern (anchored : Bool) (text : List Char) : List Char :=
  let text :=
    if anchored || text.contains '/' || text = ['*', '*'] then text else ['*', '*', '/'] ++ text
  if ['/', '*', '*'].isSuffixOf text then text ++ ['/', '*'] else text

/-- Reads `line`, which has no line break. -/
def ofLine (line : List Char) : IgnoreLine :=
  let text := if ['\\', ' '].isSuffixOf line then line else Text.dropEndWhile Text.isBlank line
  if line.head? = some '#' || text.isEmpty then .empty
  else
    let (keeps, anchored, text) := match text with
      | '\\' :: '!' :: rest => (false, false, '!' :: rest)
      | '\\' :: '#' :: rest => (false, false, '#' :: rest)
      | '!' :: '/' :: rest => (true, true, rest)
      | '!' :: rest => (true, false, rest)
      | '/' :: rest => (false, true, rest)
      | text => (false, false, text)
    let (text, foldersOnly) := cutSlash text
    match IgnorePattern.ofChars? (fullPattern anchored text) with
    | some pattern => .rule { pattern, keeps, foldersOnly }
    | none => .faulty

end IgnoreRule

/-- The lines of an ignore file. -/
structure IgnoreFile where
  rules : List IgnoreRule := []
  /-- Whether some line cannot be read. -/
  isFaulty : Bool := false
  deriving Repr, Inhabited

namespace IgnoreFile

/-- The parts of `bytes` between line feeds, without a carriage return at their ends. A line feed at
the end begins no further line. -/
def lines (bytes : List UInt8) : List (List UInt8) :=
  let parts := bytes.splitOnP (· == 10)
  let parts := if parts.getLast? = some [] then parts.dropLast else parts
  parts.map fun line => if line.getLast? = some 13 then line.dropLast else line

/-- The text of the lines up to the first that is not text. -/
def textLines : List (List UInt8) → List (List Char)
  | [] => []
  | line :: rest =>
    match String.fromUTF8? ⟨line.toArray⟩ with
    | some text => text.toList :: textLines rest
    | none => []

/-- Reads an ignore file from its `content`; a mark of the byte order in front of it is passed
over. -/
def ofBytes (content : ByteArray) : IgnoreFile :=
  let text := match textLines (lines content.toList) with
    | [] => []
    | first :: rest => first.dropWhile (· == '\ufeff') :: rest
  let read := text.map IgnoreRule.ofLine
  { rules := read.filterMap fun
      | .rule r => some r
      | _ => none
    isFaulty := read.any fun
      | .faulty => true
      | _ => false }

/-- What `file` decides about `path`, which begins in its folder: to keep it (`some true`), to
ignore it (`some false`), or nothing. -/
def keeps? (file : IgnoreFile) (path : String) (isFolder : Bool) : Option Bool :=
  (file.rules.reverse.find? fun r => (!r.foldersOnly || isFolder) && r.pattern.accepts path).map
    IgnoreRule.keeps

end IgnoreFile

end TreeLint
