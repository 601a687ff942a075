import TreeLint.Text.Search

/-!
# Patterns of ignore files

A pattern describes paths byte by byte. A star stops at slashes; two stars, as a whole part of the
pattern, stand for any number of folders; braces hold choices, and a backslash makes the next
character stand for itself. A bracket that is never closed stands for itself, and so do those
behind it.

- `IgnorePattern.ofChars?` reads a pattern.
- `IgnorePattern.accepts` says which paths a pattern describes.
-/

namespace TreeLint

/-- A part of a pattern. -/
inductive IgnoreToken where
  | literal (c : Char)
  /-- One byte that is no slash. -/
  | anyByte
  /-- Any number of bytes that are no slashes. -/
  | anyRun
  /-- Any number of folders in front of the rest. -/
  | foldersBefore
  /-- A slash, and folders in any number, each with a slash behind it. -/
  | foldersBetween
  /-- A slash and anything behind it. -/
  | anythingBelow
  /-- A byte in one of the ranges, or in none of them. -/
  | oneOf (negated : Bool) (ranges : List (Char × Char))
  | choice (branches : List (List IgnoreToken))
  deriving Repr, Inhabited

/-- A pattern of an ignore file. -/
structure IgnorePattern where
  tokens : List IgnoreToken
  deriving Repr, Inhabited

namespace IgnorePattern

/-! ## Reading -/

/-- A pattern in the making. Lists stand newest first. -/
structure Draft where
  /-- The tokens of the innermost branch. -/
  current : List IgnoreToken := []
  /-- The finished branches of the innermost choice. -/
  branches : List (List IgnoreToken) := []
  /-- The branch around each choice that is open, with the finished branches beside it. -/
  outer : List (List IgnoreToken × List (List IgnoreToken)) := []

namespace Draft

/-- Adds the token `t`. -/
def push (d : Draft) (t : IgnoreToken) : Draft := { d with current := t :: d.current }

/-- Whether a choice is open. -/
def inChoice (d : Draft) : Bool := !d.outer.isEmpty

/-- Opens a choice. -/
def openChoice (d : Draft) : Draft := ⟨[], [], (d.current, d.branches) :: d.outer⟩

/-- Ends a branch, if `d.inChoice`; the comma stands for itself otherwise. -/
def comma (d : Draft) : Draft :=
  if d.inChoice then { d with current := [], branches := d.current.reverse :: d.branches }
  else d.push (.literal ',')

/-- Closes a choice. -/
def closeChoice? (d : Draft) : Option Draft :=
  match d.outer with
  | [] => none
  | (current, branches) :: outer =>
    some ⟨.choice (d.current.reverse :: d.branches).reverse :: current, branches, outer⟩

/-- Puts the token `t` for folders in place of the slash in front of it; `foldersBefore` at the
beginning of a branch, and `anythingBelow` at its end, stand for these, too. -/
def pushFolders (d : Draft) (t : IgnoreToken) : Draft :=
  match d.current with
  | .foldersBefore :: _ | .anythingBelow :: _ => d
  | _ :: before => { d with current := t :: before }
  | [] => d.push t

/-- Adds what two stars stand for behind the character `prev`, and gives the text behind them. -/
def stars (d : Draft) (prev : Option Char) (cs : List Char) : Draft × List Char × Char :=
  let plain := ((d.push .anyRun).push .anyRun, cs, '*')
  let opens := prev = some '/' || (d.inChoice && (prev = some ',' || prev = some '\x7b'))
  if d.current.isEmpty then
    match cs with
    | [] => (d.push .foldersBefore, [], '*')
    | '/' :: cs => (d.push .foldersBefore, cs, '/')
    | _ => plain
  else if !opens then plain
  else
    match cs with
    | [] => (d.pushFolders .anythingBelow, [], '*')
    | '/' :: cs => (d.pushFolders .foldersBetween, cs, '/')
    | c :: _ =>
      if d.inChoice && (c = ',' || c = '\x7d') then (d.pushFolders .anythingBelow, cs, '*')
      else plain

end Draft

/-- What stands behind an opening bracket. -/
inductive SetRead where
  | closed (ranges : List (Char × Char)) (rest : List Char)
  | unclosed
  /-- A range whose end comes before its start. -/
  | reversed

/-- Reads the ranges of a set, of which `ranges` were read before, newest first. `first` says
whether none was, and `inRange` whether the next character ends the newest. -/
def readSet (first inRange : Bool) (ranges : List (Char × Char)) : List Char → SetRead
  | [] => .unclosed
  | c :: cs =>
    if c = ']' && !first then
      .closed (if inRange then ('-', '-') :: ranges else ranges).reverse cs
    else if c = '-' && !first && !inRange then readSet false true ranges cs
    else
      match inRange, ranges with
      | true, (a, _) :: before =>
        if c < a then .reversed else readSet false false ((a, c) :: before) cs
      | _, _ => readSet false false ((c, c) :: ranges) cs

/-- Reads a pattern of at most `bound` characters behind the character `prev`. `plainBrackets`
says that brackets stand for themselves. -/
def read? : (bound : Nat) → (plainBrackets : Bool) → (prev : Option Char) → Draft → List Char →
    Option Draft
  | _, _, _, d, [] => some d
  | 0, _, _, _, _ => none
  | bound + 1, plain, prev, d, c :: cs =>
    match c, cs with
    | '?', cs => read? bound plain c (d.push .anyByte) cs
    | '*', '*' :: cs =>
      let (d, cs, last) := d.stars prev cs
      read? bound plain last d cs
    | '*', cs => read? bound plain c (d.push .anyRun) cs
    | '\x7b', cs => read? bound plain c d.openChoice cs
    | '\x7d', cs => do read? bound plain c (← d.closeChoice?) cs
    | ',', cs => read? bound plain c d.comma cs
    | '\\', [] => none
    | '\\', c :: cs => read? bound plain c (d.push (.literal c)) cs
    | '[', cs =>
      if plain then read? bound plain c (d.push (.literal c)) cs
      else
        let (negated, body) := match cs with
          | '!' :: body | '^' :: body => (true, body)
          | body => (false, body)
        match readSet true false [] body with
        | .closed ranges rest => read? bound plain (some ']') (d.push (.oneOf negated ranges)) rest
        | .unclosed => read? bound true c (d.push (.literal c)) cs
        | .reversed => none
    | c, cs => read? bound plain c (d.push (.literal c)) cs

/-- The pattern that the text `cs` spells; `none` if it cannot be read. -/
def ofChars? (cs : List Char) : Option IgnorePattern := do
  let d ← read? cs.length false none {} cs
  if d.inChoice then none else some ⟨d.current.reverse⟩

/-! ## Matching -/

/-- The bytes of the character `c` in UTF-8. -/
def bytesOf (c : Char) : List UInt8 := (String.singleton c).toUTF8.toList

/-- The byte of a slash. -/
def slash : UInt8 := 47

/-- The ranges of bytes in `range`, a range of characters: the bytes of its ends, with the range
from the last byte of the first to the first byte of the last. -/
def byteRanges (range : Char × Char) : List (UInt8 × UInt8) :=
  let alone (l : List UInt8) := l.map fun b => (b, b)
  if range.1 = range.2 then alone (bytesOf range.1)
  else
    match (bytesOf range.1).reverse, bytesOf range.2 with
    | a :: before, b :: behind => (a, b) :: alone (before ++ behind)
    | _, _ => []

/-- The ends of a text behind a slash. -/
def behindSlashes : List UInt8 → List (List UInt8)
  | [] => []
  | b :: bs => if b = slash then bs :: behindSlashes bs else behindSlashes bs

/-- The ends of a text that leave out bytes for which `skips` holds. -/
def endsAfter (skips : UInt8 → Bool) : List UInt8 → List (List UInt8)
  | [] => [[]]
  | b :: bs => (b :: bs) :: if skips b then endsAfter skips bs else []

mutual

/-- Whether a token describes only the empty text, whatever its form. -/
def isVoid : IgnoreToken → Bool
  | .choice branches => branchesAreVoid branches
  | _ => false

/-- Whether every token of a list `isVoid`. -/
def areVoid : List IgnoreToken → Bool
  | [] => true
  | t :: ts => isVoid t && areVoid ts

/-- Whether every branch of a choice is void. -/
def branchesAreVoid : List (List IgnoreToken) → Bool
  | [] => true
  | b :: bs => areVoid b && branchesAreVoid bs

end

mutual

/-- What may be left of a text behind a token. -/
def tokenRests : IgnoreToken → List UInt8 → List (List UInt8)
  | .literal c, text => ((bytesOf c).isPrefixOf? text).toList
  | .anyByte, text =>
    match text with
    | b :: rest => if b = slash then [] else [rest]
    | [] => []
  | .anyRun, text => endsAfter (· != slash) text
  | .foldersBefore, text => text :: behindSlashes text
  | .foldersBetween, text =>
    match text with
    | b :: rest => if b = slash then rest :: behindSlashes rest else []
    | [] => []
  | .anythingBelow, text =>
    match text with
    | b :: rest => if b = slash then endsAfter (fun _ => true) rest else []
    | [] => []
  | .oneOf negated ranges, text =>
    match text with
    | b :: rest =>
      if (ranges.flatMap byteRanges).any (fun (a, z) => a ≤ b && b ≤ z) != negated then [rest]
      else []
    | [] => []
  | .choice branches, text =>
    if branchesAreVoid branches then [text] else branchRests branches text

/-- What may be left of a text behind the tokens of a list. -/
def rests : List IgnoreToken → List UInt8 → List (List UInt8)
  | [], text => [text]
  | t :: ts, text => (tokenRests t text).flatMap (rests ts)

/-- What may be left of a text behind one of several branches. Branches that `areVoid` are no
choice. -/
def branchRests : List (List IgnoreToken) → List UInt8 → List (List UInt8)
  | [], _ => []
  | b :: bs, text => (if areVoid b then [] else rests b text) ++ branchRests bs text

end

/-- Whether the pattern `p` describes `path`. Folders alone describe everything. -/
def accepts (p : IgnorePattern) (path : String) : Bool :=
  match p.tokens with
  | [.foldersBefore] => true
  | tokens => (rests tokens path.toUTF8.toList).any List.isEmpty

end IgnorePattern

end TreeLint
