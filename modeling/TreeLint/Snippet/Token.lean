import TreeLint.Snippet.Error
import TreeLint.Text.Search

/-!
# Tokens of a snippet

A snippet is cut into lexemes: tokens, and the blanks and comments between them. A comment runs
from two slashes to the end of the line, or from `/*` to the next `*/`.

- `Lexeme.next` takes the lexeme in front of a text that is not empty.
- `SnippetToken.scan` lists the tokens of a text with their places.
- `Lexeme.append_of_next`: a lexeme and the rest are the text, and a lexeme is never empty.
-/

namespace TreeLint

/-- What a token is. -/
inductive TokenKind where
  /-- A letter or underscore with the letters, digits and underscores behind it, all ASCII. -/
  | name
  /-- A text between quotes. -/
  | string
  /-- A run of digits. -/
  | number
  /-- A character that stands for itself. -/
  | mark (c : Char)
  deriving DecidableEq, Repr, Inhabited

/-- A token of a snippet. -/
structure SnippetToken where
  kind : TokenKind
  span : Span
  /-- The token as it is written. -/
  text : String
  deriving DecidableEq, Repr, Inhabited

/-- What a lexeme is: a token, or something between tokens. -/
inductive LexemeKind where
  | blank
  | comment
  | token (kind : TokenKind)
  deriving DecidableEq, Repr, Inhabited

namespace Lexeme

/-! ## Classes of characters -/

/-- The blanks between tokens: space, tab, line feed, form feed and carriage return. -/
def isBlank (c : Char) : Bool :=
  c == ' ' || c == '\t' || c == '\n' || c == '\x0c' || c == '\r'

/-- Whether a name may begin with `c`. -/
def isNameStart (c : Char) : Bool := c.isAlpha || c == '_'

/-- Whether a name may go on with `c`. -/
def isNameRest (c : Char) : Bool := c.isAlphanum || c == '_'

/-- The marks of the language. -/
def marks : List Char := ['(', ')', '\x7b', '\x7d', ';', '.', ',', '=', '@']

/-! ## Lexemes -/

/-- The text up to and with the first quote that no backslash escapes, and the text behind it. -/
def closeString? : List Char → Option (List Char × List Char)
  | [] => none
  | '"' :: cs => some (['"'], cs)
  | '\\' :: c :: cs => (closeString? cs).map fun (body, rest) => ('\\' :: c :: body, rest)
  | c :: cs => (closeString? cs).map fun (body, rest) => (c :: body, rest)

/-- The text up to and with the first `*/`, and the text behind it. -/
def closeComment? (cs : List Char) : Option (List Char × List Char) :=
  (Text.cutAt? ['*', '/'] cs).map fun (body, rest) => (body ++ ['*', '/'], rest)

/-- The longest run in front of a text of characters for which `holds`, and the rest. -/
def run (holds : Char → Bool) (cs : List Char) : List Char × List Char :=
  (cs.takeWhile holds, cs.dropWhile holds)

/-- The lexeme that begins with the character `c` in front of `cs`: what it is, its characters and
the text behind it. `offset` is the place of `c`. -/
def next (offset : Nat) (c : Char) (cs : List Char) :
    Except SnippetError (LexemeKind × List Char × List Char) :=
  if isBlank c then .ok (.blank, [c], cs)
  else if c = '/' ∧ cs.head? = some '/' then
    let (body, rest) := run (· ≠ '\n') cs
    .ok (.comment, c :: body, rest)
  else if c = '/' ∧ cs.head? = some '*' then
    match closeComment? cs.tail with
    | some (body, rest) => .ok (.comment, c :: '*' :: body, rest)
    | none => .error .unclosedComment
  else if isNameStart c then
    let (body, rest) := run isNameRest cs
    .ok (.token .name, c :: body, rest)
  else if c.isDigit then
    let (body, rest) := run Char.isDigit cs
    .ok (.token .number, c :: body, rest)
  else if c = '"' then
    match closeString? cs with
    | some (body, rest) => .ok (.token .string, c :: body, rest)
    | none => .error (.unclosedString offset)
  else if c ∈ marks then .ok (.token (.mark c), [c], cs)
  else .error (.badCharacter c offset)

/-! ## Lexemes cover the text -/

theorem append_of_closeString? {cs body rest : List Char}
    (h : closeString? cs = some (body, rest)) : body ++ rest = cs := by
  fun_induction closeString? cs generalizing body rest with
  | case1 => simp at h
  | case2 cs =>
    obtain ⟨rfl, rfl⟩ := Prod.mk.inj (Option.some.inj h)
    rfl
  | case3 c cs ih | case4 c cs _ _ ih =>
    obtain ⟨p, hp, he⟩ := Option.map_eq_some_iff.1 h
    obtain ⟨rfl, rfl⟩ := Prod.mk.inj he
    simp [ih hp]

theorem append_of_closeComment? {cs body rest : List Char}
    (h : closeComment? cs = some (body, rest)) : body ++ rest = cs := by
  obtain ⟨p, hp, he⟩ := Option.map_eq_some_iff.1 h
  obtain ⟨rfl, rfl⟩ := Prod.mk.inj he
  simpa using Text.append_of_cutAt? hp

theorem append_of_run {holds : Char → Bool} {cs body rest : List Char}
    (h : run holds cs = (body, rest)) : body ++ rest = cs := by
  obtain ⟨rfl, rfl⟩ := Prod.mk.inj h
  exact List.takeWhile_append_dropWhile

/-- A `lexeme` begins with the character `c` in front, and it and the text `rest` behind it are the
text. -/
theorem append_of_next {offset : Nat} {c : Char} {cs lexeme rest : List Char}
    {kind : LexemeKind} (h : next offset c cs = .ok (kind, lexeme, rest)) :
    ∃ body, lexeme = c :: body ∧ body ++ rest = cs := by
  unfold next at h
  split at h
  · obtain ⟨-, rfl, rfl⟩ := by simpa using h
    exact ⟨[], rfl, rfl⟩
  split at h
  · obtain ⟨-, rfl, rfl⟩ := by simpa using h
    exact ⟨_, rfl, append_of_run rfl⟩
  split at h
  · rename_i hc
    obtain ⟨cs, rfl⟩ := List.head?_eq_some_iff.1 hc.2
    split at h
    · rename_i hs
      obtain ⟨-, rfl, rfl⟩ := by simpa using h
      exact ⟨_, rfl, by simpa using append_of_closeComment? hs⟩
    · simp at h
  split at h
  · obtain ⟨-, rfl, rfl⟩ := by simpa using h
    exact ⟨_, rfl, append_of_run rfl⟩
  split at h
  · obtain ⟨-, rfl, rfl⟩ := by simpa using h
    exact ⟨_, rfl, append_of_run rfl⟩
  split at h
  · split at h
    · rename_i hs
      obtain ⟨-, rfl, rfl⟩ := by simpa using h
      exact ⟨_, rfl, append_of_closeString? hs⟩
    · simp at h
  split at h
  · obtain ⟨-, rfl, rfl⟩ := by simpa using h
    exact ⟨[], rfl, rfl⟩
  · simp at h

end Lexeme

namespace SnippetToken

/-- The tokens of a text that begins at the byte `offset`. -/
def scan (offset : Nat) : List Char → Except SnippetError (List SnippetToken)
  | [] => .ok []
  | c :: cs =>
    match h : Lexeme.next offset c cs with
    | .error e => .error e
    | .ok (kind, lexeme, rest) =>
      let stop := offset + Text.byteSize lexeme
      have : rest.length < cs.length + 1 := by
        obtain ⟨body, _, rfl⟩ := Lexeme.append_of_next h
        simp only [List.length_append]
        omega
      match scan stop rest with
      | .error e => .error e
      | .ok tokens =>
        match kind with
        | .token kind => .ok (⟨kind, ⟨offset, stop⟩, String.ofList lexeme⟩ :: tokens)
        | .blank | .comment => .ok tokens
termination_by cs => cs.length

/-- The tokens of `text`, by a `scan` from its first byte. -/
def ofText (text : String) : Except SnippetError (List SnippetToken) := scan 0 text.toList

/-- Whether `t` is the mark `c`. -/
def isMark (t : SnippetToken) (c : Char) : Bool := t.kind = .mark c

/-- Whether `t` is a name. -/
def isName (t : SnippetToken) : Bool := t.kind = .name

/-- Whether `t` is the given `keyword`. -/
def isKeyword (t : SnippetToken) (keyword : String) : Bool := t.isName && t.text == keyword

end SnippetToken

end TreeLint
