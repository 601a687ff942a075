import TreeLint.Text.Search

/-!
# Glob patterns

A glob pattern describes paths: `?` stands for one character, `*` for any number of them, slashes
included, and brackets for one character out of a set. Two stars, as a whole part of the pattern,
stand for any number of folders.

- `Glob.ofText?` reads a pattern.
- `Glob.accepts` says which texts a pattern describes.
-/

namespace TreeLint

/-- A part of a pattern. -/
inductive GlobToken where
  | char (c : Char)
  | anyChar
  /-- A character in one of the ranges, both ends included, or in none of them. -/
  | oneOf (negated : Bool) (ranges : List (Char × Char))
  /-- Any text. -/
  | anyText
  /-- Any number of folders. -/
  | anyFolders
  deriving DecidableEq, Repr, Inhabited

/-- A pattern for paths. -/
structure Glob where
  tokens : List GlobToken
  deriving DecidableEq, Repr, Inhabited

namespace Glob

/-! ## Reading -/

/-- The ranges of a set; a lone character is a range of its own. -/
def ranges : List Char → List (Char × Char)
  | a :: '-' :: b :: cs => (a, b) :: ranges cs
  | a :: cs => (a, a) :: ranges cs
  | [] => []

/-- A set of characters behind its opening bracket, and the text behind it. The first character
never closes the set. -/
def set? : List Char → Option (GlobToken × List Char)
  | '!' :: c :: cs =>
    (Text.cutAt? [']'] cs).map fun (body, rest) => (.oneOf true (ranges (c :: body)), rest)
  | '!' :: [] => none
  | c :: cs =>
    (Text.cutAt? [']'] cs).map fun (body, rest) => (.oneOf false (ranges (c :: body)), rest)
  | [] => none

theorem length_of_set? {cs rest : List Char} {token : GlobToken}
    (h : set? cs = some (token, rest)) : rest.length < cs.length := by
  unfold set? at h
  split at h
  · obtain ⟨p, hp, he⟩ := Option.map_eq_some_iff.1 h
    obtain ⟨-, rfl⟩ := Prod.mk.inj he
    have := congrArg List.length (Text.append_of_cutAt? hp)
    simp at this ⊢
    omega
  · simp at h
  · obtain ⟨p, hp, he⟩ := Option.map_eq_some_iff.1 h
    obtain ⟨-, rfl⟩ := Prod.mk.inj he
    have := congrArg List.length (Text.append_of_cutAt? hp)
    simp at this ⊢
    omega
  · simp at h

/-- The tokens of a pattern. `atPart` says whether a part of the pattern begins here. -/
def tokens? (atPart : Bool) : List Char → Option (List GlobToken)
  | [] => some []
  | '?' :: cs => (tokens? false cs).map (.anyChar :: ·)
  | '*' :: '*' :: '*' :: _ => none
  | '*' :: '*' :: '/' :: cs =>
    if atPart then (tokens? true cs).map (.anyFolders :: ·) else none
  | ['*', '*'] => if atPart then some [.anyFolders] else none
  | '*' :: '*' :: _ :: _ => none
  | '*' :: cs => (tokens? false cs).map (.anyText :: ·)
  | '[' :: cs =>
    match h : set? cs with
    | some (token, rest) =>
      have := length_of_set? h
      (tokens? false rest).map (token :: ·)
    | none => none
  | c :: cs => (tokens? (c = '/') cs).map (.char c :: ·)
termination_by cs => cs.length

/-- The pattern that `text` spells; `none` if it cannot be read. -/
def ofText? (text : String) : Option Glob := (tokens? true text.toList).map Glob.mk

/-! ## Matching -/

/-- All ends of a text, the text itself and the empty one included. -/
def ends : List Char → List (List Char)
  | [] => [[]]
  | c :: cs => (c :: cs) :: ends cs

/-- The text `cs` itself, its ends behind a slash, and the empty one. -/
def endsOfParts (cs : List Char) : List (List Char) := cs :: behindSlashes cs
where
  /-- The ends behind a slash, and the empty one. -/
  behindSlashes : List Char → List (List Char)
    | [] => [[]]
    | c :: cs => if c = '/' then cs :: behindSlashes cs else behindSlashes cs

/-- Whether tokens describe a text. -/
def describes : List GlobToken → List Char → Bool
  | [], cs => cs.isEmpty
  | .anyText :: tokens, cs => (ends cs).any (describes tokens)
  | .anyFolders :: tokens, cs => (endsOfParts cs).any (describes tokens)
  | _ :: _, [] => false
  | .char p :: tokens, c :: cs => p = c && describes tokens cs
  | .anyChar :: tokens, _ :: cs => describes tokens cs
  | .oneOf negated ranges :: tokens, c :: cs =>
    (ranges.any fun (a, b) => a ≤ c && c ≤ b) != negated && describes tokens cs

/-- Whether the pattern `glob` describes `path`. -/
def accepts (glob : Glob) (path : String) : Bool := describes glob.tokens path.toList

end Glob

end TreeLint
