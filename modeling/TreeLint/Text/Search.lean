/-!
# Searching in a text

- `cutAt?` finds the first place where a pattern stands and gives what is in front of and behind it.
- `splitOn` cuts a text at every occurrence of a character.
- `trim` drops blanks at both ends; a blank is a character with the Unicode property White_Space.
- `append_of_cutAt?`: what is in front of an occurrence, the pattern and what is behind it are the
  text.
-/

namespace TreeLint.Text

/-- The texts in front of and behind the first occurrence of `pattern`. -/
def cutAt? (pattern : List Char) : List Char → Option (List Char × List Char)
  | [] => (pattern.isPrefixOf? []).map ([], ·)
  | c :: cs =>
    match pattern.isPrefixOf? (c :: cs) with
    | some rest => some ([], rest)
    | none => (cutAt? pattern cs).map fun (front, back) => (c :: front, back)

/-- The parts of a text between occurrences of `sep`; always at least one. -/
def splitOn (sep : Char) : List Char → List (List Char)
  | [] => [[]]
  | c :: cs =>
    match splitOn sep cs with
    | [] => [[c]]
    | part :: parts => if c = sep then [] :: part :: parts else (c :: part) :: parts

/-- Whether `c` has the Unicode property White_Space. -/
def isBlank (c : Char) : Bool :=
  let n := c.toNat
  (0x09 ≤ n && n ≤ 0x0D) || n == 0x20 || n == 0x85 || n == 0xA0 || n == 0x1680
    || (0x2000 ≤ n && n ≤ 0x200A) || n == 0x2028 || n == 0x2029 || n == 0x202F || n == 0x205F
    || n == 0x3000

/-- The text `cs` without the blanks in front. -/
def trimFront (cs : List Char) : List Char := cs.dropWhile isBlank

/-- The text without the characters at its end for which `drop` holds. -/
def dropEndWhile (drop : Char → Bool) (cs : List Char) : List Char :=
  (cs.reverse.dropWhile drop).reverse

/-- The text `cs` without the blanks at both ends. -/
def trim (cs : List Char) : List Char := dropEndWhile isBlank (trimFront cs)

/-- The text without the copies of `pattern` at its end. -/
def dropEndCopies (pattern : List Char) (cs : List Char) : List Char :=
  (dropFrontCopies pattern.reverse cs.reverse cs.length).reverse
where
  /-- The text without the copies of `pattern` in front, of which there are at most `bound`. -/
  dropFrontCopies (pattern : List Char) (cs : List Char) : Nat → List Char
    | 0 => cs
    | bound + 1 =>
      match pattern.isPrefixOf? cs with
      | some rest => dropFrontCopies pattern rest bound
      | none => cs

/-- The decimal digits of `n`. -/
def digits (n : Nat) : List Char := Nat.toDigits 10 n

/-! ## Cutting at a pattern -/

theorem append_of_isPrefixOf? {pattern cs rest : List Char}
    (h : pattern.isPrefixOf? cs = some rest) : pattern ++ rest = cs := by
  induction pattern generalizing cs with
  | nil =>
    change some cs = some rest at h
    exact (Option.some.inj h).symm
  | cons c pattern ih =>
    cases cs with
    | nil => exact absurd (show none = some rest from h) (by simp)
    | cons d cs =>
      change (if c == d then pattern.isPrefixOf? cs else none) = some rest at h
      split at h
      · rename_i hc
        simp [ih h, beq_iff_eq.1 hc]
      · simp at h

theorem append_of_cutAt? {pattern cs front back : List Char}
    (h : cutAt? pattern cs = some (front, back)) : front ++ (pattern ++ back) = cs := by
  induction cs generalizing front with
  | nil =>
    obtain ⟨rest, hr, he⟩ := Option.map_eq_some_iff.1 h
    obtain ⟨rfl, rfl⟩ := Prod.mk.inj he
    simpa using append_of_isPrefixOf? hr
  | cons c cs ih =>
    simp only [cutAt?] at h
    split at h
    · rename_i hr
      obtain ⟨rfl, rfl⟩ := Prod.mk.inj (Option.some.inj h)
      simpa using append_of_isPrefixOf? hr
    · obtain ⟨⟨f, b⟩, hf, he⟩ := Option.map_eq_some_iff.1 h
      obtain ⟨rfl, rfl⟩ := Prod.mk.inj he
      simp [ih hf]

end TreeLint.Text
