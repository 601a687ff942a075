import TreeLint.Proofs.Text.Searching

/-!
# The comments of a line

A line is read from left to right. A literal goes from one double quote to the next, and a backslash
takes the character behind it along. Two slashes open a comment up to the end of the line, and `/*`
opens one up to the next `*/`, or to the end of the line if there is none.

- `LinePart.readIn`, `lineParts`: the literals, the comments and the other characters of a line.
- `Settled`: a text ends outside of literals and comments. `lineParts_append`: what is behind such a
  text is read as a line of its own.
- `lineParts_block`: a comment in block form ends where `*/` is found first.
-/

namespace TreeLint

/-- A part of a line: `code` is one character outside of literals and comments. -/
inductive LinePart where
  | code (c : Char)
  /-- A text in double quotes, `closed` if the second quote is there. -/
  | literal (text : List Char) (closed : Bool)
  /-- What is behind two slashes. -/
  | lineComment (text : List Char)
  /-- What is behind `/*`, `closed` if `*/` is there. -/
  | blockComment (text : List Char) (closed : Bool)
  deriving DecidableEq, Repr

namespace LinePart

/-- What is open where the reading goes on, with its text so far, `front`. -/
inductive Within where
  | code
  | literal (front : List Char)
  | comment (front : List Char)

/-- The parts of what is left of a line, `rest`. -/
def readIn : Within → List Char → List LinePart
  | .code, [] => []
  | .code, '/' :: '/' :: text => [.lineComment text]
  | .code, '/' :: '*' :: rest => readIn (.comment []) rest
  | .code, '"' :: rest => readIn (.literal []) rest
  | .code, c :: rest => .code c :: readIn .code rest
  | .literal front, [] => [.literal front false]
  | .literal front, '\\' :: c :: rest => readIn (.literal (front ++ ['\\', c])) rest
  | .literal front, '"' :: rest => .literal front true :: readIn .code rest
  | .literal front, c :: rest => readIn (.literal (front ++ [c])) rest
  | .comment front, [] => [.blockComment front false]
  | .comment front, '*' :: '/' :: rest => .blockComment front true :: readIn .code rest
  | .comment front, c :: rest => readIn (.comment (front ++ [c])) rest

/-- Whether the part is complete (`closed`), so that it does not take in what is behind. -/
def isClosed : LinePart → Bool
  | code _ => true
  | literal _ closed => closed
  | lineComment _ => false
  | blockComment _ closed => closed

/-- The `text` of a comment, in either form. -/
def comment? : LinePart → Option (List Char)
  | lineComment text | blockComment text _ => some text
  | code _ | literal _ _ => none

/-- Whether the part is a comment or a blank `c`. -/
def isIdle : LinePart → Bool
  | code c => Text.isBlank c
  | literal _ _ => false
  | lineComment _ | blockComment _ _ => true

end LinePart

open LinePart

/-- The parts of `line`. -/
def lineParts (line : List Char) : List LinePart := readIn .code line

/-- The texts of the comments of `line`. -/
def lineComments (line : List Char) : List (List Char) := (lineParts line).filterMap comment?

/-- The `line` has nothing but blanks and comments. -/
def OwnLine (line : List Char) : Prop := ∀ part ∈ lineParts line, part.isIdle = true

instance (line : List Char) : Decidable (OwnLine line) :=
  inferInstanceAs (Decidable (∀ part ∈ lineParts line, _))

/-- The text `front` ends outside of literals and comments. -/
def Settled (front : List Char) : Prop := ∀ part ∈ lineParts front, part.isClosed = true

instance (front : List Char) : Decidable (Settled front) :=
  inferInstanceAs (Decidable (∀ part ∈ lineParts front, _))

example : lineComments "f(\"//\\\"\", 1) /* a */ /* // b */ // c".toList =
    [" a ".toList, " // b ".toList, " c".toList] := by decide

section

variable {front back line text : List Char}

namespace LinePart

theorem getLast?_of_cons {c d : Char} (h : (c :: text).getLast? ≠ some d) :
    text.getLast? ≠ some d := by
  intro hlast
  exact h (by rw [List.getLast?_cons, hlast, Option.getD_some])

/-- A character that begins a pair with `d` does so whatever `back` is behind the two. -/
theorem cons_eq_of_append {d : Char} (hne : text ≠ []) (h : text ++ back = d :: line) :
    ∃ rest, text = d :: rest := by
  cases text with
  | nil => exact absurd rfl hne
  | cons e rest =>
    obtain rfl := (List.cons.inj h).1
    exact ⟨rest, rfl⟩

/-- What is behind a text `front` that ends outside of literals and comments is read for itself. The
last character must not be a slash (`hlast`), which could open a comment together with the next
one. -/
theorem readIn_append {within : Within} (h : ∀ part ∈ readIn within front, part.isClosed = true)
    (hlast : front.getLast? ≠ some '/') (back : List Char) :
    readIn within (front ++ back) = readIn within front ++ lineParts back := by
  -- Along the reader. Two branches look at two characters: the second of them is in `front`, since
  -- `front` does not end in a slash and leaves nothing open.
  fun_induction readIn within front with
  | case1 => rfl
  | case2 text => simp [isClosed] at h
  | case3 rest ih => exact ih h (getLast?_of_cons (getLast?_of_cons hlast))
  | case4 rest ih => exact ih h (getLast?_of_cons hlast)
  | case5 c rest hline hblock hquote ih =>
    have hne (hslash : c = '/') : rest ≠ [] := by
      rintro rfl
      exact hlast (by rw [hslash]; rfl)
    have hpair (d : Char) (hnot : ∀ tail, c = '/' → rest = d :: tail → False) (tail : List Char)
        (hslash : c = '/') (hnext : rest ++ back = d :: tail) : False := by
      obtain ⟨tail', htail⟩ := cons_eq_of_append (hne hslash) hnext
      exact hnot tail' hslash htail
    rw [List.cons_append, readIn.eq_5 c _ (hpair '/' hline) (hpair '*' hblock) hquote,
      ih (fun part hpart => h part (List.mem_cons_of_mem _ hpart)) (getLast?_of_cons hlast)]
    rfl
  | case6 front => simp [isClosed] at h
  | case7 front c rest ih => exact ih h (getLast?_of_cons (getLast?_of_cons hlast))
  | case8 front rest ih =>
    rw [List.cons_append, readIn, ih (fun part hpart => h part (List.mem_cons_of_mem _ hpart))
      (getLast?_of_cons hlast)]
    rfl
  | case9 front c rest hescape hquote ih =>
    have hne : rest ≠ [] := by
      rintro rfl
      simp [readIn, isClosed] at h
    rw [List.cons_append, readIn.eq_9 _ _ _ (fun d tail hslash hnext => ?_) hquote,
      ih h (getLast?_of_cons hlast)]
    obtain ⟨tail', htail⟩ := cons_eq_of_append hne hnext
    exact hescape d tail' hslash htail
  | case10 front => simp [isClosed] at h
  | case11 front rest ih =>
    rw [List.cons_append, List.cons_append, readIn,
      ih (fun part hpart => h part (List.mem_cons_of_mem _ hpart))
        (getLast?_of_cons (getLast?_of_cons hlast))]
    rfl
  | case12 front c rest hclose ih =>
    have hne : rest ≠ [] := by
      rintro rfl
      simp [readIn, isClosed] at h
    rw [List.cons_append, readIn.eq_12 _ _ _ fun tail hstar hnext => ?_,
      ih h (getLast?_of_cons hlast)]
    obtain ⟨tail', htail⟩ := cons_eq_of_append hne hnext
    exact hclose tail' hstar htail

/-- A comment in block form ends where `*/` is found first. -/
theorem readIn_comment (front text : List Char) : readIn (.comment front) text =
    match Text.cutAt? ['*', '/'] text with
    | some (body, back) => .blockComment (front ++ body) true :: lineParts back
    | none => [.blockComment (front ++ text) false] := by
  induction text generalizing front with
  | nil => simp [readIn, Text.cutAt?, List.isPrefixOf?]
  | cons c text ih =>
    by_cases hpair : c = '*' ∧ ∃ rest, text = '/' :: rest
    · obtain ⟨rfl, rest, rfl⟩ := hpair
      have hclose : ['*', '/'].isPrefixOf? ('*' :: '/' :: rest) = some rest :=
        List.isPrefixOf?_eq_some_iff_append_eq.mpr rfl
      rw [readIn, Text.cutAt?, hclose]
      simp only [List.append_nil]
      rfl
    · have hopen : ['*', '/'].isPrefixOf? (c :: text) = none := by
        rw [Option.eq_none_iff_forall_ne_some]
        intro rest hrest
        obtain ⟨rfl, rfl⟩ := List.cons.inj (Text.append_of_isPrefixOf? hrest)
        exact hpair ⟨rfl, rest, rfl⟩
      rw [readIn.eq_12 _ _ _ fun rest hstar hnext => hpair ⟨hstar, rest, hnext⟩, ih, Text.cutAt?,
        hopen]
      cases Text.cutAt? ['*', '/'] text with
      | none => simp
      | some cut => simp

end LinePart

theorem lineParts_append (h : Settled front) (hlast : front.getLast? ≠ some '/')
    (back : List Char) : lineParts (front ++ back) = lineParts front ++ lineParts back :=
  readIn_append h hlast back

theorem lineParts_block (text : List Char) : lineParts ('/' :: '*' :: text) =
    match Text.cutAt? ['*', '/'] text with
    | some (body, back) => .blockComment body true :: lineParts back
    | none => [.blockComment text false] :=
  readIn_comment [] text

/-- A `text` without quotes and openers is nothing but `code`. -/
theorem lineParts_plain (hquote : '"' ∉ text) (hline : ¬ ['/', '/'] <:+: text)
    (hblock : ¬ ['/', '*'] <:+: text) : lineParts text = text.map .code := by
  induction text with
  | nil => rfl
  | cons c text ih =>
    have hopen {d : Char} {tail : List Char} (hnone : ¬ ['/', d] <:+: c :: text)
        (hslash : c = '/') (htail : text = d :: tail) : False :=
      hnone (List.IsPrefix.isInfix ⟨tail, by rw [hslash, htail]; rfl⟩)
    have hrest : ∀ {pattern : List Char}, ¬ pattern <:+: c :: text → ¬ pattern <:+: text :=
      fun hnone hfound => hnone (hfound.trans (List.suffix_cons c text).isInfix)
    obtain ⟨hne, hquote⟩ := not_or.mp (mt List.mem_cons.mpr hquote)
    rw [lineParts, readIn.eq_5 c text (fun _ => hopen hline) (fun _ => hopen hblock)
      (fun heq => hne heq.symm), ← lineParts, ih hquote (hrest hline) (hrest hblock)]
    rfl

theorem settled_plain (hquote : '"' ∉ text) (hline : ¬ ['/', '/'] <:+: text)
    (hblock : ¬ ['/', '*'] <:+: text) : Settled text := by
  rw [Settled, lineParts_plain hquote hline hblock]
  intro part hpart
  obtain ⟨c, -, rfl⟩ := List.mem_map.mp hpart
  rfl

end

end TreeLint
