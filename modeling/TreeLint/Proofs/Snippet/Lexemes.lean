import TreeLint.Proofs.Edit.Motion
import TreeLint.Snippet.Token

/-!
# Cutting a text into lexemes

`SnippetToken.scan` carries offsets along and forgets what stands between the tokens. Here a text is
the lexemes that it is made of, blanks and comments included, and offsets come in only when they are
counted.

- `Lexeme.InFront`: a lexeme stands in front of a text. What follows a lexeme matters only by its
  first character, and for most kinds not at all (`Lexeme.Ends`, `InFront.congr`).
- `Lexes`: lexemes stand one behind the other in front of a text.
- `tokensAt`: the tokens among lexemes, with their places.
- `scan_eq_ok_iff`: the tokens of a text are those among its lexemes.
-/

namespace TreeLint

/-- A part of a text that is read as one, wherever it stands: its `chars` and what they are. -/
structure Lexeme where
  kind : LexemeKind
  chars : List Char
  deriving DecidableEq, Repr

namespace Lexeme

/-- The lexemes of the language, kind by kind: `longComment` and `string` end at the first place
where they can. -/
inductive Formed : Lexeme → Prop
  | blank {c : Char} (h : isBlank c = true) : Formed ⟨.blank, [c]⟩
  | lineComment {body : List Char} (h : ∀ c ∈ body, c ≠ '\n') : Formed ⟨.comment, '/' :: '/' :: body⟩
  | longComment {body : List Char} (h : closeComment? body = some (body, [])) :
      Formed ⟨.comment, '/' :: '*' :: body⟩
  | name {c : Char} {body : List Char} (hc : isNameStart c = true)
      (h : ∀ d ∈ body, isNameRest d = true) : Formed ⟨.token .name, c :: body⟩
  | number {c : Char} {body : List Char} (hc : c.isDigit = true)
      (h : ∀ d ∈ body, d.isDigit = true) : Formed ⟨.token .number, c :: body⟩
  | string {body : List Char} (h : closeString? body = some (body, [])) :
      Formed ⟨.token .string, '"' :: body⟩
  | mark {c : Char} (h : c ∈ marks) : Formed ⟨.token (.mark c), [c]⟩

/-- The lexeme does not go on into `rest`. -/
def Ends (l : Lexeme) (rest : List Char) : Prop :=
  match l.kind with
  | .token .name => ∀ c ∈ rest.head?, isNameRest c = false
  | .token .number => ∀ c ∈ rest.head?, c.isDigit = false
  | .comment => l.chars[1]? = some '/' → ∀ c ∈ rest.head?, c = '\n'
  | _ => True

/-- The lexeme is what is read in front of `rest`. -/
def InFront (l : Lexeme) (rest : List Char) : Prop := l.Formed ∧ l.Ends rest

/-! ## Parts of a lexeme -/

theorem run_append_iff {holds : Char → Bool} {body rest : List Char} :
    run holds (body ++ rest) = (body, rest) ↔
      (∀ c ∈ body, holds c = true) ∧ ∀ c ∈ rest.head?, holds c = false := by
  induction body with
  | nil =>
    cases rest with
    | nil => simp [run]
    | cons c rest =>
      cases hc : holds c <;> simp [run, hc]
  | cons c body ih =>
    cases hc : holds c with
    | false => simp [run, hc]
    | true =>
      have hstep : run holds (c :: body ++ rest) = (c :: body, rest) ↔
          run holds (body ++ rest) = (body, rest) := by
        simp [run, hc]
      rw [hstep, ih]
      simp [hc]

theorem closeString?_ne_nil {cs rest : List Char} : closeString? cs ≠ some ([], rest) := by
  fun_cases closeString? cs with
  | case1 => simp
  | case2 => simp
  | case3 | case4 =>
    intro h
    obtain ⟨_, _, he⟩ := Option.map_eq_some_iff.mp h
    cases he

/-- A string, `body`, ends where it is closed, whatever `rest'` is behind. -/
theorem closeString?_append {body rest : List Char}
    (h : closeString? (body ++ rest) = some (body, rest)) (rest' : List Char) :
    closeString? (body ++ rest') = some (body, rest') := by
  generalize hcs : body ++ rest = cs at h
  fun_induction closeString? cs generalizing body with
  | case1 => cases h
  | case2 cs =>
    obtain ⟨rfl, rfl⟩ := Prod.mk.inj (Option.some.inj h)
    rfl
  | case3 c cs ih =>
    obtain ⟨⟨front, back⟩, hp, he⟩ := Option.map_eq_some_iff.mp h
    obtain ⟨rfl, rfl⟩ := Prod.mk.inj he
    simp only [List.cons_append, List.cons.injEq, true_and] at hcs
    simp [closeString?, ih hcs hp]
  | case4 c cs hquote hescape ih =>
    obtain ⟨⟨front, back⟩, hp, he⟩ := Option.map_eq_some_iff.mp h
    obtain ⟨rfl, rfl⟩ := Prod.mk.inj he
    simp only [List.cons_append, List.cons.injEq, true_and] at hcs
    rw [List.cons_append, closeString?.eq_4 _ _ hquote, ih hcs hp]
    · rfl
    · -- There is a character behind a backslash, for the text in front of the quote is not empty.
      intro d ds hbackslash _
      cases front with
      | nil => exact closeString?_ne_nil hp
      | cons e front => exact hescape e (front ++ back) hbackslash hcs.symm

theorem isPrefixOf?_append {pattern front : List Char} (h : pattern.length ≤ front.length)
    (back : List Char) :
    pattern.isPrefixOf? (front ++ back) = (pattern.isPrefixOf? front).map (· ++ back) := by
  induction pattern generalizing front with
  | nil => rfl
  | cons c pattern ih =>
    cases front with
    | nil => simp at h
    | cons d front =>
      have hstep : ∀ cs : List Char, (c :: pattern).isPrefixOf? (d :: cs) =
          if c == d then pattern.isPrefixOf? cs else none := fun _ => rfl
      rw [List.cons_append, hstep, hstep, ih (by simpa using h)]
      split <;> rfl

/-- The first occurrence of `pattern` stays the first, whatever `rest'` is behind. -/
theorem cutAt?_append {pattern body rest : List Char}
    (h : Text.cutAt? pattern (body ++ (pattern ++ rest)) = some (body, rest)) (rest' : List Char) :
    Text.cutAt? pattern (body ++ (pattern ++ rest')) = some (body, rest') := by
  have hself : ∀ cs : List Char, pattern.isPrefixOf? (pattern ++ cs) = some cs := by
    clear h
    induction pattern with
    | nil => intro cs; rfl
    | cons c pattern ih =>
      intro cs
      have hstep : (c :: pattern).isPrefixOf? (c :: (pattern ++ cs)) =
          if c == c then pattern.isPrefixOf? (pattern ++ cs) else none := rfl
      rw [List.cons_append, hstep, beq_self_eq_true, if_pos rfl, ih]
  induction body with
  | nil =>
    rw [List.nil_append]
    have := hself rest'
    cases hcs : pattern ++ rest' with
    | nil => rw [hcs] at this; simp [Text.cutAt?, this]
    | cons c cs => rw [hcs] at this; simp [Text.cutAt?, this]
  | cons c body ih =>
    have hlong : pattern.length ≤ (c :: (body ++ pattern)).length := by simp; omega
    have happend : ∀ cs : List Char, c :: body ++ (pattern ++ cs) = c :: (body ++ pattern) ++ cs := by
      simp
    rw [happend, List.cons_append, Text.cutAt?, ← List.cons_append, isPrefixOf?_append hlong,
      List.append_assoc] at h ⊢
    cases hpattern : pattern.isPrefixOf? (c :: (body ++ pattern)) with
    | some found =>
      simp [hpattern] at h
    | none =>
      simp only [hpattern, Option.map_none] at h ⊢
      obtain ⟨⟨front, back⟩, hp, he⟩ := Option.map_eq_some_iff.mp h
      obtain ⟨hfront, rfl⟩ := Prod.mk.inj he
      obtain rfl := (List.cons.inj hfront).2
      rw [ih hp]
      rfl

theorem closeComment?_append {body rest : List Char}
    (h : closeComment? (body ++ rest) = some (body, rest)) (rest' : List Char) :
    closeComment? (body ++ rest') = some (body, rest') := by
  obtain ⟨⟨front, back⟩, hp, he⟩ := Option.map_eq_some_iff.mp h
  obtain ⟨rfl, rfl⟩ := Prod.mk.inj he
  rw [List.append_assoc] at hp
  rw [closeComment?, List.append_assoc, cutAt?_append hp]
  rfl

/-! ## The lexeme in front of a text -/

theorem not_isNameStart_of_isBlank {c : Char} (h : isBlank c = true) : isNameStart c = false := by
  simp only [isBlank, Bool.or_eq_true, beq_iff_eq] at h
  rcases h with (((rfl | rfl) | rfl) | rfl) | rfl <;> decide

theorem not_isDigit_of_isBlank {c : Char} (h : isBlank c = true) : c.isDigit = false := by
  simp only [isBlank, Bool.or_eq_true, beq_iff_eq] at h
  rcases h with (((rfl | rfl) | rfl) | rfl) | rfl <;> decide

theorem not_isNameStart_of_isDigit {c : Char} (h : c.isDigit = true) : isNameStart c = false := by
  have hunderscore : c ≠ '_' := by
    rintro rfl
    exact absurd h (by decide)
  simp only [Char.isDigit, Bool.and_eq_true, decide_eq_true_eq, ge_iff_le,
    UInt32.le_iff_toNat_le] at h
  have hzero : (48 : UInt32).toNat = 48 := rfl
  have hnine : (57 : UInt32).toNat = 57 := rfl
  delta isNameStart Char.isAlpha Char.isUpper Char.isLower
  simp only [Bool.or_eq_false_iff, Bool.and_eq_false_iff, decide_eq_false_iff_not,
    beq_eq_false_iff_ne, ge_iff_le, UInt32.le_iff_toNat_le]
  have hA : 'A'.val.toNat = 65 := rfl
  have ha : 'a'.val.toNat = 97 := rfl
  have h0 : '0'.val.toNat = 48 := rfl
  have h9 : '9'.val.toNat = 57 := rfl
  exact ⟨⟨by omega, by omega⟩, hunderscore⟩

theorem isNameRest_of_isNameStart {c : Char} (h : isNameStart c = true) : isNameRest c = true := by
  simp only [isNameStart, isNameRest, Char.isAlphanum, Bool.or_eq_true] at h ⊢
  exact h.imp_left .inl

/-- What `next` reads is a lexeme that ends in front of `rest`. -/
theorem inFront_of_next {offset : Nat} {c : Char} {body rest : List Char} {kind : LexemeKind}
    (h : next offset c (body ++ rest) = .ok (kind, c :: body, rest)) :
    (Lexeme.mk kind (c :: body)).InFront rest := by
  -- One case for each branch of `next`. A run ends where its last test fails, so what follows it
  -- cannot belong to it.
  unfold next at h
  split at h
  · rename_i hblank
    obtain ⟨rfl, rfl, -⟩ := by simpa using h
    exact ⟨.blank hblank, trivial⟩
  split at h
  · rename_i hline
    obtain ⟨rfl, hslash⟩ := hline
    simp only [Except.ok.injEq, Prod.mk.injEq, List.cons.injEq, true_and] at h
    obtain ⟨rfl, hbody, hrest⟩ := h
    obtain ⟨hall, hend⟩ := run_append_iff.mp (Prod.ext hbody hrest)
    cases body with
    | nil => simpa using hend '/' hslash
    | cons d body =>
      obtain rfl : d = '/' := by simpa using hslash
      exact ⟨.lineComment (by simpa using hall), fun _ => by simpa using hend⟩
  split at h
  · rename_i hlong
    obtain ⟨rfl, hstar⟩ := hlong
    split at h
    · rename_i front back hclose
      simp only [Except.ok.injEq, Prod.mk.injEq, List.cons.injEq, true_and] at h
      obtain ⟨rfl, rfl, rfl⟩ := h
      refine ⟨.longComment ?_, fun hslash => by simp at hslash⟩
      simpa using closeComment?_append hclose []
    · cases h
  split at h
  · rename_i hname
    simp only [Except.ok.injEq, Prod.mk.injEq, List.cons.injEq, true_and] at h
    obtain ⟨rfl, hbody, hrest⟩ := h
    obtain ⟨hall, hend⟩ := run_append_iff.mp (Prod.ext hbody hrest)
    exact ⟨.name hname hall, hend⟩
  split at h
  · rename_i hdigit
    simp only [Except.ok.injEq, Prod.mk.injEq, List.cons.injEq, true_and] at h
    obtain ⟨rfl, hbody, hrest⟩ := h
    obtain ⟨hall, hend⟩ := run_append_iff.mp (Prod.ext hbody hrest)
    exact ⟨.number hdigit hall, hend⟩
  split at h
  · rename_i hquote
    obtain rfl := hquote
    split at h
    · rename_i front back hclose
      simp only [Except.ok.injEq, Prod.mk.injEq, List.cons.injEq, true_and] at h
      obtain ⟨rfl, rfl, rfl⟩ := h
      exact ⟨.string (by simpa using closeString?_append hclose []), trivial⟩
    · cases h
  split at h
  · rename_i hmark
    simp only [Except.ok.injEq, Prod.mk.injEq, List.cons.injEq, true_and] at h
    obtain ⟨rfl, rfl, -⟩ := h
    exact ⟨.mark hmark, trivial⟩
  · cases h

/-- What is behind a lexeme, `rest`, is shorter than the text. -/
theorem length_lt_of_next {offset : Nat} {c : Char} {cs lexeme rest : List Char}
    {kind : LexemeKind} (h : next offset c cs = .ok (kind, lexeme, rest)) :
    rest.length < (c :: cs).length := by
  obtain ⟨body, -, rfl⟩ := append_of_next h
  simp only [List.length_cons, List.length_append]
  omega

/-- What `next` reads in front of `rest`, where the lexeme `l` ends, is `l`. -/
theorem InFront.exists_next {l : Lexeme} {rest : List Char} (h : l.InFront rest) :
    ∃ c body, l.chars = c :: body ∧
      ∀ offset, next offset c (body ++ rest) = .ok (l.kind, l.chars, rest) := by
  obtain ⟨hformed, hends⟩ := h
  -- The first character, with the second one for a comment, tells the kind of lexeme.
  cases hformed with
  | blank hblank => exact ⟨_, [], rfl, fun offset => by rw [next, if_pos hblank]; rfl⟩
  | @lineComment body hbody =>
    refine ⟨_, _, rfl, fun offset => ?_⟩
    have hrun : run (· ≠ '\n') ('/' :: body ++ rest) = ('/' :: body, rest) :=
      run_append_iff.mpr ⟨by simpa using hbody, by simpa using hends rfl⟩
    rw [next, if_neg (by decide), if_pos ⟨rfl, rfl⟩, hrun]
  | @longComment body hclose =>
    refine ⟨_, _, rfl, fun offset => ?_⟩
    have hclose' : closeComment? (body ++ rest) = some (body, rest) :=
      closeComment?_append (by rwa [List.append_nil]) rest
    rw [next, if_neg (by decide), if_neg (by simp), if_pos ⟨rfl, rfl⟩]
    simp only [List.cons_append, List.tail_cons, hclose']
  | @name c body hc hbody =>
    refine ⟨_, _, rfl, fun offset => ?_⟩
    have hblank : ¬ isBlank c = true := fun h => by simp [not_isNameStart_of_isBlank h] at hc
    have hslash : c ≠ '/' := by
      rintro rfl
      exact absurd hc (by decide)
    rw [next, if_neg hblank, if_neg (fun h => hslash h.1), if_neg (fun h => hslash h.1),
      if_pos hc, run_append_iff.mpr ⟨hbody, hends⟩]
  | @number c body hc hbody =>
    refine ⟨_, _, rfl, fun offset => ?_⟩
    have hblank : ¬ isBlank c = true := fun h => by simp [not_isDigit_of_isBlank h] at hc
    have hslash : c ≠ '/' := by
      rintro rfl
      exact absurd hc (by decide)
    rw [next, if_neg hblank, if_neg (fun h => hslash h.1), if_neg (fun h => hslash h.1),
      if_neg (by simp [not_isNameStart_of_isDigit hc]), if_pos hc,
      run_append_iff.mpr ⟨hbody, hends⟩]
  | @string body hclose =>
    refine ⟨_, _, rfl, fun offset => ?_⟩
    have hclose' : closeString? (body ++ rest) = some (body, rest) :=
      closeString?_append (by rwa [List.append_nil]) rest
    rw [next, if_neg (by decide), if_neg (by simp), if_neg (by simp), if_neg (by decide),
      if_neg (by decide), if_pos rfl]
    simp only [hclose']
  | @mark c hc =>
    refine ⟨_, [], rfl, fun offset => ?_⟩
    have hother : ∀ c ∈ marks, isBlank c = false ∧ c ≠ '/' ∧ isNameStart c = false ∧
        c.isDigit = false ∧ c ≠ '"' := by simp [marks, isBlank, isNameStart]
    obtain ⟨hblank, hslash, hname, hdigit, hquote⟩ := hother c hc
    rw [next, if_neg (by simp [hblank]), if_neg (fun h => hslash h.1),
      if_neg (fun h => hslash h.1), if_neg (by simp [hname]), if_neg (by simp [hdigit]),
      if_neg hquote, if_pos hc]
    rfl

/-! ## What may follow a lexeme -/

/-- What follows a lexeme `l` matters by its first character alone. -/
theorem Ends.congr {l : Lexeme} {rest rest' : List Char} (h : l.Ends rest)
    (hhead : rest.head? = rest'.head?) : l.Ends rest' := by
  unfold Ends at h ⊢
  rwa [← hhead]

theorem InFront.congr {l : Lexeme} {rest rest' : List Char} (h : l.InFront rest)
    (hhead : rest.head? = rest'.head?) : l.InFront rest' :=
  ⟨h.1, h.2.congr hhead⟩

/-- A mark `l` ends in front of any text `rest'`. -/
theorem InFront.of_mark {l : Lexeme} {c : Char} {rest : List Char} (h : l.InFront rest)
    (hkind : l.kind = .token (.mark c)) (rest' : List Char) : l.InFront rest' :=
  ⟨h.1, by simp [Ends, hkind]⟩

/-- What is no token and stands in front of one ends in front of any text `rest'`: a comment up to
the end of the line has that end behind it. -/
theorem InFront.of_gap {l : Lexeme} {c : Char} {rest : List Char} (h : l.InFront (c :: rest))
    (hc : c ≠ '\n') (hkind : ∀ kind, l.kind ≠ .token kind) (rest' : List Char) :
    l.InFront rest' := by
  refine ⟨h.1, ?_⟩
  obtain ⟨hformed, hends⟩ := h
  cases hformed with
  | blank => exact trivial
  | lineComment => exact absurd (hends rfl c rfl) hc
  | longComment => exact fun hslash => by simp at hslash
  | _ => simp at hkind

/-- A token `l` ends in front of a space. -/
theorem InFront.of_space {l : Lexeme} {kind : TokenKind} {rest : List Char} (h : l.InFront rest)
    (hkind : l.kind = .token kind) (rest' : List Char) : l.InFront (' ' :: rest') := by
  refine ⟨h.1, ?_⟩
  cases kind <;> simp [Ends, hkind, isNameRest]

/-- A lexeme `l` is not empty. -/
theorem Formed.exists_cons {l : Lexeme} (h : l.Formed) : ∃ c body, l.chars = c :: body := by
  cases h <;> exact ⟨_, _, rfl⟩

/-- The first character `c` of a token is no line feed. -/
theorem Formed.head_ne {l : Lexeme} {kind : TokenKind} {c : Char} {body : List Char}
    (h : l.Formed) (hkind : l.kind = .token kind) (hchars : l.chars = c :: body) : c ≠ '\n' := by
  rintro rfl
  cases h with
  | blank | lineComment | longComment => cases hkind
  | string => cases hchars
  | name hc | number hc | mark hc =>
    obtain ⟨rfl, -⟩ := List.cons.inj hchars
    exact absurd hc (by decide)

/-- Number of bytes of `l`. -/
def size (l : Lexeme) : Nat := Text.byteSize l.chars

theorem Formed.size_pos {l : Lexeme} (h : l.Formed) : 0 < l.size := by
  obtain ⟨c, body, hchars⟩ := h.exists_cons
  have := c.utf8Size_pos
  rw [size, hchars, Text.byteSize_cons]
  omega

/-- The token that the lexeme is when it begins at the byte `offset`. -/
def token? (l : Lexeme) (offset : Nat) : Option SnippetToken :=
  match l.kind with
  | .token kind => some ⟨kind, ⟨offset, offset + l.size⟩, String.ofList l.chars⟩
  | .blank | .comment => none

theorem token?_eq_none_iff {l : Lexeme} {offset : Nat} :
    l.token? offset = none ↔ ∀ kind, l.kind ≠ .token kind := by
  unfold token?
  cases l.kind <;> simp

theorem token?_eq_some_iff {l : Lexeme} {offset : Nat} {t : SnippetToken} :
    l.token? offset = some t ↔
      l.kind = .token t.kind ∧ t.span = ⟨offset, offset + l.size⟩ ∧
        t.text = String.ofList l.chars := by
  obtain ⟨kind, span, text⟩ := t
  unfold token?
  cases l.kind <;> simp [eq_comm]

end Lexeme

/-! ## A whole text -/

/-- The characters of the lexemes `ls`, one behind the other. -/
def textOf (ls : List Lexeme) : List Char := ls.flatMap Lexeme.chars

@[simp] theorem textOf_nil : textOf [] = [] := rfl

@[simp] theorem textOf_cons (l : Lexeme) (ls : List Lexeme) :
    textOf (l :: ls) = l.chars ++ textOf ls := rfl

@[simp] theorem textOf_append (ls ms : List Lexeme) : textOf (ls ++ ms) = textOf ls ++ textOf ms := by
  simp [textOf]

/-- Number of bytes of the lexemes `ls`, one behind the other. -/
def bytesOf (ls : List Lexeme) : Nat := Text.byteSize (textOf ls)

@[simp] theorem bytesOf_nil : bytesOf [] = 0 := rfl

@[simp] theorem bytesOf_cons (l : Lexeme) (ls : List Lexeme) :
    bytesOf (l :: ls) = l.size + bytesOf ls := by
  simp [bytesOf, Lexeme.size]

@[simp] theorem bytesOf_append (ls ms : List Lexeme) :
    bytesOf (ls ++ ms) = bytesOf ls + bytesOf ms := by
  simp [bytesOf]

/-- The lexemes are what is read, one after the other, in front of `rest`. -/
def Lexes : List Lexeme → (rest : List Char) → Prop
  | [], _ => True
  | l :: ls, rest => l.InFront (textOf ls ++ rest) ∧ Lexes ls rest

theorem lexes_append {ls ms : List Lexeme} {rest : List Char} :
    Lexes (ls ++ ms) rest ↔ Lexes ls (textOf ms ++ rest) ∧ Lexes ms rest := by
  induction ls with
  | nil => simp [Lexes]
  | cons l ls ih => simp [Lexes, ih, and_assoc]

/-- The tokens among lexemes of which the first begins at the byte `offset`. -/
def tokensAt (offset : Nat) : List Lexeme → List SnippetToken
  | [] => []
  | l :: ls => (l.token? offset).toList ++ tokensAt (offset + l.size) ls

theorem tokensAt_append (offset : Nat) (ls ms : List Lexeme) :
    tokensAt offset (ls ++ ms) = tokensAt offset ls ++ tokensAt (offset + bytesOf ls) ms := by
  induction ls generalizing offset with
  | nil => simp [tokensAt]
  | cons l ls ih => simp [tokensAt, ih, Nat.add_assoc]

/-- The tokens behind the `lexeme` in front do not depend on it, but for their places. -/
theorem SnippetToken.scan_cons {offset : Nat} {c : Char} {cs lexeme rest : List Char}
    {kind : LexemeKind} (h : Lexeme.next offset c cs = .ok (kind, lexeme, rest)) :
    scan offset (c :: cs) = (scan (offset + (Lexeme.mk kind lexeme).size) rest).map
      (((Lexeme.mk kind lexeme).token? offset).toList ++ ·) := by
  rw [scan]
  split
  · rename_i hnext
    rw [h] at hnext
    cases hnext
  · rename_i hnext
    rw [h] at hnext
    cases hnext
    simp only [Lexeme.size]
    cases scan (offset + Text.byteSize lexeme) rest with
    | error e => rfl
    | ok tokens => cases kind <;> rfl

theorem SnippetToken.scan_cons_of_error {offset : Nat} {c : Char} {cs : List Char}
    {e : SnippetError} (h : Lexeme.next offset c cs = .error e) : scan offset (c :: cs) = .error e := by
  rw [scan]
  split <;> simp_all

theorem SnippetToken.exists_lexes_of_scan : ∀ {offset : Nat} {text : List Char}
    {ts : List SnippetToken}, scan offset text = .ok ts →
      ∃ ls, textOf ls = text ∧ Lexes ls [] ∧ tokensAt offset ls = ts
  | _, [], _, h => ⟨[], rfl, trivial, by simpa [scan, tokensAt] using h⟩
  | offset, c :: cs, ts, h => by
    cases hnext : Lexeme.next offset c cs with
    | error e =>
      rw [scan] at h
      split at h <;> simp_all
    | ok found =>
      obtain ⟨kind, lexeme, rest⟩ := found
      obtain ⟨body, rfl, rfl⟩ := Lexeme.append_of_next hnext
      rw [scan_cons hnext] at h
      cases hscan : scan (offset + (Lexeme.mk kind (c :: body)).size) rest with
      | error e => simp [hscan, Except.map] at h
      | ok tokens =>
        rw [hscan] at h
        cases h
        have := Lexeme.length_lt_of_next hnext
        obtain ⟨ls, rfl, hlexes, rfl⟩ := exists_lexes_of_scan hscan
        refine ⟨⟨kind, c :: body⟩ :: ls, rfl, ⟨?_, hlexes⟩, rfl⟩
        rw [List.append_nil]
        exact Lexeme.inFront_of_next hnext
termination_by _ text => text.length

/-- The tokens `ts` of a `text` are those among the lexemes that it is made of. -/
theorem SnippetToken.scan_eq_ok_iff {offset : Nat} {text : List Char} {ts : List SnippetToken} :
    scan offset text = .ok ts ↔
      ∃ ls, textOf ls = text ∧ Lexes ls [] ∧ tokensAt offset ls = ts := by
  constructor
  · exact exists_lexes_of_scan
  · rintro ⟨ls, rfl, hlexes, rfl⟩
    induction ls generalizing offset with
    | nil => rw [textOf_nil, scan]; rfl
    | cons l ls ih =>
      obtain ⟨hfront, hlexes⟩ := hlexes
      rw [List.append_nil] at hfront
      obtain ⟨c, body, hchars, hnext⟩ := hfront.exists_next
      rw [textOf_cons, hchars, List.cons_append, scan_cons (hnext offset), ih hlexes]
      rfl

/-! ## Tokens among lexemes -/

section

variable {offset : Nat} {ls : List Lexeme} {rest : List Char}

theorem tokensAt_eq_nil_iff :
    tokensAt offset ls = [] ↔ ∀ l ∈ ls, ∀ kind, l.kind ≠ .token kind := by
  induction ls generalizing offset with
  | nil => simp [tokensAt]
  | cons l ls ih => simp [tokensAt, ih, Lexeme.token?_eq_none_iff]

/-- Lexemes `ls` come apart where a token `t` begins. -/
theorem exists_append_of_tokensAt {ts us : List SnippetToken} {t : SnippetToken}
    (h : tokensAt offset ls = ts ++ t :: us) :
    ∃ front l back, ls = front ++ l :: back ∧ tokensAt offset front = ts ∧
      l.token? (offset + bytesOf front) = some t ∧
      tokensAt (offset + bytesOf front + l.size) back = us := by
  induction ls generalizing offset ts with
  | nil => simp [tokensAt] at h
  | cons l ls ih =>
    rw [tokensAt] at h
    cases htoken : l.token? offset with
    | none =>
      rw [htoken] at h
      obtain ⟨front, m, back, rfl, hfront, hm, hback⟩ := ih (by simpa using h)
      refine ⟨l :: front, m, back, rfl, by simp [tokensAt, htoken, hfront], ?_, ?_⟩
      · rwa [bytesOf_cons, ← Nat.add_assoc]
      · rwa [bytesOf_cons, ← Nat.add_assoc]
    | some t' =>
      rw [htoken] at h
      cases ts with
      | nil =>
        obtain ⟨rfl, rfl⟩ := List.cons.inj h
        exact ⟨[], l, ls, rfl, rfl, htoken, rfl⟩
      | cons u ts =>
        obtain ⟨rfl, hrest⟩ := List.cons.inj h
        obtain ⟨front, m, back, rfl, hfront, hm, hback⟩ := ih hrest
        refine ⟨l :: front, m, back, rfl, by simp [tokensAt, htoken, hfront], ?_, ?_⟩
        · rwa [bytesOf_cons, ← Nat.add_assoc]
        · rwa [bytesOf_cons, ← Nat.add_assoc]

/-- Tokens stand one behind the other between the bytes `offset` and `stop`, and none is empty. -/
def Laid (offset : Nat) : List SnippetToken → (stop : Nat) → Prop
  | [], stop => offset ≤ stop
  | t :: ts, stop => offset ≤ t.span.start ∧ t.span.start < t.span.stop ∧ Laid t.span.stop ts stop

theorem Laid.le {ts : List SnippetToken} {stop : Nat} (h : Laid offset ts stop) : offset ≤ stop := by
  induction ts generalizing offset with
  | nil => exact h
  | cons t ts ih =>
    obtain ⟨hstart, hlt, hrest⟩ := h
    have := ih hrest
    omega

theorem Laid.mono {ts : List SnippetToken} {offset' stop : Nat} (h : Laid offset ts stop)
    (hle : offset' ≤ offset) : Laid offset' ts stop := by
  cases ts with
  | nil => exact Nat.le_trans hle h
  | cons t ts => exact ⟨Nat.le_trans hle h.1, h.2⟩

theorem laid_append {ts us : List SnippetToken} {stop : Nat} :
    Laid offset (ts ++ us) stop ↔ ∃ middle, Laid offset ts middle ∧ Laid middle us stop := by
  induction ts generalizing offset with
  | nil =>
    refine ⟨fun h => ⟨offset, Nat.le_refl _, h⟩, ?_⟩
    rintro ⟨middle, hle, h⟩
    exact h.mono hle
  | cons t ts ih => simp only [List.cons_append, Laid, ih, and_assoc, exists_and_left]

theorem Laid.mem {ts : List SnippetToken} {stop : Nat} (h : Laid offset ts stop)
    {t : SnippetToken} (ht : t ∈ ts) :
    offset ≤ t.span.start ∧ t.span.start < t.span.stop ∧ t.span.stop ≤ stop := by
  obtain ⟨front, back, rfl⟩ := List.append_of_mem ht
  obtain ⟨middle, hfront, hstart, hlt, hback⟩ := laid_append.mp h
  have := hfront.le
  exact ⟨by omega, hlt, hback.le⟩

/-- The tokens among lexemes `ls` stand one behind the other (`Laid`). -/
theorem Lexes.laid (h : Lexes ls rest) (offset : Nat) :
    Laid offset (tokensAt offset ls) (offset + bytesOf ls) := by
  induction ls generalizing offset with
  | nil => exact Nat.le_refl _
  | cons l ls ih =>
    obtain ⟨hfront, hlexes⟩ := h
    have hpos := hfront.1.size_pos
    have hrest := ih hlexes (offset + l.size)
    rw [tokensAt, bytesOf_cons, ← Nat.add_assoc]
    cases htoken : l.token? offset with
    | none => exact hrest.mono (Nat.le_add_right _ _)
    | some t =>
      obtain ⟨-, hspan, -⟩ := Lexeme.token?_eq_some_iff.mp htoken
      simp only [Option.toList_some, List.cons_append, List.nil_append, Laid, hspan]
      exact ⟨Nat.le_refl _, by omega, hrest⟩

/-- A token `t` stands where its text does. -/
theorem exists_text_of_mem_tokensAt {t : SnippetToken} (ht : t ∈ tokensAt offset ls) :
    ∃ front back, textOf ls = front ++ t.text.toList ++ back ∧
      t.span.start = offset + Text.byteSize front ∧
      t.span.stop = t.span.start + Text.byteSize t.text.toList := by
  obtain ⟨ts, us, hts⟩ := List.append_of_mem ht
  obtain ⟨front, l, back, rfl, -, htoken, -⟩ := exists_append_of_tokensAt hts
  obtain ⟨-, hspan, htext⟩ := Lexeme.token?_eq_some_iff.mp htoken
  refine ⟨textOf front, textOf back, by simp [htext], ?_, ?_⟩
  · simp [hspan, bytesOf]
  · simp [hspan, htext, Lexeme.size]

/-- The token `t` where `m` moves it. -/
def SnippetToken.move (m : Motion) (t : SnippetToken) : SnippetToken :=
  { t with span := t.span.move m }

/-- Lexemes `ls` that begin at `offset'` and not at `offset` have the same tokens in other
places. -/
theorem Lexes.tokensAt_eq_map (h : Lexes ls rest) {offset' : Nat} {m : Motion}
    (hstart : ∀ p, offset ≤ p → p < offset + bytesOf ls → m.start p = offset' + (p - offset))
    (hstop : ∀ p, offset < p → p ≤ offset + bytesOf ls → m.stop p = offset' + (p - offset)) :
    tokensAt offset' ls = (tokensAt offset ls).map (.move m) := by
  induction ls generalizing offset offset' with
  | nil => rfl
  | cons l ls ih =>
    obtain ⟨hfront, hlexes⟩ := h
    have hpos := hfront.1.size_pos
    rw [bytesOf_cons] at hstart hstop
    have hrest := @ih (offset + l.size) hlexes (offset' + l.size)
      (fun p h₁ h₂ => by rw [hstart p (by omega) (by omega)]; omega)
      (fun p h₁ h₂ => by rw [hstop p (by omega) (by omega)]; omega)
    rw [tokensAt, tokensAt, hrest, List.map_append]
    congr 1
    have h₁ := hstart offset (Nat.le_refl _) (by omega)
    have h₂ := hstop (offset + l.size) (by omega) (by omega)
    unfold Lexeme.token?
    cases l.kind <;> simp [SnippetToken.move, Span.move, h₁, h₂]

end

end TreeLint
