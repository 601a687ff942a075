import TreeLint.Proofs.Snippet.Bytes

/-!
# Tokens cover a text but for blanks and comments

What the tokens of a text tell of it, said of the text and not of the reader.

- `Gap`: what may stand between tokens, which is a blank or a comment that ends.
- `Divides`: tokens and gaps make up a text, up to a place in it.
- `Fails`: why no lexeme stands in front of a text.
- `Lexes.divides`: the lexemes in front of a text divide it.
- `SnippetToken.ofText_divides`: every text is divided up to its end, or up to a place where reading
  fails; and it comes to the same when it is read byte by byte.
-/

namespace TreeLint

open Text

namespace Lexeme

/-! ## Strings and comments -/

/-- A text that can stand between quotes: each backslash has a character behind it, which it escapes
(`escape`), and no other character is a quote (`plain`). -/
inductive Quotable : List Char → Prop
  | nil : Quotable []
  | plain {c : Char} {cs : List Char} (hquote : c ≠ '"') (hescape : c ≠ '\\') (h : Quotable cs) :
      Quotable (c :: cs)
  | escape (c : Char) {cs : List Char} (h : Quotable cs) : Quotable ('\\' :: c :: cs)

theorem closeString?_of_quotable {inner : List Char} (h : Quotable inner) (rest : List Char) :
    closeString? (inner ++ '"' :: rest) = some (inner ++ ['"'], rest) := by
  induction h with
  | nil => rfl
  | @plain c cs hquote hescape _ ih =>
    rw [List.cons_append, closeString?.eq_4 _ _ hquote fun _ _ h => absurd h hescape, ih]
    rfl
  | escape c _ ih =>
    rw [List.cons_append, List.cons_append, closeString?, ih]
    rfl

theorem quotable_of_closeString? {cs body rest : List Char}
    (h : closeString? cs = some (body, rest)) :
    ∃ inner, Quotable inner ∧ body = inner ++ ['"'] := by
  fun_induction closeString? cs generalizing body rest with
  | case1 => cases h
  | case2 cs =>
    obtain ⟨rfl, -⟩ := Prod.mk.inj (Option.some.inj h)
    exact ⟨[], .nil, rfl⟩
  | case3 c cs ih =>
    obtain ⟨⟨front, back⟩, hclose, he⟩ := Option.map_eq_some_iff.mp h
    obtain ⟨rfl, -⟩ := Prod.mk.inj he
    obtain ⟨inner, hinner, rfl⟩ := ih hclose
    exact ⟨_, .escape c hinner, rfl⟩
  | case4 c cs hquote hescape ih =>
    obtain ⟨⟨front, back⟩, hclose, he⟩ := Option.map_eq_some_iff.mp h
    obtain ⟨rfl, -⟩ := Prod.mk.inj he
    obtain ⟨inner, hinner, rfl⟩ := ih hclose
    refine ⟨c :: inner, .plain hquote ?_ hinner, rfl⟩
    rintro rfl
    -- A backslash would have escaped the first character of the rest.
    cases cs with
    | nil => cases hclose
    | cons d cs => exact hescape d cs rfl rfl

/-- A long comment ends at the first place where it can: `inner` holds no end. -/
theorem not_infix_of_closeComment? {cs body rest : List Char}
    (h : closeComment? cs = some (body, rest)) :
    ∃ inner, body = inner ++ ['*', '/'] ∧ ¬ ['*', '/'] <:+: inner ++ ['*'] := by
  obtain ⟨⟨inner, back⟩, hcut, he⟩ := Option.map_eq_some_iff.mp h
  obtain ⟨rfl, rfl⟩ := Prod.mk.inj he
  refine ⟨inner, rfl, ?_⟩
  rintro ⟨before, after, hfound⟩
  have hcs : cs = before ++ (['*', '/'] ++ (after ++ '/' :: back)) := by
    have happend := congrArg (· ++ '/' :: back) hfound
    rw [← append_of_cutAt? hcut]
    simpa using happend.symm
  have hle := length_le_of_cutAt? (hcs ▸ hcut)
  have hlength := congrArg List.length hfound
  simp only [List.length_append, List.length_cons, List.length_nil] at hlength
  omega

/-! ## Between tokens -/

/-- A stretch that stands between tokens, in front of `rest`. -/
inductive Gap : List Char → (rest : List Char) → Prop
  | blank {c : Char} {rest : List Char} (h : isBlank c = true) : Gap [c] rest
  | lineComment {body rest : List Char} (h : '\n' ∉ body) (hend : ∀ c ∈ rest.head?, c = '\n') :
      Gap ('/' :: '/' :: body) rest
  | longComment {inner rest : List Char} (h : ¬ ['*', '/'] <:+: inner ++ ['*']) :
      Gap ('/' :: '*' :: (inner ++ ['*', '/'])) rest

theorem InFront.gap {l : Lexeme} {rest : List Char} (h : l.InFront rest)
    (hkind : ∀ kind, l.kind ≠ .token kind) : Gap l.chars rest := by
  obtain ⟨hformed, hends⟩ := h
  cases hformed with
  | blank hblank => exact .blank hblank
  | lineComment hbody => exact .lineComment (fun hmem => hbody _ hmem rfl) (hends rfl)
  | longComment hclose =>
    obtain ⟨inner, rfl, hfirst⟩ := not_infix_of_closeComment? hclose
    exact .longComment hfirst
  | name | number | string | mark => exact absurd rfl (hkind _)

/-! ## Where no lexeme stands -/

/-- A token can begin with `c`. -/
def StartsToken (c : Char) : Prop := ∃ kind body, (Lexeme.mk (.token kind) (c :: body)).Formed

/-- Why no lexeme stands in front of a text that begins at the byte `offset`. -/
inductive Fails (offset : Nat) : List Char → SnippetError → Prop
  | openComment {body : List Char} (h : ¬ ['*', '/'] <:+: body) :
      Fails offset ('/' :: '*' :: body) .unclosedComment
  | openString {body : List Char} (h : ∀ inner rest, Quotable inner → body ≠ inner ++ '"' :: rest) :
      Fails offset ('"' :: body) (.unclosedString offset)
  | noToken {c : Char} {rest : List Char} (h : ¬ StartsToken c) (hblank : isBlank c = false)
      (hcomment : c = '/' → rest.head? ≠ some '/' ∧ rest.head? ≠ some '*') :
      Fails offset (c :: rest) (.badCharacter c offset)

theorem StartsToken.cases {c : Char} (h : StartsToken c) :
    isNameStart c = true ∨ c.isDigit = true ∨ c = '"' ∨ c ∈ marks := by
  obtain ⟨kind, body, hformed⟩ := h
  cases hformed with
  | name hc => exact .inl hc
  | number hc => exact .inr (.inl hc)
  | string => exact .inr (.inr (.inl rfl))
  | mark hc => exact .inr (.inr (.inr hc))

theorem fails_of_next {offset : Nat} {c : Char} {cs : List Char} {e : SnippetError}
    (h : next offset c cs = .error e) : Fails offset (c :: cs) e := by
  -- Each branch of `next` that gives a lexeme is not the case; the others say what is missing.
  unfold next at h
  split at h
  · cases h
  rename_i hblank
  split at h
  · cases h
  rename_i hline
  split at h
  · rename_i hlong
    obtain ⟨rfl, hstar⟩ := hlong
    obtain ⟨body, rfl⟩ := List.head?_eq_some_iff.mp hstar
    split at h
    · cases h
    · rename_i hclose
      cases h
      exact .openComment (cutAt?_eq_none_iff.mp (Option.map_eq_none_iff.mp hclose))
  rename_i hlong
  split at h
  · cases h
  rename_i hname
  split at h
  · cases h
  rename_i hdigit
  split at h
  · rename_i hquote
    obtain rfl := hquote
    split at h
    · cases h
    · rename_i hclose
      cases h
      refine .openString fun inner rest hinner hcs => ?_
      rw [hcs, closeString?_of_quotable hinner] at hclose
      cases hclose
  rename_i hquote
  split at h
  · cases h
  · rename_i hmark
    cases h
    refine .noToken (fun hstart => ?_) (Bool.eq_false_iff.mpr hblank)
      fun hslash => ⟨fun hhead => hline ⟨hslash, hhead⟩, fun hhead => hlong ⟨hslash, hhead⟩⟩
    rcases hstart.cases with hc | hc | hc | hc
    · exact hname hc
    · exact hdigit hc
    · exact hquote hc
    · exact hmark hc

/-! ## What stands in front of a name or a number -/

theorem not_isNameRest_of_isBlank {c : Char} (h : isBlank c = true) : isNameRest c = false := by
  simp only [isBlank, Bool.or_eq_true, beq_iff_eq] at h
  rcases h with (((rfl | rfl) | rfl) | rfl) | rfl <;> decide

theorem not_isNameRest_of_mem_marks {c : Char} (h : c ∈ marks) : isNameRest c = false := by
  simp only [marks, List.mem_cons, List.not_mem_nil, or_false] at h
  rcases h with rfl | rfl | rfl | rfl | rfl | rfl | rfl | rfl | rfl <;> decide

theorem isNameRest_of_isDigit {c : Char} (h : c.isDigit = true) : isNameRest c = true := by
  simp [isNameRest, Char.isAlphanum, h]

/-- When the last character `d` of a lexeme `l` and the one behind it, `c`, could stand in one name,
`l` is a number and `c` is no digit. -/
theorem InFront.digits_of_last {l : Lexeme} {front rest : List Char} {c d : Char}
    (h : l.InFront (c :: rest)) (hc : isNameRest c = true) (hchars : l.chars = front ++ [d])
    (hd : isNameRest d = true) : (∀ b ∈ l.chars, b.isDigit = true) ∧ c.isDigit = false := by
  have hlast : l.chars.getLast? = some d := by rw [hchars, List.getLast?_concat]
  obtain ⟨hformed, hends⟩ := h
  cases hformed with
  | blank hblank =>
    obtain rfl := Option.some.inj hlast
    simp [not_isNameRest_of_isBlank hblank] at hd
  | lineComment =>
    obtain rfl := hends rfl c rfl
    exact absurd hc (by decide)
  | longComment hclose =>
    obtain ⟨inner, rfl, -⟩ := not_infix_of_closeComment? hclose
    obtain rfl : '/' = d := by simpa [List.getLast?_cons] using hlast
    exact absurd hd (by decide)
  | name =>
    have hend := hends c rfl
    rw [hc] at hend
    cases hend
  | number hdigit hbody => exact ⟨List.forall_mem_cons.mpr ⟨hdigit, hbody⟩, hends c rfl⟩
  | string hclose =>
    obtain ⟨inner, -, rfl⟩ := quotable_of_closeString? hclose
    obtain rfl : '"' = d := by simpa [List.getLast?_cons] using hlast
    exact absurd hd (by decide)
  | mark hmark =>
    obtain rfl := Option.some.inj hlast
    simp [not_isNameRest_of_mem_marks hmark] at hd

theorem Formed.isNameStart_of_name {c : Char} {body : List Char}
    (h : (Lexeme.mk (.token .name) (c :: body)).Formed) : isNameStart c = true := by
  cases h with
  | name hc => exact hc

theorem Formed.isDigit_of_number {chars : List Char}
    (h : (Lexeme.mk (.token .number) chars).Formed) : ∀ d ∈ chars, d.isDigit = true := by
  cases h with
  | number hc hbody => exact List.forall_mem_cons.mpr ⟨hc, hbody⟩

theorem Formed.isNameRest {l : Lexeme} (h : l.Formed)
    (hkind : l.kind = .token .name ∨ l.kind = .token .number) :
    ∀ d ∈ l.chars, isNameRest d = true := by
  cases h with
  | name hc hbody => exact List.forall_mem_cons.mpr ⟨isNameRest_of_isNameStart hc, hbody⟩
  | number hc hbody =>
    exact List.forall_mem_cons.mpr
      ⟨isNameRest_of_isDigit hc, fun d hd => isNameRest_of_isDigit (hbody d hd)⟩
  | blank | lineComment | longComment | string | mark => simp at hkind

/-- A name or a number `l` has all behind it that could belong to it: a longer one would go on with
`after`. -/
theorem InFront.eq_nil_of_longer {l : Lexeme} {before after rest : List Char}
    (h : l.InFront (after ++ rest)) (hkind : l.kind = .token .name ∨ l.kind = .token .number)
    (hlonger : (Lexeme.mk l.kind (before ++ l.chars ++ after)).Formed) : after = [] := by
  obtain ⟨-, hends⟩ := h
  cases after with
  | nil => rfl
  | cons d after =>
    obtain ⟨kind, chars⟩ := l
    have hmem : d ∈ before ++ chars ++ d :: after := by simp
    rcases hkind with rfl | rfl
    · have hno : Lexeme.isNameRest d = false := hends d rfl
      rw [hlonger.isNameRest (.inl rfl) d hmem] at hno
      cases hno
    · have hno : d.isDigit = false := hends d rfl
      rw [hlonger.isDigit_of_number d hmem] at hno
      cases hno

end Lexeme

/-! ## Names and numbers are as long as can be -/

/-- What stands in front of a character `c` that a name goes on with, `back`, and could stand in one
name with it is a part of a number, and `c` is no digit. -/
theorem Lexes.digits_of_suffix {ls : List Lexeme} {front back rest : List Char} {c : Char}
    (h : Lexes ls (c :: rest)) (hc : Lexeme.isNameRest c = true) (htext : textOf ls = front ++ back)
    (hback : ∀ d ∈ back, Lexeme.isNameRest d = true) (hne : back ≠ []) :
    (∀ d ∈ back, d.isDigit = true) ∧ c.isDigit = false := by
  induction ls using List.reverseRecOn generalizing c rest front back with
  | nil =>
    obtain ⟨-, rfl⟩ := List.append_eq_nil_iff.mp htext.symm
    exact absurd rfl hne
  | append_singleton ls l ih =>
    obtain ⟨hls, hl, -⟩ := lexes_append.mp h
    have hsingle : textOf [l] = l.chars := List.append_nil _
    rw [textOf_append, hsingle] at htext
    rw [hsingle] at hls
    obtain ⟨first, body, hchars⟩ := hl.1.exists_cons
    obtain ⟨init, last, hlast⟩ :=
      (List.eq_nil_or_concat' l.chars).resolve_left (hchars ▸ List.cons_ne_nil first body)
    have hmem : last ∈ back := by
      have hend : (front ++ back).getLast? = some last := by
        rw [← htext, hlast, ← List.append_assoc, List.getLast?_concat]
      rw [List.getLast?_append_of_ne_nil front hne] at hend
      exact List.mem_of_getLast? hend
    obtain ⟨hdigits, hno⟩ := hl.digits_of_last hc hlast (hback last hmem)
    refine ⟨?_, hno⟩
    rcases List.append_eq_append_iff.mp htext with ⟨middle, -, hmiddle⟩ | ⟨middle, hls', rfl⟩
    · exact fun d hd => hdigits d (hmiddle ▸ List.mem_append_right _ hd)
    · cases middle with
      | nil => simpa using hdigits
      | cons e middle =>
        -- The number itself is behind a character of a name, though it begins with a digit.
        have hfirst : first.isDigit = true := hdigits first (hchars ▸ List.mem_cons_self)
        rw [hchars, List.cons_append] at hls
        have hbefore := ih hls (Lexeme.isNameRest_of_isDigit hfirst) hls'
          (fun d hd => hback d (List.mem_append_left _ hd)) (List.cons_ne_nil _ _)
        rw [hfirst] at hbefore
        cases hbefore.2

/-- A name or a number `l` has all in front of it that could belong to it: a longer one would begin
with `before`. -/
theorem Lexes.eq_nil_of_longer {ls : List Lexeme} {l : Lexeme}
    {front before after rest : List Char} (h : Lexes ls (l.chars ++ rest)) (hformed : l.Formed)
    (hkind : l.kind = .token .name ∨ l.kind = .token .number) (htext : textOf ls = front ++ before)
    (hlonger : (Lexeme.mk l.kind (before ++ l.chars ++ after)).Formed) : before = [] := by
  have hword := hlonger.isNameRest hkind
  obtain ⟨kind, chars⟩ := l
  obtain ⟨c, body, rfl⟩ := hformed.exists_cons
  by_contra hne
  obtain ⟨hdigits, hno⟩ := h.digits_of_suffix (hword c (by simp)) htext
    (fun d hd => hword d (by simp [hd])) hne
  rcases hkind with rfl | rfl
  · -- The longer name begins with what is in front, where all are digits.
    obtain ⟨d, before, rfl⟩ := List.exists_cons_of_ne_nil hne
    have hstart := Lexeme.not_isNameStart_of_isDigit (hdigits d List.mem_cons_self)
    rw [hlonger.isNameStart_of_name] at hstart
    cases hstart
  · rw [hformed.isDigit_of_number c List.mem_cons_self] at hno
    cases hno

/-- A name `l` among lexemes is no part of a longer name `middle`, and a number no part of a longer
number. -/
theorem Lexes.eq_of_enclosed {ls ms : List Lexeme} {l : Lexeme} {front middle back rest : List Char}
    (h : Lexes (ls ++ l :: ms) rest) (hkind : l.kind = .token .name ∨ l.kind = .token .number)
    (htext : textOf (ls ++ l :: ms) ++ rest = front ++ middle ++ back)
    (hstart : byteSize front ≤ bytesOf ls)
    (hstop : bytesOf ls + l.size ≤ byteSize (front ++ middle))
    (hformed : (Lexeme.mk l.kind middle).Formed) : middle = l.chars := by
  obtain ⟨hls, hl, -⟩ := lexes_append.mp h
  rw [textOf_append, textOf_cons] at htext
  rw [textOf_cons, List.append_assoc] at hls
  obtain ⟨before, hbefore⟩ : ∃ before, textOf ls = front ++ before :=
    exists_append_of_byteSize_le (by simpa using htext.symm) hstart
  have hmiddle : before ++ l.chars ++ (textOf ms ++ rest) = middle ++ back := by
    rw [hbefore] at htext
    simpa using htext
  obtain ⟨after, rfl⟩ : ∃ after, middle = before ++ l.chars ++ after := by
    refine exists_append_of_byteSize_le hmiddle ?_
    have hsize : bytesOf ls = byteSize front + byteSize before := by
      rw [bytesOf, hbefore, byteSize_append]
    rw [byteSize_append] at hstop ⊢
    rw [Lexeme.size] at hstop
    omega
  have hafter : textOf ms ++ rest = after ++ back := by simpa using hmiddle
  rw [hafter] at hl
  rw [hls.eq_nil_of_longer hl.1 hkind hbefore hformed, hl.eq_nil_of_longer hkind hformed,
    List.nil_append, List.append_nil]

/-! ## Tokens and gaps -/

/-- No longer stretch of `text` around the token `t` is a token of its kind. -/
def Longest (text : List Char) (t : SnippetToken) : Prop :=
  ∀ front middle back, text = front ++ middle ++ back → byteSize front ≤ t.span.start →
    t.span.stop ≤ byteSize (front ++ middle) → (Lexeme.mk (.token t.kind) middle).Formed →
      middle = t.text.toList

/-- Byte `p` of the text belongs to a gap that ends at or before the byte `stop` and shares no byte
with a token. -/
def InGap (text : List Char) (tokens : List SnippetToken) (stop p : Nat) : Prop :=
  ∃ front middle back, text = front ++ middle ++ back ∧ Lexeme.Gap middle back ∧
    byteSize front ≤ p ∧ p < byteSize (front ++ middle) ∧ byteSize (front ++ middle) ≤ stop ∧
      ∀ t ∈ tokens, t.span.stop ≤ byteSize front ∨ byteSize (front ++ middle) ≤ t.span.start

/-- The text up to the byte `stop` is made of the tokens and of gaps. -/
structure Divides (text : List Char) (tokens : List SnippetToken) (stop : Nat) : Prop where
  /-- The tokens stand one behind the other, none is empty, and the last ends by `stop`. -/
  laid : Laid 0 tokens stop
  boundary : Boundary text stop
  /-- A token begins and ends at a boundary. -/
  ends : ∀ t ∈ tokens, Boundary text t.span.start ∧ Boundary text t.span.stop
  /-- The text of a token stands between its ends. -/
  slice : ∀ t ∈ tokens, slice? text t.span.start t.span.stop = some t.text.toList
  /-- The text of a token is one of its kind. -/
  formed : ∀ t ∈ tokens, (Lexeme.mk (.token t.kind) t.text.toList).Formed
  longest : ∀ t ∈ tokens, t.kind = .name ∨ t.kind = .number → Longest text t
  /-- What is in no token is in a gap. -/
  gap : ∀ p < stop, (∃ t ∈ tokens, t.span.start ≤ p ∧ p < t.span.stop) ∨ InGap text tokens stop p

/-- A byte `p` of the lexemes `ls` belongs to one of them, `l`. -/
theorem exists_append_of_lt_bytesOf {ls : List Lexeme} {p : Nat} (h : p < bytesOf ls) :
    ∃ front l back, ls = front ++ l :: back ∧ bytesOf front ≤ p ∧ p < bytesOf front + l.size := by
  induction ls generalizing p with
  | nil => cases h
  | cons l ls ih =>
    by_cases hp : p < l.size
    · exact ⟨[], l, ls, rfl, Nat.zero_le _, by simpa using hp⟩
    · rw [bytesOf_cons] at h
      obtain ⟨front, m, back, rfl, hstart, hstop⟩ := @ih (p - l.size) (by omega)
      exact ⟨l :: front, m, back, rfl, by rw [bytesOf_cons]; omega, by rw [bytesOf_cons]; omega⟩

theorem Lexes.inGap {ls ms : List Lexeme} {l : Lexeme} {rest : List Char} {p : Nat}
    (h : Lexes (ls ++ l :: ms) rest) (hkind : ∀ kind, l.kind ≠ .token kind)
    (hstart : bytesOf ls ≤ p) (hstop : p < bytesOf ls + l.size) :
    InGap (textOf (ls ++ l :: ms) ++ rest) (tokensAt 0 (ls ++ l :: ms))
      (bytesOf (ls ++ l :: ms)) p := by
  obtain ⟨hls, hl, hms⟩ := lexes_append.mp h
  have hsize : byteSize (textOf ls ++ l.chars) = bytesOf ls + l.size := byteSize_append _ _
  refine ⟨textOf ls, l.chars, textOf ms ++ rest, by simp, hl.gap hkind, hstart, hsize ▸ hstop,
    by rw [hsize, bytesOf_append, bytesOf_cons]; omega, fun t ht => ?_⟩
  rw [tokensAt_append, tokensAt, Lexeme.token?_eq_none_iff.mpr hkind] at ht
  rw [hsize]
  rcases List.mem_append.mp ht with ht | ht
  · have hle := ((hls.laid 0).mem ht).2.2
    rw [Nat.zero_add] at hle
    exact .inl hle
  · rw [Nat.zero_add] at ht
    exact .inr ((hms.laid _).mem ht).1

/-- A token `t` among the lexemes `ls` is one of them, `l`. -/
theorem exists_append_of_mem_tokensAt {ls : List Lexeme} {t : SnippetToken}
    (ht : t ∈ tokensAt 0 ls) : ∃ front l back, ls = front ++ l :: back ∧ l.kind = .token t.kind ∧
      t.span = ⟨bytesOf front, bytesOf front + l.size⟩ ∧ t.text.toList = l.chars := by
  obtain ⟨ts, us, hts⟩ := List.append_of_mem ht
  obtain ⟨front, l, back, rfl, -, htoken, -⟩ := exists_append_of_tokensAt hts
  obtain ⟨hkind, hspan, htext⟩ := Lexeme.token?_eq_some_iff.mp htoken
  rw [Nat.zero_add] at hspan
  exact ⟨front, l, back, rfl, hkind, hspan, by rw [htext, String.toList_ofList]⟩

theorem Lexes.divides {ls : List Lexeme} {rest : List Char} (h : Lexes ls rest) :
    Divides (textOf ls ++ rest) (tokensAt 0 ls) (bytesOf ls) where
  laid := by simpa using h.laid 0
  boundary := ⟨textOf ls, rest, rfl, rfl⟩
  ends t ht := by
    obtain ⟨front, l, back, rfl, -, hspan, -⟩ := exists_append_of_mem_tokensAt ht
    rw [hspan]
    exact ⟨⟨textOf front, l.chars ++ (textOf back ++ rest), by simp, rfl⟩,
      ⟨textOf front ++ l.chars, textOf back ++ rest, by simp, byteSize_append _ _⟩⟩
  slice t ht := by
    obtain ⟨front, l, back, rfl, -, hspan, htext⟩ := exists_append_of_mem_tokensAt ht
    have hslice := slice?_append (textOf front) l.chars (textOf back ++ rest)
    rw [hspan, htext]
    simpa [bytesOf, Lexeme.size] using hslice
  formed t ht := by
    obtain ⟨front, l, back, rfl, hkind, -, htext⟩ := exists_append_of_mem_tokensAt ht
    rw [htext, ← hkind]
    exact (lexes_append.mp h).2.1.1
  longest t ht hkind := by
    obtain ⟨ls, l, ms, rfl, htoken, hspan, htext⟩ := exists_append_of_mem_tokensAt ht
    intro front middle back happend hstart hstop hformed
    rw [hspan] at hstart hstop
    rw [htext]
    exact h.eq_of_enclosed (by simpa [htoken] using hkind) happend hstart hstop (htoken ▸ hformed)
  gap p hp := by
    obtain ⟨front, l, back, rfl, hstart, hstop⟩ := exists_append_of_lt_bytesOf hp
    cases htoken : l.token? (bytesOf front) with
    | none => exact .inr (h.inGap (Lexeme.token?_eq_none_iff.mp htoken) hstart hstop)
    | some t =>
      obtain ⟨-, hspan, -⟩ := Lexeme.token?_eq_some_iff.mp htoken
      refine .inl ⟨t, ?_, by rw [hspan]; exact hstart, by rw [hspan]; exact hstop⟩
      rw [tokensAt_append, Nat.zero_add, tokensAt, htoken]
      simp

/-! ## Every text -/

/-- Where reading fails with `e`, lexemes `ls` stand in front of the place. -/
theorem SnippetToken.exists_lexes_of_scan_error : ∀ {offset : Nat} {text : List Char}
    {e : SnippetError}, scan offset text = .error e →
      ∃ ls rest, textOf ls ++ rest = text ∧ Lexes ls rest ∧
        Lexeme.Fails (offset + bytesOf ls) rest e
  | _, [], _, h => by simp [scan] at h
  | offset, c :: cs, e, h => by
    cases hnext : Lexeme.next offset c cs with
    | error e' =>
      rw [scan_cons_of_error hnext] at h
      cases h
      exact ⟨[], c :: cs, rfl, trivial, Lexeme.fails_of_next hnext⟩
    | ok found =>
      obtain ⟨kind, lexeme, rest⟩ := found
      obtain ⟨body, rfl, rfl⟩ := Lexeme.append_of_next hnext
      rw [scan_cons hnext] at h
      cases hscan : scan (offset + (Lexeme.mk kind (c :: body)).size) rest with
      | ok tokens =>
        rw [hscan] at h
        cases h
      | error e' =>
        rw [hscan] at h
        cases h
        have := Lexeme.length_lt_of_next hnext
        obtain ⟨ls, rest, rfl, hlexes, hfails⟩ := exists_lexes_of_scan_error hscan
        refine ⟨⟨kind, c :: body⟩ :: ls, rest, by simp, ⟨Lexeme.inFront_of_next hnext, hlexes⟩, ?_⟩
        rwa [bytesOf_cons, ← Nat.add_assoc]
termination_by _ text => text.length

/-- **Tokens divide a text.** Every `text` is read. Byte by byte the reading comes to the same, and
no cut fails in it. What is read divides the text (`Divides`), up to its end or up to the place of
the error `e`, where no lexeme stands (`Lexeme.Fails`). -/
theorem SnippetToken.ofText_divides (text : String) :
    ByteReader.tokens? text.toList 0 = some (ByteReader.report (ofText text)) ∧
      match ofText text with
      | .ok tokens => Divides text.toList tokens (byteSize text.toList)
      | .error e => ∃ tokens front rest, text.toList = front ++ rest ∧
          Divides text.toList tokens (byteSize front) ∧ Lexeme.Fails (byteSize front) rest e := by
  refine ⟨ByteReader.tokens?_append [] text.toList, ?_⟩
  cases hscan : ofText text with
  | ok tokens =>
    obtain ⟨ls, htext, hlexes, rfl⟩ := exists_lexes_of_scan hscan
    have hdivides := hlexes.divides
    rwa [List.append_nil, bytesOf, htext] at hdivides
  | error e =>
    obtain ⟨ls, rest, htext, hlexes, hfails⟩ := exists_lexes_of_scan_error hscan
    rw [Nat.zero_add] at hfails
    exact ⟨tokensAt 0 ls, textOf ls, rest, htext.symm, htext ▸ hlexes.divides, hfails⟩

/-- A backslash skips the first byte of the character behind it, and the other bytes of it are
passed over one by one. -/
example : ByteReader.tokens? "\"\\é\" x".toList 0 =
    some (.ok [(.string, ⟨0, 5⟩), (.name, ⟨6, 7⟩)]) := by decide +kernel

end TreeLint
