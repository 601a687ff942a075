import TreeLint.Json.Value

/-!
# JSON tokens

`JsonToken.ofText?` cuts a text into tokens and drops the blanks between them. It checks all that
can be seen inside one token: the form of numbers, the escapes of strings, and that a string holds
no control character.
-/

namespace TreeLint

/-- A token of a JSON text. -/
inductive JsonToken where
  | openArray
  | closeArray
  | openObject
  | closeObject
  | comma
  | colon
  /-- A value that is one token: a string, a number, `true`, `false` or `null`. -/
  | scalar (value : Json)
  deriving Repr, Inhabited

namespace JsonToken

/-! ## Strings -/

/-- A part of a string literal: a character, or a UTF-16 unit written in hexadecimal. -/
inductive Piece where
  | char (c : Char)
  | unit (u : Nat)
  deriving DecidableEq, Repr

/-- The value of a hexadecimal digit. -/
def hexValue? (c : Char) : Option Nat :=
  if c.isDigit then some (c.toNat - '0'.toNat)
  else if 'a' ≤ c ∧ c ≤ 'f' then some (c.toNat - 'a'.toNat + 10)
  else if 'A' ≤ c ∧ c ≤ 'F' then some (c.toNat - 'A'.toNat + 10)
  else none

/-- The character that a one-letter escape stands for. -/
def shortEscape? : Char → Option Char
  | '"' => some '"'
  | '\\' => some '\\'
  | '/' => some '/'
  | 'b' => some '\x08'
  | 'f' => some '\x0c'
  | 'n' => some '\n'
  | 'r' => some '\r'
  | 't' => some '\t'
  | _ => none

/-- The UTF-16 unit that four hexadecimal digits stand for. -/
def unit? (a b c d : Char) : Option Nat := do
  some ((((← hexValue? a) * 16 + (← hexValue? b)) * 16 + (← hexValue? c)) * 16 + (← hexValue? d))

/-- The parts of a string literal up to its closing quote, and the text behind it. -/
def pieces? : List Char → Option (List Piece × List Char)
  | [] => none
  | '"' :: cs => some ([], cs)
  | '\\' :: 'u' :: a :: b :: c :: d :: cs =>
    match unit? a b c d, pieces? cs with
    | some u, some (ps, rest) => some (.unit u :: ps, rest)
    | _, _ => none
  | '\\' :: e :: cs =>
    match shortEscape? e, pieces? cs with
    | some c, some (ps, rest) => some (.char c :: ps, rest)
    | _, _ => none
  | c :: cs =>
    if c < ' ' || c == '\\' then none
    else
      match pieces? cs with
      | some (ps, rest) => some (.char c :: ps, rest)
      | none => none

/-- The character that a unit outside the surrogates stands for, or a leading and a trailing
surrogate together. -/
def unitChar? (lead : Nat) (trail : Option Nat) : Option Char :=
  match trail with
  | none => if 0xD800 ≤ lead ∧ lead ≤ 0xDFFF then none else some (.ofNat lead)
  | some trail =>
    if 0xD800 ≤ lead ∧ lead ≤ 0xDBFF ∧ 0xDC00 ≤ trail ∧ trail ≤ 0xDFFF then
      some (.ofNat (0x10000 + (lead - 0xD800) * 0x400 + (trail - 0xDC00)))
    else none

/-- The characters of a string literal; `none` when a half of a surrogate pair stands alone. -/
def chars? : List Piece → Option (List Char)
  | [] => some []
  | .char c :: rest => (chars? rest).map (c :: ·)
  | .unit u :: rest =>
    match unitChar? u none, rest with
    | some c, rest => (chars? rest).map (c :: ·)
    | none, .unit v :: rest => do
      let c ← unitChar? u (some v)
      (chars? rest).map (c :: ·)
    | none, _ => none

/-! ## Numbers -/

/-- The number that the decimal `digits` stand for. -/
def digitsValue (digits : List Char) : Nat :=
  digits.foldl (fun sum c => sum * 10 + (c.toNat - '0'.toNat)) 0

/-- The digits in front of the text `cs`, and the text behind them; `none` when there is no
digit. -/
def digits? (cs : List Char) : Option (List Char × List Char) :=
  match cs.takeWhile Char.isDigit with
  | [] => none
  | digits => some (digits, cs.dropWhile Char.isDigit)

/-- The exponent in front of a text, if there is one. Fails on an `e` without digits. -/
def exponent? : List Char → Option (Option Int × List Char)
  | 'e' :: cs | 'E' :: cs =>
    match cs with
    | '-' :: cs => (digits? cs).map fun (ds, rest) => (some (-(digitsValue ds : Int)), rest)
    | '+' :: cs => (digits? cs).map fun (ds, rest) => (some (digitsValue ds : Int), rest)
    | cs => (digits? cs).map fun (ds, rest) => (some (digitsValue ds : Int), rest)
  | cs => some (none, cs)

/-- The fraction in front of a text, if there is one. Fails on a point without digits. -/
def fraction? : List Char → Option (List Char × List Char)
  | '.' :: cs => digits? cs
  | cs => some ([], cs)

/-- The number without a sign in front of the text `cs`. A zero stands alone before the point. -/
def unsigned? (negative : Bool) (cs : List Char) : Option (JsonNumber × List Char) :=
  match digits? cs with
  | none => none
  | some (whole, cs) =>
    if whole.head? = some '0' ∧ whole.length ≠ 1 then none
    else
      match fraction? cs with
      | none => none
      | some (fraction, cs) =>
        match exponent? cs with
        | none => none
        | some (exponent, cs) => some (⟨negative, digitsValue whole, fraction, exponent⟩, cs)

/-- The number in front of a text. -/
def number? : List Char → Option (JsonNumber × List Char)
  | '-' :: cs => unsigned? true cs
  | cs => unsigned? false cs

/-! ## Texts -/

/-- The blanks between tokens. -/
def isBlank (c : Char) : Bool := c == ' ' || c == '\t' || c == '\n' || c == '\r'

/-- The token in front of a text that begins with no blank, and the text behind it. -/
def first? : List Char → Option (JsonToken × List Char)
  | '[' :: cs => some (.openArray, cs)
  | ']' :: cs => some (.closeArray, cs)
  | '{' :: cs => some (.openObject, cs)
  | '}' :: cs => some (.closeObject, cs)
  | ',' :: cs => some (.comma, cs)
  | ':' :: cs => some (.colon, cs)
  | '"' :: cs =>
    match pieces? cs with
    | some (ps, rest) => some (.scalar (.string ((chars? ps).map String.ofList)), rest)
    | none => none
  | 't' :: 'r' :: 'u' :: 'e' :: cs => some (.scalar (.bool true), cs)
  | 'f' :: 'a' :: 'l' :: 's' :: 'e' :: cs => some (.scalar (.bool false), cs)
  | 'n' :: 'u' :: 'l' :: 'l' :: cs => some (.scalar .null, cs)
  | cs =>
    match number? cs with
    | some (n, rest) => some (.scalar (.number n), rest)
    | none => none

/-! ## Every token takes at least one character -/

theorem length_of_pieces? {cs rest : List Char} {ps : List Piece}
    (h : pieces? cs = some (ps, rest)) : rest.length < cs.length := by
  fun_induction pieces? cs generalizing ps with
  | case1 => simp at h
  | case2 cs => simp_all
  | case3 a b c d cs u ps' rest' hr _ ih =>
    obtain ⟨-, rfl⟩ := Prod.mk.inj (Option.some.inj h)
    have := ih hr
    simp only [List.length_cons]
    omega
  | case4 => simp at h
  | case5 e cs _ c ps' rest' hr _ ih =>
    obtain ⟨-, rfl⟩ := Prod.mk.inj (Option.some.inj h)
    have := ih hr
    simp only [List.length_cons]
    omega
  | case6 => simp at h
  | case7 => simp at h
  | case8 c cs _ _ _ _ ps' rest' hr ih =>
    obtain ⟨-, rfl⟩ := Prod.mk.inj (Option.some.inj h)
    have := ih hr
    simp only [List.length_cons]
    omega
  | case9 => simp at h

theorem length_of_digits? {cs ds rest : List Char} (h : digits? cs = some (ds, rest)) :
    rest.length < cs.length := by
  unfold digits? at h
  split at h
  · simp at h
  · next hne =>
    obtain ⟨rfl, rfl⟩ := Prod.mk.inj (Option.some.inj h)
    have hsplit := congrArg List.length
      (List.takeWhile_append_dropWhile (p := Char.isDigit) (l := cs))
    have hpos : 0 < (cs.takeWhile Char.isDigit).length :=
      List.length_pos_iff.2 fun h0 => hne h0
    rw [List.length_append] at hsplit
    omega

theorem length_of_fraction? {cs ds rest : List Char} (h : fraction? cs = some (ds, rest)) :
    rest.length ≤ cs.length := by
  unfold fraction? at h
  split at h
  · have := length_of_digits? h
    simp only [List.length_cons]
    omega
  · simp_all

theorem length_of_exponent? {cs rest : List Char} {e : Option Int}
    (h : exponent? cs = some (e, rest)) : rest.length ≤ cs.length := by
  have bound {f : List Char × List Char → Option Int × List Char} {cs : List Char}
      (hf : ∀ p, (f p).2 = p.2) (h : (digits? cs).map f = some (e, rest)) :
      rest.length < cs.length := by
    obtain ⟨p, hp, hfp⟩ := Option.map_eq_some_iff.1 h
    have := length_of_digits? hp
    rwa [← hf p, hfp] at this
  unfold exponent? at h
  split at h
  · split at h <;> · have := bound (fun _ => rfl) h; simp only [List.length_cons]; omega
  · split at h <;> · have := bound (fun _ => rfl) h; simp only [List.length_cons]; omega
  · simp_all

theorem length_of_unsigned? {cs rest : List Char} {negative : Bool} {n : JsonNumber}
    (h : unsigned? negative cs = some (n, rest)) : rest.length < cs.length := by
  simp only [unsigned?] at h
  split at h
  · simp at h
  · next hwhole =>
    have := length_of_digits? hwhole
    split at h
    · simp at h
    · split at h
      · simp at h
      · next hfraction =>
        have := length_of_fraction? hfraction
        split at h
        · simp at h
        · next hexponent =>
          have := length_of_exponent? hexponent
          obtain ⟨-, rfl⟩ := Prod.mk.inj (Option.some.inj h)
          omega

theorem length_of_number? {cs rest : List Char} {n : JsonNumber}
    (h : number? cs = some (n, rest)) : rest.length < cs.length := by
  unfold number? at h
  split at h
  · have := length_of_unsigned? h
    simp only [List.length_cons]
    omega
  · exact length_of_unsigned? h

theorem length_of_first? {cs rest : List Char} {t : JsonToken}
    (h : first? cs = some (t, rest)) : rest.length < cs.length := by
  unfold first? at h
  split at h
  case h_7 =>
    split at h
    · next hp =>
      have := length_of_pieces? hp
      obtain ⟨-, rfl⟩ := Prod.mk.inj (Option.some.inj h)
      simp only [List.length_cons]
      omega
    · simp at h
  case h_11 =>
    split at h
    · next hn =>
      have := length_of_number? hn
      obtain ⟨-, rfl⟩ := Prod.mk.inj (Option.some.inj h)
      omega
    · simp at h
  all_goals
    obtain ⟨-, rfl⟩ := Prod.mk.inj (Option.some.inj h)
    simp only [List.length_cons]
    omega

/-- The tokens of the text `cs`; `none` when some part of it is no token. -/
def ofText? (cs : List Char) : Option (List JsonToken) :=
  match cs with
  | [] => some []
  | c :: rest =>
    if isBlank c then ofText? rest
    else
      match h : first? (c :: rest) with
      | none => none
      | some (t, rest) =>
        have := length_of_first? h
        (ofText? rest).map (t :: ·)
termination_by cs.length
decreasing_by
  · simp only [List.length_cons]; omega
  · assumption

end JsonToken

end TreeLint
