import Mathlib.Data.List.Basic
import Mathlib.Tactic.IntervalCases
import TreeLint.Json.Printer
import TreeLint.Json.Token

/-!
# The tokens of a printed value
-/

namespace TreeLint

namespace JsonToken

/-! ## Strings -/

theorem hexValue?_hexDigit : ∀ n < 16, hexValue? (Json.hexDigit n) = some n := by decide

theorem unit?_hexDigits {n : Nat} (h : n < 256) :
    unit? '0' '0' (Json.hexDigit (n / 16)) (Json.hexDigit (n % 16)) = some n := by
  have hzero : hexValue? '0' = some 0 := by decide
  have hhigh := hexValue?_hexDigit (n / 16) (by omega)
  have hlow := hexValue?_hexDigit (n % 16) (by omega)
  simp only [unit?, hzero, hhigh, hlow]
  exact congrArg some (by omega)

/-- A character `c` of a literal that is escaped with one letter, `e`. -/
theorem pieces?_short {e c : Char} (h : shortEscape? e = some c) (hu : e ≠ 'u') (cs : List Char) :
    pieces? ('\\' :: e :: cs) = (pieces? cs).map fun (ps, rest) => (.char c :: ps, rest) := by
  rw [pieces?]
  · rw [h]
    cases pieces? cs <;> rfl
  · rintro a b c d cs' heq -
    exact hu heq

/-- A character `c` of a literal that stands for itself. -/
theorem pieces?_plain {c : Char} (hquote : c ≠ '"') (hback : c ≠ '\\') (hc : ¬ c < ' ')
    (cs : List Char) :
    pieces? (c :: cs) = (pieces? cs).map fun (ps, rest) => (.char c :: ps, rest) := by
  rw [pieces?]
  · have hplain : (decide (c < ' ') || c == '\\') = false := by simp [hc, hback]
    rw [hplain]
    cases pieces? cs <;> rfl
  all_goals intros; simp_all

/-- A character `c` is read back from what `Json.escape` writes for it. -/
theorem exists_piece (c : Char) : ∃ p : Piece,
    (∀ cs, pieces? (Json.escape c ++ cs) = (pieces? cs).map fun (ps, rest) => (p :: ps, rest)) ∧
      ∀ ps, chars? (p :: ps) = (chars? ps).map (c :: ·) := by
  unfold Json.escape
  split
  -- The other cases are the characters with a letter of their own.
  case h_8 _ hquote hback _ _ _ _ _ =>
    split
    · rename_i hc
      have hlt : c.toNat < 32 := hc
      refine ⟨.unit c.toNat, fun cs => ?_, fun ps => ?_⟩
      · simp only [List.cons_append, List.nil_append]
        rw [pieces?, unit?_hexDigits (by omega)]
        cases pieces? cs <;> rfl
      · have hchar : unitChar? c.toNat none = some c := by
          rw [unitChar?, if_neg (by omega), Char.ofNat_toNat]
        simp [chars?, hchar]
    · rename_i hc
      exact ⟨.char c, pieces?_plain hquote hback hc, fun ps => by rw [chars?]⟩
  all_goals exact ⟨.char _, pieces?_short (by rfl) (by decide), fun ps => by rw [chars?]⟩

theorem exists_pieces (cs rest : List Char) : ∃ ps,
    pieces? (cs.flatMap Json.escape ++ '"' :: rest) = some (ps, rest) ∧ chars? ps = some cs := by
  induction cs with
  | nil => exact ⟨[], by rw [List.flatMap_nil, List.nil_append, pieces?], rfl⟩
  | cons c cs ih =>
    obtain ⟨ps, hps, hcs⟩ := ih
    obtain ⟨p, hp, hc⟩ := exists_piece c
    refine ⟨p :: ps, ?_, by rw [hc, hcs]; rfl⟩
    rw [List.flatMap_cons, List.append_assoc, hp, hps]
    rfl

/-- A string `s` is read back from what `Json.quote` writes for it. -/
theorem first?_quote (s : String) (rest : List Char) :
    first? (Json.quote s ++ rest) = some (.scalar (.string (some s)), rest) := by
  obtain ⟨ps, hps, hcs⟩ := exists_pieces s.toList rest
  rw [Json.quote, List.cons_append, List.append_assoc, List.singleton_append, first?, hps]
  simp [hcs]

/-! ## Numbers -/

/-- What stands behind a value in a text, `rest`: nothing, a blank, or a mark that ends the
value. -/
def Ends (rest : List Char) : Prop :=
  ∀ c ∈ rest.head?, c ∈ [',', ']', '\x7d', ' ', '\t', '\n', '\r']

theorem ends_of_isBlank {c : Char} (h : isBlank c = true) (rest : List Char) :
    Ends (c :: rest) := by
  simp only [isBlank, Bool.or_eq_true, beq_iff_eq] at h
  rcases h with ((rfl | rfl) | rfl) | rfl <;> simp [Ends]

theorem Ends.cases {P : Char → Prop} {c : Char} {rest : List Char} (h : Ends (c :: rest))
    (hall : ∀ c ∈ [',', ']', '\x7d', ' ', '\t', '\n', '\r'], P c) : P c := hall c (h c rfl)

theorem digitsValue_toDigits (n : Nat) : digitsValue (Nat.toDigits 10 n) = n := by
  rw [digitsValue]
  simpa [Nat.ofDigitChars_eq_foldl, Nat.mul_comm] using Nat.ofDigitChars_ten_toDigits (n := n)

/-- Only zero is written with a zero in front, so a positive `n` is not. -/
theorem head?_toDigits {n : Nat} (h : 0 < n) : (Nat.toDigits 10 n).head? ≠ some '0' := by
  induction n using Nat.strong_induction_on with
  | _ n ih =>
    by_cases hn : n < 10
    · rw [Nat.toDigits_of_lt_base hn]
      interval_cases n <;> decide
    · have hn := Nat.le_of_not_lt hn
      rw [Nat.toDigits_of_base_le (by decide) hn,
        List.head?_append_of_ne_nil _ Nat.toDigits_ne_nil]
      exact ih (n / 10) (by omega) (by omega)

theorem digits?_toDigits {n : Nat} {rest : List Char} (h : Ends rest) :
    digits? (Nat.toDigits 10 n ++ rest) = some (Nat.toDigits 10 n, rest) := by
  have hall : ∀ c ∈ Nat.toDigits 10 n, c.isDigit = true := fun c hc =>
    Nat.isDigit_of_mem_toDigits (by decide) (by decide) hc
  have hrest : rest.takeWhile Char.isDigit = [] ∧ rest.dropWhile Char.isDigit = rest := by
    cases rest with
    | nil => exact ⟨rfl, rfl⟩
    | cons c rest =>
      have hc : c.isDigit = false := h.cases (P := fun c => c.isDigit = false) (by simp)
      simp [hc]
  rw [digits?, List.takeWhile_append_of_pos hall, List.dropWhile_append_of_pos hall, hrest.1,
    hrest.2, List.append_nil]
  cases hdigits : Nat.toDigits 10 n with
  | nil => exact (Nat.toDigits_ne_nil hdigits).elim
  | cons c cs => rfl

theorem unsigned?_toDigits (n : Nat) {rest : List Char} (h : Ends rest) :
    unsigned? false (Nat.toDigits 10 n ++ rest) = some ({ whole := n }, rest) := by
  have hzero : ¬ ((Nat.toDigits 10 n).head? = some '0' ∧ (Nat.toDigits 10 n).length ≠ 1) := by
    rintro ⟨hhead, hlength⟩
    rcases Nat.eq_zero_or_pos n with rfl | hn
    · exact hlength (by rw [Nat.toDigits_zero]; rfl)
    · exact head?_toDigits hn hhead
  have hfraction : fraction? rest = some ([], rest) := by
    cases rest with
    | nil => rfl
    | cons c rest =>
      exact h.cases (P := fun c => fraction? (c :: rest) = some ([], c :: rest))
        (by simp [fraction?])
  have hexponent : exponent? rest = some (none, rest) := by
    cases rest with
    | nil => rfl
    | cons c rest =>
      exact h.cases (P := fun c => exponent? (c :: rest) = some (none, c :: rest))
        (by simp [exponent?])
  simp only [unsigned?, digits?_toDigits h, if_neg hzero, hfraction, hexponent,
    digitsValue_toDigits]

/-- A text that begins with a digit `c` begins with a number. -/
theorem first?_of_isDigit {c : Char} (hc : c.isDigit = true) (cs : List Char) :
    first? (c :: cs) =
      (unsigned? false (c :: cs)).map fun (n, rest) => (.scalar (.number n), rest) := by
  have hnumber : number? (c :: cs) = unsigned? false (c :: cs) := by
    rw [number?]
    rintro cs' heq
    rw [(List.cons.inj heq).1] at hc
    revert hc
    decide
  rw [first?, hnumber]
  · cases unsigned? false (c :: cs) <;> rfl
  all_goals
    rintro _ heq
    rw [(List.cons.inj heq).1] at hc
    revert hc
    decide

/-- A number `n` is read back from its digits. -/
theorem first?_toDigits (n : Nat) {rest : List Char} (h : Ends rest) :
    first? (Nat.toDigits 10 n ++ rest) = some (.scalar (.number { whole := n }), rest) := by
  have hread := unsigned?_toDigits n h
  cases hdigits : Nat.toDigits 10 n with
  | nil => exact (Nat.toDigits_ne_nil hdigits).elim
  | cons c cs =>
    have hc : c.isDigit = true := Nat.isDigit_of_mem_toDigits (b := 10) (n := n) (by decide)
      (by decide) (hdigits ▸ List.mem_cons_self)
    rw [hdigits] at hread
    rw [List.cons_append] at hread ⊢
    rw [first?_of_isDigit hc, hread]
    rfl

/-! ## Texts -/

/-- The `blanks` in front of `rest` are passed over. -/
theorem ofText?_blanks {blanks : List Char} (h : ∀ c ∈ blanks, isBlank c = true)
    (rest : List Char) : ofText? (blanks ++ rest) = ofText? rest := by
  induction blanks with
  | nil => rfl
  | cons c blanks ih =>
    obtain ⟨hc, hblanks⟩ := List.forall_mem_cons.mp h
    rw [List.cons_append, ofText?, if_pos hc, ih hblanks]

theorem ofText?_of_first? {c : Char} {cs rest : List Char} {t : JsonToken} (hc : isBlank c = false)
    (h : first? (c :: cs) = some (t, rest)) : ofText? (c :: cs) = (ofText? rest).map (t :: ·) := by
  rw [ofText?, hc]
  simp only [Bool.false_eq_true, if_false]
  split
  · simp_all
  · simp_all

end JsonToken

end TreeLint
