import TreeLint.Span

/-!
# Character boundaries

`Text.isBoundary` cuts the text to see whether an offset is usable. Here the same is said of the
text alone: `Text.Boundary` when the text can be parted there, `Text.InsideChar` when the offset
lies within one character.

* `boundary_iff_not_insideChar`: up to the end of the text, an offset is one or the other.
* `Span.fits_iff`, `Span.not_fits_iff`: when a span can be cut out of a text, and when it `Misfits`.
-/

namespace TreeLint

namespace Text

/-- Byte `n` of `text` begins a character or is the end of the text. -/
def Boundary (text : List Char) (n : Nat) : Prop :=
  ∃ front back, text = front ++ back ∧ byteSize front = n

/-- Byte `n` of `text` belongs to a character that begins before it. -/
def InsideChar (text : List Char) (n : Nat) : Prop :=
  ∃ front c back, text = front ++ c :: back ∧ byteSize front < n ∧ n < byteSize front + c.utf8Size

/-- A cut is determined by the size of its first part, `a` or `c`. -/
theorem append_inj_of_byteSize {a b c d : List Char} (h : a ++ b = c ++ d)
    (hs : byteSize a = byteSize c) : a = c ∧ b = d := by
  have hab := splitAt?_append a b
  rw [h, hs, splitAt?_append c d] at hab
  simp only [Option.some.injEq, Prod.mk.injEq] at hab
  exact ⟨hab.1.symm, hab.2.symm⟩

/-- Of two beginnings of one text, the smaller, `a`, begins the larger, `c`. -/
theorem exists_append_of_byteSize_le {a b c d : List Char} (h : a ++ b = c ++ d)
    (hs : byteSize a ≤ byteSize c) : ∃ m, c = a ++ m := by
  rcases List.append_eq_append_iff.mp h with ⟨m, hm, -⟩ | ⟨m, rfl, -⟩
  · exact ⟨m, hm⟩
  · rw [byteSize_append] at hs
    obtain ⟨hc, -⟩ := append_inj_of_byteSize (a := c ++ m) (b := b) (c := c) (d := m ++ b)
      (List.append_assoc c m b) (by rw [byteSize_append]; omega)
    exact ⟨[], by rw [List.append_nil, hc]⟩

theorem isBoundary_iff {text : List Char} {n : Nat} : isBoundary text n = true ↔ Boundary text n := by
  unfold isBoundary
  constructor
  · intro h
    obtain ⟨⟨front, back⟩, hs⟩ := Option.isSome_iff_exists.mp h
    obtain ⟨ht, hn⟩ := append_of_splitAt? hs
    exact ⟨front, back, ht.symm, hn⟩
  · rintro ⟨front, back, rfl, rfl⟩
    simp

theorem Boundary.le {text : List Char} {n : Nat} (h : Boundary text n) : n ≤ byteSize text := by
  obtain ⟨front, back, rfl, rfl⟩ := h
  simp

/-- An offset `n` up to the end of `text` is a boundary or lies inside a character. -/
theorem boundary_or_insideChar {text : List Char} {n : Nat} (hn : n ≤ byteSize text) :
    Boundary text n ∨ InsideChar text n := by
  induction text generalizing n with
  | nil => exact .inl ⟨[], [], rfl, (Nat.le_zero.mp hn).symm⟩
  | cons c cs ih =>
    by_cases h0 : n = 0
    · exact .inl ⟨[], c :: cs, rfl, h0.symm⟩
    by_cases hc : n < c.utf8Size
    · exact .inr ⟨[], c, cs, rfl, by simpa using Nat.pos_of_ne_zero h0, by simpa using hc⟩
    · have hcs : n - c.utf8Size ≤ byteSize cs := by
        rw [byteSize_cons] at hn
        omega
      rcases ih hcs with ⟨front, back, rfl, hf⟩ | ⟨front, d, back, rfl, h1, h2⟩
      · exact .inl ⟨c :: front, back, rfl, by rw [byteSize_cons]; omega⟩
      · refine .inr ⟨c :: front, d, back, rfl, ?_, ?_⟩ <;> rw [byteSize_cons] <;> omega

/-- A boundary `n` does not lie inside a character. -/
theorem Boundary.not_insideChar {text : List Char} {n : Nat} (h : Boundary text n) :
    ¬ InsideChar text n := by
  obtain ⟨front, back, rfl, rfl⟩ := h
  rintro ⟨front', c, back', ht, h1, h2⟩
  rcases List.append_eq_append_iff.mp ht with ⟨mid, rfl, -⟩ | ⟨mid, rfl, hmid⟩
  · simp only [byteSize_append] at h1
    omega
  · cases mid with
    | nil => simp at h1
    | cons d mid =>
      obtain ⟨rfl, -⟩ := List.cons.inj hmid
      simp only [byteSize_append, byteSize_cons] at h2
      omega

theorem boundary_iff_not_insideChar {text : List Char} {n : Nat} (hn : n ≤ byteSize text) :
    Boundary text n ↔ ¬ InsideChar text n :=
  ⟨Boundary.not_insideChar, (boundary_or_insideChar hn).resolve_right⟩

end Text

namespace Span

/-- A span `s` can be cut out of `text` when it lies in it, forwards, between characters. -/
theorem fits_iff {s : Span} {text : List Char} :
    s.fits text = true ↔ s.start ≤ s.stop ∧ s.stop ≤ Text.byteSize text ∧
      Text.Boundary text s.start ∧ Text.Boundary text s.stop := by
  unfold fits
  simp only [Bool.and_eq_true, decide_eq_true_eq, Text.isBoundary_iff, and_assoc]
  constructor
  · rintro ⟨hle, hstart, hstop⟩
    exact ⟨hle, hstop.le, hstart, hstop⟩
  · rintro ⟨hle, -, hstart, hstop⟩
    exact ⟨hle, hstart, hstop⟩

/-- The span cannot be cut out of `text`: it runs backwards, it runs over the end, or one of its
ends is inside a character. -/
def Misfits (s : Span) (text : List Char) : Prop :=
  s.stop < s.start ∨ Text.byteSize text < s.stop ∨
    Text.InsideChar text s.start ∨ Text.InsideChar text s.stop

theorem not_fits_iff {s : Span} {text : List Char} : ¬ s.fits text = true ↔ s.Misfits text := by
  rw [fits_iff]
  unfold Misfits
  by_cases hle : s.start ≤ s.stop
  · by_cases hsize : s.stop ≤ Text.byteSize text
    · rw [Text.boundary_iff_not_insideChar (Nat.le_trans hle hsize),
        Text.boundary_iff_not_insideChar hsize]
      simp only [hle, hsize, true_and, Nat.not_lt.mpr hle, Nat.not_lt.mpr hsize, false_or]
      rw [Classical.not_and_iff_not_or_not, Classical.not_not, Classical.not_not]
    · simp [hle, hsize, Nat.lt_of_not_le hsize]
  · simp [hle, Nat.lt_of_not_le hle]

end Span

end TreeLint
