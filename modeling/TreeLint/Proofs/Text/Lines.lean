import TreeLint.Proofs.Text.Boundary

/-!
# Lines

`Text.lineColumn` counts the line feeds before an offset, `Text.lines` cuts a text at its line feeds,
and a carriage return before one goes with it. What begins a line is text behind a `Text.Closed`
beginning; there the two numberings meet.

- `Closed`, `exists_closed_append`: a text is whole lines and the beginning of one more.
- `FirstLine`, `LineFrom`: a line as it stands in a text, told without `lines`.
- `FirstLine.exists_lines_eq_cons`, `Closed.exists_lines_append`: what `lines` cuts off.
- `lineColumn_closed_append`: line and column of an offset, from the whole lines before it.
- `lineColumn_lex_of_lt`: offsets are in order of their lines and columns.
- `getElem?_lines_eq_some_iff`, `eq_byteSize_of_getElem?_lines`: the line that `lines` has under the
  number of an offset.
-/

namespace TreeLint.Text

variable {text line rest closed tail : List Char}

/-- The text consists of whole lines, each a `line` with the line feed that ends it. -/
inductive Closed : List Char → Prop
  | nil : Closed []
  | line {line rest : List Char} (hline : '\n' ∉ line) (hrest : Closed rest) :
      Closed (line ++ '\n' :: rest)

/-- The first line of a text. A line feed ends it, and a carriage return before that is no part of
it (`returnFeed`); a line without a line feed has all the rest of the text (`last`). -/
inductive FirstLine : List Char → List Char → Prop
  | feed {line rest : List Char} (hline : '\n' ∉ line) (hreturn : line.getLast? ≠ some '\r') :
      FirstLine (line ++ '\n' :: rest) line
  | returnFeed {line rest : List Char} (hline : '\n' ∉ line) :
      FirstLine (line ++ '\r' :: '\n' :: rest) line
  | last {line : List Char} (hline : '\n' ∉ line) : FirstLine line line

/-- What stands in the text from byte `start` to the end of that line. At the end of the text no
line begins. -/
def LineFrom (text : List Char) (start : Nat) (line : List Char) : Prop :=
  ∃ front rest, text = front ++ rest ∧ byteSize front = start ∧ rest ≠ [] ∧ FirstLine rest line

/-! ## Whole lines -/

/-- A `text` is whole lines, `closed`, and the beginning of one more, `tail`. -/
theorem exists_closed_append (text : List Char) :
    ∃ closed tail, text = closed ++ tail ∧ Closed closed ∧ '\n' ∉ tail := by
  induction text with
  | nil => exact ⟨[], [], rfl, .nil, List.not_mem_nil⟩
  | cons c cs ih =>
    obtain ⟨closed, tail, rfl, hclosed, htail⟩ := ih
    by_cases hc : c = '\n'
    · subst hc
      have hfeed : Closed ([] ++ '\n' :: closed) := .line List.not_mem_nil hclosed
      exact ⟨'\n' :: closed, tail, rfl, hfeed, htail⟩
    · cases hclosed with
      | nil => exact ⟨[], c :: tail, rfl, .nil, by simp [Ne.symm hc, htail]⟩
      | @line line rest hline hrest =>
        refine ⟨c :: line ++ '\n' :: rest, tail, rfl, .line ?_ hrest, htail⟩
        simp [Ne.symm hc, hline]

/-- No line is open behind whole lines `closed`. -/
theorem Closed.takeWhile_reverse (h : Closed closed) :
    closed.reverse.takeWhile (· ≠ '\n') = [] := by
  induction h with
  | nil => rfl
  | @line line rest _ _ ih =>
    rw [List.reverse_append, List.reverse_cons, List.append_assoc, List.takeWhile_append, ih]
    cases rest <;> simp

/-! ## The first line -/

/-- A character `c` that ends no line belongs to the first line of what follows. -/
theorem lines_cons_of_eq_cons {c : Char} {cs : List Char} {more : List (List Char)}
    (h : lines cs = line :: more) (hc : c ≠ '\n') (hreturn : c = '\r' → cs.head? ≠ some '\n') :
    lines (c :: cs) = (c :: line) :: more := by
  cases cs with
  | nil => cases h
  | cons d cs =>
    have hpair : ∀ rest, c = '\r' → d :: cs ≠ '\n' :: rest := fun rest hr hd =>
      hreturn hr (by rw [hd]; rfl)
    exact lines.eq_4 c d cs line more hc hpair h

/-- The characters of `front`, which end no line, belong to the first line of what follows. -/
theorem lines_append_of_eq_cons {front : List Char} {more : List (List Char)}
    (h : lines rest = line :: more) (hfront : '\n' ∉ front)
    (hreturn : front.getLast? = some '\r' → rest.head? ≠ some '\n') :
    lines (front ++ rest) = (front ++ line) :: more := by
  induction front with
  | nil => exact h
  | cons c cs ih =>
    obtain ⟨hc, hcs⟩ : '\n' ≠ c ∧ '\n' ∉ cs := by simpa using hfront
    cases cs with
    | nil => exact lines_cons_of_eq_cons h hc.symm fun hr => hreturn (by rw [hr]; rfl)
    | cons d cs =>
      rw [List.getLast?_cons_cons] at hreturn
      refine lines_cons_of_eq_cons (ih hcs hreturn) hc.symm fun _ hd => ?_
      exact hcs (List.mem_cons.mpr (.inl (Option.some.inj hd).symm))

theorem lines_append_feed (hline : '\n' ∉ line) (hreturn : line.getLast? ≠ some '\r') :
    lines (line ++ '\n' :: rest) = line :: lines rest := by
  have hfeed : lines ('\n' :: rest) = [] :: lines rest := rfl
  rw [lines_append_of_eq_cons hfeed hline fun hlast => absurd hlast hreturn, List.append_nil]

theorem lines_append_returnFeed (hline : '\n' ∉ line) :
    lines (line ++ '\r' :: '\n' :: rest) = line :: lines rest := by
  have hfeed : lines ('\r' :: '\n' :: rest) = [] :: lines rest := rfl
  rw [lines_append_of_eq_cons hfeed hline fun _ => by simp, List.append_nil]

theorem lines_eq_singleton (hline : '\n' ∉ line) (hne : line ≠ []) : lines line = [line] := by
  rw [← List.dropLast_concat_getLast hne] at hline ⊢
  generalize line.dropLast = front at hline
  generalize line.getLast hne = c at hline
  obtain ⟨hfront, hc⟩ : '\n' ∉ front ∧ '\n' ≠ c := by simpa using hline
  have hlast : lines [c] = [[c]] := by simp [lines, hc.symm]
  exact lines_append_of_eq_cons hlast hfront fun _ hfeed => hc (Option.some.inj hfeed).symm

/-- The first line of a text is the first that `lines` cuts off. -/
theorem FirstLine.exists_lines_eq_cons (h : FirstLine text line) (htext : text ≠ []) :
    ∃ more, lines text = line :: more := by
  cases h with
  | feed hline hreturn => exact ⟨_, lines_append_feed hline hreturn⟩
  | returnFeed hline => exact ⟨_, lines_append_returnFeed hline⟩
  | last hline => exact ⟨_, lines_eq_singleton hline htext⟩

/-- A `line` that a line feed ends is cut off, whatever `rest` comes after. -/
theorem exists_firstLine_feed (hline : '\n' ∉ line) : ∃ first, ∀ rest,
    FirstLine (line ++ '\n' :: rest) first ∧ lines (line ++ '\n' :: rest) = first :: lines rest := by
  by_cases hreturn : line.getLast? = some '\r'
  · obtain ⟨front, rfl⟩ := List.getLast?_eq_some_iff.mp hreturn
    have hfront : '\n' ∉ front := fun h => hline (List.mem_append_left _ h)
    refine ⟨front, fun rest => ?_⟩
    rw [List.append_assoc]
    exact ⟨.returnFeed hfront, lines_append_returnFeed hfront⟩
  · exact ⟨line, fun rest => ⟨.feed hline hreturn, lines_append_feed hline hreturn⟩⟩

theorem exists_firstLine (text : List Char) : ∃ line, FirstLine text line := by
  by_cases hfeed : '\n' ∈ text
  · obtain ⟨line, rest, rfl, hline⟩ := List.eq_append_cons_of_mem hfeed
    obtain ⟨first, hfirst⟩ := exists_firstLine_feed hline
    exact ⟨first, (hfirst rest).1⟩
  · exact ⟨text, .last hfeed⟩

/-- What `lines` cuts off first is the first line of the text. -/
theorem head?_lines_eq_some_iff :
    (lines text).head? = some line ↔ text ≠ [] ∧ FirstLine text line := by
  by_cases htext : text = []
  · subst htext
    simp [lines]
  · obtain ⟨first, hfirst⟩ := exists_firstLine text
    obtain ⟨_, hlines⟩ := hfirst.exists_lines_eq_cons htext
    rw [hlines, List.head?_cons, Option.some.injEq]
    refine ⟨fun h => ⟨htext, h ▸ hfirst⟩, fun ⟨_, hline⟩ => ?_⟩
    obtain ⟨_, hlines'⟩ := hline.exists_lines_eq_cons htext
    exact (List.cons.inj (hlines.symm.trans hlines')).1

theorem lines_eq_nil_iff : lines text = [] ↔ text = [] := by
  refine ⟨fun h => Classical.byContradiction fun htext => ?_, fun h => h ▸ rfl⟩
  obtain ⟨line, hline⟩ := exists_firstLine text
  have hhead := head?_lines_eq_some_iff.mpr ⟨htext, hline⟩
  rw [h] at hhead
  cases hhead

/-- Behind a cut, at `front`, a line begins unless the text ends there. -/
theorem lineFrom_append_iff {front : List Char} : LineFrom (front ++ rest) (byteSize front) line ↔
    rest ≠ [] ∧ FirstLine rest line := by
  constructor
  · rintro ⟨front', rest', htext, hsize, hrest, hline⟩
    obtain ⟨-, rfl⟩ := append_inj_of_byteSize htext hsize.symm
    exact ⟨hrest, hline⟩
  · rintro ⟨hrest, hline⟩
    exact ⟨front, rest, rfl, rfl, hrest, hline⟩

/-- Whole lines `closed` are cut off, one for each line feed, whatever `cs` comes after. -/
theorem Closed.exists_lines_append (h : Closed closed) :
    ∃ front, front.length = closed.count '\n' ∧ ∀ cs, lines (closed ++ cs) = front ++ lines cs := by
  induction h with
  | nil => exact ⟨[], rfl, fun _ => rfl⟩
  | @line line rest hline hrest ih =>
    obtain ⟨front, hlength, happend⟩ := ih
    obtain ⟨first, hfirst⟩ := exists_firstLine_feed hline
    refine ⟨first :: front, ?_, fun cs => ?_⟩
    · simp [List.count_eq_zero.mpr hline, hlength]
    · rw [List.append_assoc, List.cons_append, (hfirst _).2, happend, List.cons_append]

/-! ## Lines and columns -/

theorem byteSize_reverse (cs : List Char) : byteSize cs.reverse = byteSize cs := by
  induction cs with
  | nil => rfl
  | cons c cs ih => rw [List.reverse_cons, byteSize_append, ih]; simp [Nat.add_comm]

theorem lastLineStart_append (hclosed : Closed closed) (htail : '\n' ∉ tail) :
    lastLineStart (closed ++ tail) = byteSize closed := by
  have hopen : (closed ++ tail).reverse.takeWhile (· ≠ '\n') = tail.reverse := by
    have hne : ∀ c ∈ tail.reverse, decide (c ≠ '\n') = true := fun c hc =>
      decide_eq_true fun h => htail (h ▸ List.mem_reverse.mp hc)
    rw [List.reverse_append, List.takeWhile_append_of_pos hne, hclosed.takeWhile_reverse,
      List.append_nil]
  rw [lastLineStart, hopen, byteSize_reverse, byteSize_append, Nat.add_sub_cancel]

/-- The text up to an offset, `front`, decides its line and column. -/
theorem lineColumn_byteSize_append (front back : List Char) :
    lineColumn (front ++ back) (byteSize front) =
      (front.count '\n' + 1, byteSize front - lastLineStart front + 1) := by
  have hmin : min (byteSize front) (byteSize (front ++ back)) = byteSize front :=
    Nat.min_eq_left (by simp)
  simp only [lineColumn, hmin, splitAt?_append, Option.elim_some]

/-- The line of an offset counts the whole lines before it, those of `closed`, and the column the
bytes of `tail` after them. -/
theorem lineColumn_closed_append (hclosed : Closed closed) (htail : '\n' ∉ tail)
    (back : List Char) : lineColumn (closed ++ tail ++ back) (byteSize (closed ++ tail)) =
      (closed.count '\n' + 1, byteSize tail + 1) := by
  rw [lineColumn_byteSize_append, lastLineStart_append hclosed htail, List.count_append,
    List.count_eq_zero.mpr htail, byteSize_append, Nat.add_sub_cancel_left, Nat.add_zero]

/-- A later offset `o'` is on a later line, or in a later column of the same line. -/
theorem lineColumn_lex_of_lt {o o' : Nat} (h : Boundary text o) (h' : Boundary text o')
    (hlt : o < o') : Prod.Lex (· < ·) (· < ·) (lineColumn text o) (lineColumn text o') := by
  obtain ⟨front, back, rfl, rfl⟩ := h
  obtain ⟨front', back', htext, rfl⟩ := h'
  obtain ⟨mid, rfl⟩ := exists_append_of_byteSize_le htext (Nat.le_of_lt hlt)
  obtain ⟨closed, tail, rfl, hclosed, htail⟩ := exists_closed_append front
  rw [lineColumn_closed_append hclosed htail, htext, Prod.lex_def]
  by_cases hfeed : '\n' ∈ mid
  · -- The line feed ends the line of the first offset.
    have hpos : 0 < mid.count '\n' := List.count_pos_iff.mpr hfeed
    left
    rw [lineColumn_byteSize_append, List.count_append, List.count_append]
    omega
  · have hopen : '\n' ∉ tail ++ mid := fun hmem => (List.mem_append.mp hmem).elim htail hfeed
    have hsize : byteSize tail < byteSize (tail ++ mid) := by
      simp only [byteSize_append] at hlt ⊢
      omega
    rw [List.append_assoc closed, lineColumn_closed_append hclosed hopen]
    exact .inr ⟨rfl, Nat.succ_lt_succ hsize⟩

section

variable {o l c : Nat} (ho : Boundary text o) (hlc : lineColumn text o = (l, c))

include ho hlc

/-- Lines `l` and columns `c` are counted from one, and a column counts back no further than the
text. -/
theorem lineColumn_pos : 1 ≤ l ∧ 1 ≤ c ∧ c - 1 ≤ o := by
  obtain ⟨front, back, rfl, rfl⟩ := ho
  rw [lineColumn_byteSize_append] at hlc
  obtain ⟨rfl, rfl⟩ := Prod.mk.inj hlc
  omega

/-- The line with the number `l` of an offset is the first of the text `rest` behind the whole lines
before it. No text is left there only at the end of whole lines. -/
theorem exists_append_of_lineColumn : ∃ front rest, text = front ++ rest ∧
    byteSize front = o - (c - 1) ∧ (lines text)[l - 1]? = (lines rest).head? ∧
      (rest = [] → o = byteSize text ∧ c = 1 ∧ l = (lines text).length + 1) := by
  obtain ⟨front, back, rfl, rfl⟩ := ho
  obtain ⟨closed, tail, rfl, hclosed, htail⟩ := exists_closed_append front
  obtain ⟨before, hlength, hbefore⟩ := hclosed.exists_lines_append
  rw [lineColumn_closed_append hclosed htail] at hlc
  obtain ⟨rfl, rfl⟩ := Prod.mk.inj hlc
  refine ⟨closed, tail ++ back, List.append_assoc .., by simp, ?_, fun hrest => ?_⟩
  · rw [List.append_assoc, hbefore, Nat.add_sub_cancel, ← hlength,
      List.getElem?_append_right (Nat.le_refl _), Nat.sub_self, List.head?_eq_getElem?]
  · obtain ⟨rfl, rfl⟩ := List.append_eq_nil_iff.mp hrest
    have hlines : lines closed = before := by simpa [lines] using hbefore []
    simp [hlines, hlength]

/-- The line that `lines` has under the number of an offset is what stands in the text from as many
bytes before the offset as the column says. -/
theorem getElem?_lines_eq_some_iff :
    (lines text)[l - 1]? = some line ↔ LineFrom text (o - (c - 1)) line := by
  obtain ⟨front, rest, rfl, hstart, hget, -⟩ := exists_append_of_lineColumn ho hlc
  rw [hget, ← hstart, lineFrom_append_iff, head?_lines_eq_some_iff]

/-- A line that is not there is numbered `l` only at the end of a text of whole lines. -/
theorem eq_byteSize_of_getElem?_lines (hnone : (lines text)[l - 1]? = none) :
    o = byteSize text ∧ c = 1 ∧ l = (lines text).length + 1 := by
  obtain ⟨front, rest, -, -, hget, hend⟩ := exists_append_of_lineColumn ho hlc
  exact hend (lines_eq_nil_iff.mp (List.head?_eq_none_iff.mp (hget.symm.trans hnone)))

end

example : lineColumn ['é', '\r', '\n'] 4 = (2, 1) ∧ lines ['é', '\r', '\n'] = [['é']] := by decide

end TreeLint.Text
