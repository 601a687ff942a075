import TreeLint.Proofs.Edit.Splice

/-!
# Where edits put the rest of a text

What no edit reaches is moved by the edits in front of it. A beginning moves behind what is put in
there, an end stays in front of it.

- `Motion`: where beginnings and ends go; `Motion.ofEdits` is the motion that edits in ascending
  order cause.
- `Splice.exists_append`: what the edits do not reach stands in the result where the motion says.
- `Splice.place_stop`: the end of the text goes to the end of the result.
-/

namespace TreeLint

/-- Where the ends of spans go when what they cover gets another place: `start` is for beginnings,
`stop` for ends. -/
structure Motion where
  start : Nat → Nat
  stop : Nat → Nat

/-- The span of what `m` has moved. -/
def Span.move (m : Motion) (s : Span) : Span := ⟨m.start s.start, m.stop s.stop⟩

section

variable {m : Motion}

@[simp] theorem Span.move_mk (start stop : Nat) :
    (⟨start, stop⟩ : Span).move m = ⟨m.start start, m.stop stop⟩ := rfl

@[simp] theorem Span.start_move (s : Span) : (s.move m).start = m.start s.start := rfl

@[simp] theorem Span.stop_move (s : Span) : (s.move m).stop = m.stop s.stop := rfl

end

namespace Edit

/-- The edit of what `m` has moved. -/
def move (m : Motion) : Edit → Edit
  | insertBefore anchor text => insertBefore (anchor.move m) text
  | delete removed => delete (removed.move m)
  | replace removed text => replace (removed.move m) text

/-- Where the byte `p` goes when edits are made in a text that stands from the byte `offset` on, and
goes to the byte `offset'`. `behind` tells whether it goes behind what is put in there. -/
def place (behind : Bool) (offset offset' : Nat) : List Edit → (p : Nat) → Nat
  | [], p => offset' + (p - offset)
  | e :: edits, p =>
    if p < e.span.start ∨ p = e.span.start ∧ behind = false then offset' + (p - offset)
    else place behind e.span.stop
      (offset' + (e.span.start - offset) + Text.byteSize e.replacement.toList) edits p

/-- The edit `e` does not reach into `s`, nor is it at a point where `s` is empty. -/
def Apart (e : Edit) (s : Span) : Prop :=
  e.span.stop ≤ s.start ∧ e.span.start < s.stop ∨ s.start < e.span.start ∧ s.stop ≤ e.span.start

end Edit

/-- The motion that `edits` in ascending order cause. -/
def Motion.ofEdits (edits : List Edit) : Motion :=
  ⟨Edit.place true 0 0 edits, Edit.place false 0 0 edits⟩

namespace Edit

variable {behind : Bool} {offset offset' p : Nat} {e : Edit} {edits : List Edit}

/-- A byte `p` in front of the first edit keeps its distance from `offset`. -/
theorem place_of_head (h : ∀ e ∈ edits.head?, p < e.span.start ∨ p = e.span.start ∧ behind = false) :
    place behind offset offset' edits p = offset' + (p - offset) := by
  cases edits with
  | nil => rfl
  | cons e edits => rw [place, if_pos (h e rfl)]

theorem place_cons_of_lt (h : e.span.start < p) :
    place behind offset offset' (e :: edits) p = place behind e.span.stop
      (offset' + (e.span.start - offset) + Text.byteSize e.replacement.toList) edits p := by
  rw [place, if_neg (by omega)]

theorem place_cons_of_le (h : e.span.start ≤ p) :
    place true offset offset' (e :: edits) p = place true e.span.stop
      (offset' + (e.span.start - offset) + Text.byteSize e.replacement.toList) edits p := by
  rw [place, if_neg (by simp; omega)]

/-- Where nothing is put in (`h`), the beginning of a text stays where it is. -/
theorem place_zero (h : ∀ e ∈ edits, e.replacement = "") :
    place true offset offset' edits 0 = offset' := by
  induction edits generalizing offset offset' with
  | nil => simp [place]
  | cons e edits ih =>
    obtain ⟨he, hedits⟩ := List.forall_mem_cons.mp h
    have hsize : Text.byteSize e.replacement.toList = 0 := by rw [he]; rfl
    rw [place, ih hedits]
    split <;> omega

theorem le_place : offset' ≤ place behind offset offset' edits p := by
  induction edits generalizing offset offset' with
  | nil => exact Nat.le_add_right _ _
  | cons e edits ih =>
    rw [place]
    split
    · exact Nat.le_add_right _ _
    · exact Nat.le_trans (by omega) ih

/-- Where nothing is taken away (`hedits`), different beginnings `p` and `q` go to different
places. -/
theorem place_lt_place {q : Nat} (hedits : ∀ e ∈ edits, e.span.stop = e.span.start)
    (hp : offset ≤ p) (hlt : p < q) :
    place true offset offset' edits p < place true offset offset' edits q := by
  induction edits generalizing offset offset' with
  | nil =>
    simp only [place]
    omega
  | cons e edits ih =>
    obtain ⟨he, hedits⟩ := List.forall_mem_cons.mp hedits
    by_cases hfront : p < e.span.start
    · rw [@place_of_head true offset offset' p (e :: edits) (by simp [hfront])]
      by_cases hfront' : q < e.span.start
      · rw [@place_of_head true offset offset' q (e :: edits) (by simp [hfront'])]
        omega
      · rw [place_cons_of_le (by omega)]
        exact Nat.lt_of_lt_of_le (by omega) le_place
    · rw [place_cons_of_le (by omega), place_cons_of_le (by omega)]
      exact ih hedits (by omega)

/-- The `n` bytes in front of the first edit can be passed over. -/
theorem place_add {n : Nat} (hp : offset + n ≤ p) (h : ∀ e ∈ edits.head?, offset + n ≤ e.span.start) :
    place behind (offset + n) (offset' + n) edits p = place behind offset offset' edits p := by
  cases edits with
  | nil =>
    simp only [place]
    omega
  | cons e edits =>
    have hstart := h e rfl
    have hsame : offset' + n + (e.span.start - (offset + n)) = offset' + (e.span.start - offset) := by
      omega
    simp only [place, hsame]
    split
    · omega
    · rfl

end Edit

open Edit

variable {offset offset' : Nat} {kept text text' : List Char} {edits : List Edit}

/-- From the byte `offset` on, which goes to the byte `offset'`, the motion is that of the edits. -/
def Motion.Follows (m : Motion) (offset offset' : Nat) (edits : List Edit) : Prop :=
  (∀ p, offset ≤ p → m.start p = place true offset offset' edits p) ∧
    ∀ p, offset < p → m.stop p = place false offset offset' edits p

theorem Motion.follows_ofEdits (edits : List Edit) : (ofEdits edits).Follows 0 0 edits :=
  ⟨fun _ _ => rfl, fun _ _ => rfl⟩

/-- A motion that follows `edits` does so `n` bytes later, if no edit begins before that. -/
theorem Motion.Follows.add {m : Motion} (h : m.Follows offset offset' edits) {n : Nat}
    (hedits : ∀ e ∈ edits.head?, offset + n ≤ e.span.start) :
    m.Follows (offset + n) (offset' + n) edits :=
  ⟨fun p hp => by rw [h.1 p (by omega), place_add hp hedits],
    fun p hp => by rw [h.2 p (by omega), place_add (by omega) hedits]⟩

/-- What begins at `offset`, in front of all edits, goes to `offset'`. -/
theorem Motion.Follows.start_eq {m : Motion} (h : m.Follows offset offset' edits)
    (hedits : ∀ e ∈ edits.head?, offset < e.span.start) : m.start offset = offset' := by
  rw [h.1 offset (Nat.le_refl _), place_of_head fun e he => .inl (hedits e he), Nat.sub_self,
    Nat.add_zero]

/-- A motion that follows `e :: edits` follows `edits` behind the span of `e`. -/
theorem Motion.Follows.tail {m : Motion} {e : Edit} (h : m.Follows offset offset' (e :: edits))
    (hoffset : offset ≤ e.span.start) (hspan : e.span.start ≤ e.span.stop) :
    m.Follows e.span.stop
      (offset' + (e.span.start - offset) + Text.byteSize e.replacement.toList) edits :=
  ⟨fun p hp => by rw [h.1 p (by omega), place_cons_of_le (by omega)],
    fun p hp => by rw [h.2 p (by omega), place_cons_of_lt (by omega)]⟩

/-- What is `kept` in front of all edits stays as it is. -/
theorem Splice.append (h : Splice (offset + Text.byteSize kept) text edits text') :
    Splice offset (kept ++ text) edits (kept ++ text') := by
  cases h with
  | rest => exact .rest _ _
  | @edit _ kept' cut text result e edits hstart hstop h =>
    rw [← List.append_assoc kept, ← List.append_assoc kept]
    refine .edit ?_ hstop h
    rw [hstart, Text.byteSize_append, Nat.add_assoc]

/-- What the edits do not reach (`hapart`), the `middle` of the text, stands in the result where
`place` puts the ends of its span `s`. -/
theorem Splice.exists_append (h : Splice offset text edits text') {front middle back : List Char}
    (htext : text = front ++ (middle ++ back)) {s : Span}
    (hstart : s.start = offset + Text.byteSize front)
    (hstop : s.stop = s.start + Text.byteSize middle) (hapart : ∀ e ∈ edits, e.Apart s) :
    ∃ front' back', text' = front' ++ (middle ++ back') ∧
      place true offset offset' edits s.start = offset' + Text.byteSize front' ∧
      place false offset offset' edits s.stop =
        offset' + Text.byteSize front' + Text.byteSize middle := by
  induction h generalizing front offset' with
  | rest offset text =>
    refine ⟨front, back, htext, ?_, ?_⟩ <;> simp only [place] <;> omega
  | @edit offset kept cut text result e edits hestart hestop h ih =>
    obtain ⟨he, hedits⟩ := List.forall_mem_cons.mp hapart
    rcases he with ⟨hbehind, hlt⟩ | ⟨hlt, hfront⟩
    · -- The edit is in front of the span.
      rw [← List.append_assoc] at htext
      obtain ⟨front, rfl⟩ := Text.exists_append_of_byteSize_le htext
        (by simp only [Text.byteSize_append]; omega)
      rw [List.append_assoc, List.append_assoc, List.append_assoc] at htext
      rw [Text.byteSize_append, Text.byteSize_append] at hstart
      obtain ⟨front', back', rfl, hplace, hplace'⟩ :=
        @ih (offset' + (e.span.start - offset) + Text.byteSize e.replacement.toList) front
          (List.append_cancel_left (List.append_cancel_left htext)) (by omega) hedits
      refine ⟨kept ++ (e.replacement.toList ++ front'), back', by simp, ?_, ?_⟩
      · rw [place_cons_of_le (by omega), hplace]
        simp only [Text.byteSize_append]
        omega
      · rw [place_cons_of_lt hlt, hplace']
        simp only [Text.byteSize_append]
        omega
    · -- The span is in front of the edit.
      rw [← List.append_assoc front] at htext
      obtain ⟨rest, rfl⟩ := Text.exists_append_of_byteSize_le htext.symm
        (by simp only [Text.byteSize_append]; omega)
      refine ⟨front, rest ++ (e.replacement.toList ++ result), by simp, ?_, ?_⟩
      · rw [place_of_head (by simp [hlt])]
        omega
      · rw [place_of_head (by simp; omega)]
        omega

/-- The end of `text` goes to the end of `text'`. -/
theorem Splice.place_stop (h : Splice offset text edits text')
    (hedits : ∀ e ∈ edits, e.span.start < offset + Text.byteSize text) :
    place false offset offset' edits (offset + Text.byteSize text) =
      offset' + Text.byteSize text' := by
  induction h generalizing offset' with
  | rest offset text =>
    simp only [place]
    omega
  | @edit offset kept cut text result e edits hestart hestop h ih =>
    obtain ⟨he, hedits⟩ := List.forall_mem_cons.mp hedits
    have hsize : offset + Text.byteSize (kept ++ (cut ++ text)) =
        e.span.stop + Text.byteSize text := by
      simp only [Text.byteSize_append]
      omega
    rw [hsize] at he hedits ⊢
    rw [place_cons_of_lt he, ih hedits]
    simp only [Text.byteSize_append]
    omega

end TreeLint
