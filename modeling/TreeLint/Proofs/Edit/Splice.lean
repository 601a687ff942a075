import TreeLint.Proofs.Edit.Order
import TreeLint.Proofs.Text.Boundary

/-!
# Making edits all at once

`applyEdits` makes the last edit first and cuts a text that keeps changing, although every span
refers to the source. `Splice` is what is meant: the source is cut into pieces once, the pieces
between the spans are kept, and each cut piece gives way to its replacement.

* `Splice.unique`: a splice has one result.
* `exists_splice_of_fits`: when the edits are strictly ordered and every span fits, the edits are
  made and the result is the splice. The proof follows the loop: what it has not reached, up to
  the place where the last edit began, is still the source.
* `applyEdits_outOfBounds`: when some span does not fit, the error says so of one such span.
-/

namespace TreeLint

open Edit

/-- `Splice offset text edits result`: with `text` standing from byte `offset` on, cutting the spans
of `edits` out of it, from left to right, and putting the replacements in gives `result`. -/
inductive Splice : (offset : Nat) → (text : List Char) → List Edit → (result : List Char) → Prop
  | rest (offset : Nat) (text : List Char) : Splice offset text [] text
  | edit {offset : Nat} {kept cut text result : List Char} {e : Edit} {edits : List Edit}
      (hstart : e.span.start = offset + Text.byteSize kept)
      (hstop : e.span.stop = e.span.start + Text.byteSize cut)
      (h : Splice e.span.stop text edits result) :
      Splice offset (kept ++ (cut ++ text)) (e :: edits)
        (kept ++ (e.replacement.toList ++ result))

/-- Two results `r₁` and `r₂` of a splice are one. -/
theorem Splice.unique {offset : Nat} {text r₁ r₂ : List Char} {edits : List Edit}
    (h₁ : Splice offset text edits r₁) (h₂ : Splice offset text edits r₂) : r₁ = r₂ := by
  induction h₁ generalizing r₂ with
  | rest offset text =>
    cases h₂
    rfl
  | @edit offset kept cut text result e edits hstart hstop h ih =>
    generalize htext : kept ++ (cut ++ text) = whole at h₂
    cases h₂ with
    | @edit _ kept' cut' text' result' _ _ hstart' hstop' h' =>
      obtain ⟨rfl, hrest⟩ := Text.append_inj_of_byteSize htext (by omega)
      obtain ⟨rfl, rfl⟩ := Text.append_inj_of_byteSize hrest (by omega)
      rw [ih h']

/-! ## One edit -/

/-- The span of `e` covers `cut`, which stands behind `front`: it is replaced. -/
theorem Edit.splice?_append {e : Edit} {front cut back : List Char}
    (hstart : e.span.start = Text.byteSize front)
    (hstop : e.span.stop = e.span.start + Text.byteSize cut) :
    e.splice? (front ++ (cut ++ back)) = some (front ++ e.replacement.toList ++ back) := by
  have hfront : Text.splitAt? (front ++ (cut ++ back)) e.span.start = some (front, cut ++ back) := by
    rw [hstart, Text.splitAt?_append]
  have hback : Text.splitAt? (front ++ (cut ++ back)) e.span.stop = some (front ++ cut, back) := by
    rw [hstop, hstart, ← List.append_assoc, ← Text.byteSize_append, Text.splitAt?_append]
  simp [splice?, hfront, hback]

/-- A span `s` that fits behind `front` parts the rest of the text, `back`, in three: `kept`, `cut`
and `rest`. -/
theorem exists_cut_of_fits {s : Span} {front back : List Char} (h : s.fits (front ++ back) = true)
    (hle : Text.byteSize front ≤ s.start) :
    ∃ kept cut rest, back = kept ++ (cut ++ rest) ∧ s.start = Text.byteSize front + Text.byteSize kept ∧
      s.stop = s.start + Text.byteSize cut := by
  obtain ⟨horder, -, ⟨a, a', ha, hstart⟩, ⟨b, b', hb, hstop⟩⟩ := Span.fits_iff.mp h
  obtain ⟨kept, rfl⟩ := Text.exists_append_of_byteSize_le ha (by omega)
  obtain ⟨cut, rfl⟩ := Text.exists_append_of_byteSize_le (ha.symm.trans hb) (by omega)
  refine ⟨kept, cut, b', ?_, by simpa using hstart.symm, by simp at hstart hstop ⊢; omega⟩
  simpa using hb

/-! ## All edits -/

/-- What the loop has made of the text behind `front` when no edit reaches into `front`. -/
theorem exists_splice_behind {source : List Char} {edits : List Edit} (front back : List Char)
    (hsource : source = front ++ back) (hbefore : edits.Pairwise Before)
    (hfits : ∀ e ∈ edits, e.span.fits source = true)
    (hbehind : ∀ e ∈ edits, Text.byteSize front ≤ e.span.start) :
    ∃ result, applyEdits source edits = .ok (front ++ result) ∧
      Splice (Text.byteSize front) back edits result := by
  induction edits generalizing front back with
  | nil => exact ⟨back, by simp [applyEdits, hsource], .rest _ _⟩
  | cons e edits ih =>
    obtain ⟨he, hedits⟩ := List.pairwise_cons.mp hbefore
    have hfit := hfits e List.mem_cons_self
    obtain ⟨kept, cut, rest, rfl, hstart, hstop⟩ :=
      exists_cut_of_fits (hsource ▸ hfit) (hbehind e List.mem_cons_self)
    -- Later edits begin where the span of `e` ends, so the loop left everything up to there alone.
    have hsize : Text.byteSize (front ++ kept ++ cut) = e.span.stop := by simp; omega
    obtain ⟨result, hresult, hsplice⟩ := ih (front ++ kept ++ cut) rest (by simp [hsource])
      hedits (fun e' h' => hfits e' (List.mem_cons_of_mem e h'))
      (fun e' h' => by
        have hlt := before_iff.mp (he e' h')
        have := (Span.fits_iff.mp hfit).1
        omega)
    rw [hsize] at hsplice
    refine ⟨kept ++ (e.replacement.toList ++ result), ?_, .edit hstart hstop hsplice⟩
    have hcut : e.splice? (front ++ kept ++ cut ++ result) =
        some (front ++ kept ++ e.replacement.toList ++ result) := by
      rw [List.append_assoc (front ++ kept)]
      exact splice?_append (by simpa using hstart) hstop
    calc applyEdits source (e :: edits)
        = (applyEdits source edits).bind (e.applyTo source) := rfl
      _ = e.applyTo source (front ++ kept ++ cut ++ result) := by rw [hresult]; rfl
      _ = .ok (front ++ (kept ++ (e.replacement.toList ++ result))) := by
        rw [applyTo, if_pos hfit, hcut]
        simp

/-- Strictly ordered `edits` whose spans fit are made, and the `result` is the splice. -/
theorem exists_splice_of_fits {source : List Char} {edits : List Edit}
    (hbefore : edits.Pairwise Before) (hfits : ∀ e ∈ edits, e.span.fits source = true) :
    ∃ result, applyEdits source edits = .ok result ∧ Splice 0 source edits result :=
  exists_splice_behind [] source rfl hbefore hfits (fun _ _ => Nat.zero_le _)

/-- Strictly ordered `edits` are not made when one of their spans does not fit; the error is about
such an edit `e`. -/
theorem applyEdits_outOfBounds {source : List Char} {edits : List Edit}
    (hbefore : edits.Pairwise Before) (h : ∃ e ∈ edits, ¬ e.span.fits source = true) :
    ∃ e ∈ edits, ¬ e.span.fits source = true ∧
      applyEdits source edits = .error (.outOfBounds e.span (Text.byteSize source)) := by
  induction edits with
  | nil => simp at h
  | cons e edits ih =>
    obtain ⟨-, hedits⟩ := List.pairwise_cons.mp hbefore
    have hstep : applyEdits source (e :: edits) =
        (applyEdits source edits).bind (e.applyTo source) := rfl
    by_cases hrest : ∃ e' ∈ edits, ¬ e'.span.fits source = true
    · obtain ⟨e', hmem, hfit, herror⟩ := ih hedits hrest
      exact ⟨e', List.mem_cons_of_mem e hmem, hfit, by rw [hstep, herror]; rfl⟩
    · -- All later edits are made, so it is `e` that does not fit.
      have hfits : ∀ e' ∈ edits, e'.span.fits source = true := by simpa using hrest
      have hfit : ¬ e.span.fits source = true := by
        obtain ⟨e', hmem, hfit⟩ := h
        rcases List.mem_cons.mp hmem with rfl | hmem
        · exact hfit
        · exact (hrest ⟨e', hmem, hfit⟩).elim
      obtain ⟨result, hresult, -⟩ := exists_splice_of_fits hedits hfits
      refine ⟨e, List.mem_cons_self, hfit, ?_⟩
      rw [hstep, hresult]
      simp [Except.bind, applyTo, hfit]

end TreeLint
