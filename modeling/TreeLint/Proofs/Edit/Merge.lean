import TreeLint.Edit.Buffer
import TreeLint.Proofs.Edit.Splice

/-!
# Merging fixes into one splice

What `EditBuffer.offerAll` keeps while fixes are offered one after the other, and what the buffer
makes of a source in the end.

* `accepted`: the fixes that a buffer takes from a sequence. `edits_offerAll` says that the buffer
  holds their edits and nothing else.
* `conflictFree_offerAll`: no two edits of the buffer ever conflict.
* `accepted_eq_self`: fixes without a conflict between them are all taken, in any order.
* `apply_cases`: the edited source is the splice of the buffer's edits, unless a span does not fit.
* `offerAll_splices` puts this together for sealed fixes offered to an empty buffer.
-/

namespace TreeLint

open Edit

namespace EditBuffer

/-- The fixes that are accepted when `fixes` are offered in order. -/
def accepted (buffer : EditBuffer) (fixes : List Fix) : List Fix :=
  ((fixes.zip (buffer.offerAll fixes).2).filter Prod.snd).map Prod.fst

/-- Every edit of `fixes`, fix by fix. -/
abbrev editsOf (fixes : List Fix) : List Edit := fixes.flatMap Fix.edits

section

variable {buffer : EditBuffer} {fix : Fix} {fixes : List Fix}

/-! ## One fix -/

/-- The `buffer` accepts `fix` when none of its edits conflicts with an edit of the buffer. -/
theorem accepts_iff : buffer.accepts fix = true ↔
    ∀ old ∈ buffer.edits, ∀ new ∈ fix.edits, old.conflicts new = false := by
  simp only [accepts, Bool.not_eq_true', List.any_eq_false, Bool.not_eq_true]
  exact ⟨fun h old hold new hnew => h new hnew old hold,
    fun h new hnew old hold => h old hold new hnew⟩

theorem offer_of_accepts (h : buffer.accepts fix = true) :
    buffer.offer fix = ⟨buffer.edits ++ fix.edits⟩ := if_pos h

theorem offer_of_not_accepts (h : buffer.accepts fix = false) : buffer.offer fix = buffer :=
  if_neg (by simp [h])

theorem conflictFree_offer (hbuffer : ConflictFree buffer.edits) (hfix : ConflictFree fix.edits) :
    ConflictFree (buffer.offer fix).edits := by
  cases h : buffer.accepts fix with
  | false => rwa [offer_of_not_accepts h]
  | true =>
    rw [offer_of_accepts h]
    exact List.pairwise_append.mpr ⟨hbuffer, hfix, accepts_iff.mp h⟩

/-! ## A sequence of fixes -/

theorem accepted_cons : buffer.accepted (fix :: fixes) =
    if buffer.accepts fix then fix :: (buffer.offer fix).accepted fixes
    else (buffer.offer fix).accepted fixes := by
  cases h : buffer.accepts fix <;> simp [accepted, offerAll, h]

/-- The `buffer` gains the edits of the `accepted` fixes, in order, and no others. -/
theorem edits_offerAll (buffer : EditBuffer) (fixes : List Fix) :
    (buffer.offerAll fixes).1.edits = buffer.edits ++ editsOf (buffer.accepted fixes) := by
  induction fixes generalizing buffer with
  | nil => simp [offerAll, accepted]
  | cons fix fixes ih =>
    rw [accepted_cons]
    simp only [offerAll, ih]
    cases h : buffer.accepts fix with
    | false => simp [offer_of_not_accepts h]
    | true => simp [offer_of_accepts h]

theorem conflictFree_offerAll (hbuffer : ConflictFree buffer.edits)
    (hfixes : ∀ fix ∈ fixes, ConflictFree fix.edits) :
    ConflictFree (buffer.offerAll fixes).1.edits := by
  induction fixes generalizing buffer with
  | nil => exact hbuffer
  | cons fix fixes ih =>
    have hfix := hfixes fix List.mem_cons_self
    exact ih (conflictFree_offer hbuffer hfix) fun f hf => hfixes f (List.mem_cons_of_mem fix hf)

/-- The fixes among `fixes` that have no edits add none. -/
theorem editsOf_filter (fixes : List Fix) : editsOf (fixes.filter (!·.isEmpty)) = editsOf fixes := by
  induction fixes with
  | nil => rfl
  | cons fix fixes ih =>
    cases h : fix.edits <;> simp_all [editsOf, Fix.isEmpty]

/-- The `buffer` is none the fuller for a `fix` without edits. -/
theorem offer_of_isEmpty (h : fix.isEmpty = true) : buffer.offer fix = buffer := by
  have hnone : fix.edits = [] := List.isEmpty_iff.mp h
  rw [offer_of_accepts (accepts_iff.mpr (by simp [hnone])), hnone, List.append_nil]

theorem offerAll_filter (buffer : EditBuffer) (fixes : List Fix) :
    (buffer.offerAll (fixes.filter (!·.isEmpty))).1 = (buffer.offerAll fixes).1 := by
  induction fixes generalizing buffer with
  | nil => rfl
  | cons fix fixes ih =>
    cases h : fix.isEmpty with
    | true => simp [h, offerAll, ih, offer_of_isEmpty h]
    | false => simp [h, offerAll, ih]

/-- What is said to `fixes` does not depend on those offered `later`, whose answers follow. -/
theorem offerAll_append (buffer : EditBuffer) (fixes later : List Fix) :
    buffer.offerAll (fixes ++ later) =
      (((buffer.offerAll fixes).1.offerAll later).1,
        (buffer.offerAll fixes).2 ++ ((buffer.offerAll fixes).1.offerAll later).2) := by
  induction fixes generalizing buffer with
  | nil => simp [offerAll]
  | cons fix fixes ih => simp [offerAll, ih]

theorem length_offerAll (buffer : EditBuffer) (fixes : List Fix) :
    (buffer.offerAll fixes).2.length = fixes.length := by
  induction fixes generalizing buffer with
  | nil => rfl
  | cons fix fixes ih => simp [offerAll, ih]

/-- The answer to `fix` is the one of the buffer that the `earlier` fixes have left. -/
theorem getElem?_offerAll (buffer : EditBuffer) (earlier later : List Fix) (fix : Fix) :
    (buffer.offerAll (earlier ++ fix :: later)).2[earlier.length]? =
      some ((buffer.offerAll earlier).1.accepts fix) := by
  rw [offerAll_append, List.getElem?_append_right (by rw [length_offerAll]), length_offerAll]
  simp [offerAll]

/-- A `fix` is accepted when its edits conflict with no edit of a fix `accepted` before it. -/
theorem accepts_offerAll_iff (earlier : List Fix) (fix : Fix) :
    (({} : EditBuffer).offerAll earlier).1.accepts fix = true ↔
      ∀ other ∈ ({} : EditBuffer).accepted earlier,
        ∀ old ∈ other.edits, ∀ new ∈ fix.edits, old.conflicts new = false := by
  rw [accepts_iff, edits_offerAll]
  simp only [List.nil_append, List.mem_flatMap]
  exact ⟨fun h other hother old hold => h old ⟨other, hother, hold⟩,
    fun h old ⟨other, hother, hold⟩ => h other hother old hold⟩

/-- All `fixes` are accepted when no two edits, of them or of `buffer`, conflict. -/
theorem accepted_eq_self (h : ConflictFree (buffer.edits ++ editsOf fixes)) :
    buffer.accepted fixes = fixes := by
  induction fixes generalizing buffer with
  | nil => rfl
  | cons fix fixes ih =>
    rw [editsOf, List.flatMap_cons, ← List.append_assoc] at h
    have haccepts : buffer.accepts fix = true :=
      accepts_iff.mpr (List.pairwise_append.mp (List.pairwise_append.mp h).1).2.2
    rw [accepted_cons, if_pos haccepts, ih]
    rwa [offer_of_accepts haccepts]

end

/-! ## The edited source -/

section

variable {buffer : EditBuffer}

/-- A `buffer` without conflicts (`hfree`) makes the splice of its edits in ascending order, or has
an edit that does not fit the `source` and gives such a `span` as the error. -/
theorem apply_cases (hfree : ConflictFree buffer.edits) (source : String) :
    ((∀ e ∈ buffer.edits, ¬ e.span.Misfits source.toList) ∧
      ∃ result, buffer.apply source = .ok (String.ofList result) ∧
        ∀ text, Splice 0 source.toList (sortEdits buffer.edits) text ↔ text = result) ∨
    ((∃ e ∈ buffer.edits, e.span.Misfits source.toList) ∧
      ∃ span size, buffer.apply source = .error (.outOfBounds span size)) := by
  have hbefore := before_sortEdits hfree
  have hmem : ∀ {e}, e ∈ sortEdits buffer.edits ↔ e ∈ buffer.edits :=
    (sortEdits_perm buffer.edits).mem_iff
  by_cases h : ∃ e ∈ buffer.edits, e.span.Misfits source.toList
  · obtain ⟨e, he, hmisfit⟩ := h
    obtain ⟨e', -, -, herror⟩ :=
      applyEdits_outOfBounds hbefore ⟨e, hmem.mpr he, Span.not_fits_iff.mpr hmisfit⟩
    exact .inr ⟨⟨e, he, hmisfit⟩, e'.span, _, by rw [apply, herror]; rfl⟩
  · have hfits : ∀ e ∈ buffer.edits, ¬ e.span.Misfits source.toList :=
      fun e he hmisfit => h ⟨e, he, hmisfit⟩
    obtain ⟨result, hresult, hsplice⟩ := exists_splice_of_fits hbefore fun e he =>
      Classical.not_not.mp fun hfit => hfits e (hmem.mp he) (Span.not_fits_iff.mp hfit)
    exact .inl ⟨hfits, result, by rw [apply, hresult]; rfl,
      fun text => ⟨fun h => h.unique hsplice, fun h => h ▸ hsplice⟩⟩

/-- The edits of `buffer` in another order, those of `buffer'`, give the same source. -/
theorem apply_eq_of_perm {buffer' : EditBuffer} (hfree : ConflictFree buffer.edits)
    (hp : buffer.edits.Perm buffer'.edits) (source : String) : buffer.apply source = buffer'.apply source := by
  rw [apply, apply, sortEdits_eq_of_perm hfree hp]

/-- A buffer that took one `fix` edits `source` as the fix does. -/
theorem apply_offer_of_before {fix : Fix} (h : fix.edits.Pairwise Before) (source : String) :
    (({} : EditBuffer).offer fix).apply source = fix.apply source := by
  have haccepts : ({} : EditBuffer).accepts fix = true := accepts_iff.mpr (by simp)
  have hsorted : sortEdits fix.edits = fix.edits :=
    List.mergeSort_of_pairwise (h.imp And.left)
  rw [offer_of_accepts haccepts, apply, List.nil_append, hsorted]
  rfl

end

/-- **Merging is splicing.** Let sealed `fixes` (`hsealed`) be offered to an empty buffer one after
the other. A `fix` is accepted exactly when none of its edits conflicts with an edit of a fix
accepted before it, and a refused fix leaves the buffer as it was. The `buffer` cannot edit `source`
exactly when an edit of a fix that was `taken` misfits it. Otherwise the `result` is the `Splice` of
the edits of `taken` in ascending order, `sorted`. No edit is ever `displaced`, the fixes of `taken`
give the same result in any `order`, and a `fix` on its own is applied as it stands. -/
theorem offerAll_splices (source : String) (fixes : List Fix)
    (hsealed : ∀ fix ∈ fixes, ∃ edits, Fix.ofEdits edits = .ok fix) :
    (∀ earlier fix later, fixes = earlier ++ fix :: later →
      let buffer := (({} : EditBuffer).offerAll earlier).1
      (({} : EditBuffer).offerAll fixes).2[earlier.length]? = some (buffer.accepts fix) ∧
      (buffer.accepts fix = true ↔ ∀ other ∈ ({} : EditBuffer).accepted earlier,
        ∀ old ∈ other.edits, ∀ new ∈ fix.edits, old.conflicts new = false) ∧
      (buffer.accepts fix = false → buffer.offer fix = buffer)) ∧
    let taken := ({} : EditBuffer).accepted fixes
    let buffer := (({} : EditBuffer).offerAll fixes).1
    ((∃ span size, buffer.apply source = .error (.outOfBounds span size)) ↔
      ∃ e ∈ editsOf taken, e.span.Misfits source.toList) ∧
    ((∀ e ∈ editsOf taken, ¬ e.span.Misfits source.toList) →
      ∃ sorted result, sorted.Perm (editsOf taken) ∧
        sorted.Pairwise (fun a b => a.span.Precedes b.span) ∧
        buffer.apply source = .ok (String.ofList result) ∧
        ∀ text, Splice 0 source.toList sorted text ↔ text = result) ∧
    (∀ span, buffer.apply source ≠ .error (.displaced span)) ∧
    (∀ order, order.Perm taken → ({} : EditBuffer).accepted order = order ∧
      (({} : EditBuffer).offerAll order).1.apply source = buffer.apply source) ∧
    (∀ fix ∈ fixes, (({} : EditBuffer).offer fix).apply source = fix.apply source) := by
  have hbefore : ∀ fix ∈ fixes, fix.edits.Pairwise Before := fun fix hfix => by
    obtain ⟨edits, hedits⟩ := hsealed fix hfix
    exact Fix.before_of_ofEdits hedits
  have hfree : ConflictFree (({} : EditBuffer).offerAll fixes).1.edits :=
    conflictFree_offerAll List.Pairwise.nil fun fix hfix => (hbefore fix hfix).imp And.right
  have hedits : ∀ order, (({} : EditBuffer).offerAll order).1.edits =
      editsOf (({} : EditBuffer).accepted order) := fun order => edits_offerAll {} order
  refine ⟨?_, ?_⟩
  · rintro earlier fix later rfl
    exact ⟨getElem?_offerAll {} earlier later fix, accepts_offerAll_iff earlier fix,
      offer_of_not_accepts⟩
  intro taken buffer
  -- What the buffer makes of `source` has two outcomes, and each statement excludes one of them.
  have hcases := apply_cases hfree source
  rw [hedits] at hcases hfree
  refine ⟨?_, ?_, ?_, ?_, fun fix hfix => apply_offer_of_before (hbefore fix hfix) source⟩
  · rcases hcases with ⟨hfits, result, hresult, -⟩ | ⟨hmisfit, herror⟩
    · constructor
      · rintro ⟨span, size, herror⟩
        rw [hresult] at herror
        cases herror
      · rintro ⟨e, he, hmisfit⟩
        exact (hfits e he hmisfit).elim
    · exact ⟨fun _ => hmisfit, fun _ => herror⟩
  · intro hfits
    rcases hcases with ⟨-, result, hresult, hsplice⟩ | ⟨⟨e, he, hmisfit⟩, -⟩
    · exact ⟨_, result, sortEdits_perm _, (before_sortEdits hfree).imp Before.precedes, hresult,
        hsplice⟩
    · exact (hfits e he hmisfit).elim
  · intro span h
    rcases hcases with ⟨-, result, hresult, -⟩ | ⟨-, span', size, herror⟩
    · rw [hresult] at h
      cases h
    · rw [herror] at h
      cases h
  · intro order horder
    -- Another order of what was taken has no conflict either, so it is taken whole.
    have hp : (editsOf taken).Perm (editsOf order) := (horder.flatMap_right Fix.edits).symm
    have hall : ({} : EditBuffer).accepted order = order := accepted_eq_self (hfree.perm hp)
    refine ⟨hall, (apply_eq_of_perm (hedits fixes ▸ hfree) ?_ source).symm⟩
    rw [hedits, hedits, hall]
    exact hp

/-- The edits of `second` conflict with those of `first`: the other two are taken, and offered the
other way round they give the same source. -/
theorem offerAll_splices_three :
    let first : Fix := ⟨[.delete ⟨5, 14⟩]⟩
    let second : Fix := ⟨[.insertBefore ⟨0, 3⟩ "x = ", .insertBefore ⟨7, 13⟩ "y"]⟩
    let third : Fix := ⟨[.replace ⟨15, 16⟩ "c"]⟩
    (∀ fix ∈ [first, second, third], ∃ edits, Fix.ofEdits edits = .ok fix) ∧
      [third, first].Perm (({} : EditBuffer).accepted [first, second, third]) ∧
      (({} : EditBuffer).offerAll [third, first]).1.apply "a(); s.trim(); b();" =
        (({} : EditBuffer).offerAll [first, second, third]).1.apply "a(); s.trim(); b();" := by
  intro first second third
  have hsealed : ∀ fix ∈ [first, second, third], ∃ edits, Fix.ofEdits edits = .ok fix := by
    intro fix hfix
    refine ⟨fix.edits, Fix.ofEdits_eq_ok_iff.mpr ⟨?_, (List.mergeSort_of_pairwise ?_).symm⟩⟩ <;>
      revert fix <;> decide
  have htaken : [third, first].Perm (({} : EditBuffer).accepted [first, second, third]) := by
    decide
  exact ⟨hsealed, htaken,
    ((offerAll_splices "a(); s.trim(); b();" _ hsealed).2.2.2.2.1 _ htaken).2⟩

end EditBuffer

end TreeLint
