import TreeLint.Proofs.Edit.Order

/-!
# Building a fix

`Fix.ofEdits` sorts edits, which may tie, and compares each with the next one only. Whether two edits
conflict is a matter of their spans, and the spans come sorted to the same list however the edits
were given. So the answer to edits in any arrangement is the same, the error included.

* `conflicts_congr`, `map_span_sortEdits_eq`: spans decide, and what sorting makes of them.
* `firstConflict?_spans_eq`, `sublist_of_firstConflict?`: the pair that an error reports.
* `Fix.ofEdits_eq_of_perm`, `Fix.ofEdits_spec`: when a fix is built, and from what.
-/

namespace TreeLint

open Edit

theorem Span.atOrBefore_antisymm {a b : Span} (hab : a.atOrBefore b = true)
    (hba : b.atOrBefore a = true) : a = b := by
  cases a
  cases b
  simp only [atOrBefore, Bool.or_eq_true, Bool.and_eq_true, decide_eq_true_eq, beq_iff_eq] at *
  simp only [Span.mk.injEq]
  omega

/-! ## Spans decide -/

/-- Edits conflict as their spans do (`ha`, `hb`), whatever texts they put in. -/
theorem Edit.conflicts_congr {a b a' b' : Edit} (ha : a.span = a'.span) (hb : b.span = b'.span) :
    a.conflicts b = a'.conflicts b' := by
  rw [conflicts, conflicts, ha, hb]

/-- Sorting brings the spans of `edits` into one order, whatever order they had. -/
theorem map_span_sortEdits_eq {edits edits' : List Edit} (h : edits.Perm edits') :
    (sortEdits edits).map span = (sortEdits edits').map span := by
  have hperm : (sortEdits edits).Perm (sortEdits edits') :=
    (sortEdits_perm edits).trans (h.trans (sortEdits_perm edits').symm)
  have hsorted : ∀ edits, ((sortEdits edits).map span).Pairwise fun a b => a.atOrBefore b = true :=
    fun edits => List.pairwise_map.mpr (atOrBefore_sortEdits edits)
  exact (hperm.map span).eq_of_pairwise (fun _ _ _ _ => Span.atOrBefore_antisymm)
    (hsorted edits) (hsorted edits')

/-- The neighbours that `firstConflict?` finds are told by the spans. -/
theorem firstConflict?_spans_eq {edits edits' : List Edit}
    (h : edits.map span = edits'.map span) :
    (firstConflict? edits).map (Prod.map span span) =
      (firstConflict? edits').map (Prod.map span span) := by
  induction edits generalizing edits' with
  | nil =>
    obtain rfl : edits' = [] := List.map_eq_nil_iff.mp h.symm
    rfl
  | cons a rest ih =>
    obtain ⟨a', rest', rfl, ha, hrest⟩ := List.map_eq_cons_iff.mp h.symm
    have htail := ih hrest.symm
    cases rest with
    | nil =>
      obtain rfl : rest' = [] := List.map_eq_nil_iff.mp hrest
      rfl
    | cons b rest =>
      obtain ⟨b', rest', rfl, hb, -⟩ := List.map_eq_cons_iff.mp hrest
      rw [firstConflict?, firstConflict?, conflicts_congr ha hb]
      split
      · simp [ha, hb]
      · exact htail

/-! ## The pair that is reported -/

/-- The neighbours `a` and `b` that conflict stand in `edits`, one behind the other. -/
theorem sublist_of_firstConflict? {edits : List Edit} {a b : Edit}
    (h : firstConflict? edits = some (a, b)) : [a, b].Sublist edits ∧ a.conflicts b = true := by
  fun_induction firstConflict? edits with
  | case1 x y rest hconflict =>
    cases h
    exact ⟨.cons_cons _ (.cons_cons _ (List.nil_sublist rest)), hconflict⟩
  | case2 x y rest _ ih =>
    obtain ⟨hsublist, hconflict⟩ := ih h
    exact ⟨hsublist.cons x, hconflict⟩
  | case3 => cases h

/-- Two members `a` and `b` of a list `l` stand at two places of any arrangement `l'` of it. -/
theorem exists_getElem_of_sublist_perm {α : Type} {l l' : List α} {a b : α}
    (h : [a, b].Sublist l) (hperm : l.Perm l') :
    ∃ i j, ∃ (hi : i < l'.length) (hj : j < l'.length), i ≠ j ∧ l'[i] = a ∧ l'[j] = b := by
  by_contra hnone
  have hapart : l'.Pairwise fun x y => ¬ (x = a ∧ y = b) ∧ ¬ (y = a ∧ x = b) :=
    List.pairwise_iff_getElem.mpr fun i j hi hj hlt =>
      ⟨fun ⟨ha, hb⟩ => hnone ⟨i, j, hi, hj, by omega, ha, hb⟩,
        fun ⟨ha, hb⟩ => hnone ⟨j, i, hj, hi, by omega, ha, hb⟩⟩
  have hother := hperm.symm.pairwise hapart fun h => ⟨h.2, h.1⟩
  exact (List.pairwise_iff_forall_sublist.mp hother h).1 ⟨rfl, rfl⟩

/-- No two of `edits` conflict, at whatever places `i` and `j` they stand. -/
theorem Edit.conflictFree_iff_getElem {edits : List Edit} : ConflictFree edits ↔
    ∀ i j (hi : i < edits.length) (hj : j < edits.length), i ≠ j →
      edits[i].conflicts edits[j] = false := by
  rw [ConflictFree, List.pairwise_iff_getElem]
  constructor
  · intro h i j hi hj hne
    rcases Nat.lt_or_gt_of_ne hne with hlt | hlt
    · exact h i j hi hj hlt
    · rw [conflicts_comm]
      exact h j i hj hi hlt
  · exact fun h i j hi hj hlt => h i j hi hj (Nat.ne_of_lt hlt)

/-! ## Building -/

namespace Fix

/-- An `error` reports the spans of the neighbours that `firstConflict?` finds. -/
theorem ofEdits_eq_error_iff {edits : List Edit} {error : EditError} :
    ofEdits edits = .error error ↔ ∃ a b, firstConflict? (sortEdits edits) = some (a, b) ∧
      error = .overlap a.span b.span := by
  unfold ofEdits
  simp only []
  cases firstConflict? (sortEdits edits) with
  | none => simp
  | some pair => simp [Prod.ext_iff, eq_comm]

/-- Edits in any arrangement, `edits` or `edits'`, give the same fix or the same error. -/
theorem ofEdits_eq_of_perm {edits edits' : List Edit} (h : edits.Perm edits') :
    ofEdits edits = ofEdits edits' := by
  cases hresult : ofEdits edits with
  | ok fix =>
    obtain ⟨hfree, hfix⟩ := ofEdits_eq_ok_iff.mp hresult
    exact (ofEdits_eq_ok_iff.mpr ⟨hfree.perm h, hfix.trans (sortEdits_eq_of_perm hfree h)⟩).symm
  | error error =>
    obtain ⟨a, b, hconflict, rfl⟩ := ofEdits_eq_error_iff.mp hresult
    -- The edits may change places where they tie, but not their spans.
    have hspans := firstConflict?_spans_eq (map_span_sortEdits_eq h)
    rw [hconflict, Option.map_some, eq_comm, Option.map_eq_some_iff] at hspans
    obtain ⟨⟨a', b'⟩, hconflict', hpair⟩ := hspans
    obtain ⟨ha, hb⟩ := Prod.mk.inj hpair
    exact (ofEdits_eq_error_iff.mpr ⟨a', b', hconflict', by rw [ha, hb]⟩).symm

/-- **Sealing.** `ofEdits` builds a fix exactly from `edits` of which no two conflict. The `fix`
holds the same edits, strictly ordered by their spans. Otherwise the `error` reports the spans of
two edits that conflict. The `order` in which the edits are given makes no difference to either. -/
theorem ofEdits_spec (edits : List Edit) :
    ((∃ fix, ofEdits edits = .ok fix) ↔
      ∀ i j (hi : i < edits.length) (hj : j < edits.length), i ≠ j →
        edits[i].conflicts edits[j] = false) ∧
    (∀ fix, ofEdits edits = .ok fix →
      fix.edits.Perm edits ∧ fix.edits.Pairwise fun a b => a.span.Precedes b.span) ∧
    (∀ error, ofEdits edits = .error error →
      ∃ i j, ∃ (hi : i < edits.length) (hj : j < edits.length), i ≠ j ∧
        edits[i].conflicts edits[j] = true ∧ error = .overlap edits[i].span edits[j].span) ∧
    ∀ order, order.Perm edits → ofEdits order = ofEdits edits := by
  refine ⟨?_, fun fix hfix => ?_, fun error herror => ?_, fun order => ofEdits_eq_of_perm⟩
  · rw [← conflictFree_iff_getElem]
    constructor
    · rintro ⟨fix, hfix⟩
      exact (ofEdits_eq_ok_iff.mp hfix).1
    · exact fun hfree => ⟨⟨sortEdits edits⟩, ofEdits_eq_ok_iff.mpr ⟨hfree, rfl⟩⟩
  · refine ⟨?_, (before_of_ofEdits hfix).imp Before.precedes⟩
    rw [(ofEdits_eq_ok_iff.mp hfix).2]
    exact sortEdits_perm edits
  · obtain ⟨a, b, hfirst, rfl⟩ := ofEdits_eq_error_iff.mp herror
    obtain ⟨hsublist, hconflict⟩ := sublist_of_firstConflict? hfirst
    obtain ⟨i, j, hi, hj, hne, rfl, rfl⟩ :=
      exists_getElem_of_sublist_perm hsublist (sortEdits_perm edits)
    exact ⟨i, j, hi, hj, hne, hconflict, rfl⟩

/-- Something may be put in where one removal ends and the next begins. -/
example : ofEdits [.delete ⟨5, 9⟩, .insertBefore ⟨5, 6⟩ "x", .delete ⟨2, 5⟩] =
    .ok ⟨[.delete ⟨2, 5⟩, .insertBefore ⟨5, 6⟩ "x", .delete ⟨5, 9⟩]⟩ := by
  cbv

end Fix

end TreeLint
