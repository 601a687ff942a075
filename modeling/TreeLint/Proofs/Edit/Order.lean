import Mathlib.Data.List.Chain
import TreeLint.Edit.Fix

/-!
# The order of edits

`Fix.ofEdits` sorts edits by position and looks for a conflict between neighbours only. That is
enough: among edits in order, to be free of conflict with the next one is transitive.

* `Edit.Before`: one edit stands in front of another and both can be made. `before_iff` says so in
  offsets, and `Before.trans` is read off it.
* `before_sortEdits`: edits without a conflict are strictly ordered once they are sorted, so all
  arrangements of them sort to one list (`sortEdits_eq_of_perm`).
* `Fix.ofEdits_eq_ok_iff`: a fix is built exactly from edits of which no two conflict.
-/

namespace TreeLint

/-- `a` comes before `b` in the order of positions, and strictly so. -/
def Span.Precedes (a b : Span) : Prop := a.start < b.start ∨ (a.start = b.start ∧ a.stop < b.stop)

namespace Edit

/-- `a` stands at or before the position of `b`, and the two do not conflict. -/
def Before (a b : Edit) : Prop := a.span.atOrBefore b.span = true ∧ a.conflicts b = false

/-- No two of `edits` conflict. -/
def ConflictFree (edits : List Edit) : Prop := edits.Pairwise fun a b => a.conflicts b = false

instance (edits : List Edit) : Decidable (ConflictFree edits) :=
  inferInstanceAs (Decidable (edits.Pairwise fun a b => a.conflicts b = false))

/-- An edit `a` that removes bytes ends where the next one, `b`, may begin; one that removes none
only keeps another such edit from its own place. -/
theorem before_iff {a b : Edit} :
    a.Before b ↔ a.span.start ≤ b.span.start ∧
      (a.span.start < a.span.stop → a.span.stop ≤ b.span.start) ∧
      (a.span.stop ≤ a.span.start → b.span.stop ≤ b.span.start →
        a.span.start < b.span.start) := by
  simp only [Before, conflicts, Span.atOrBefore, Span.isEmpty]
  by_cases ha : a.span.stop ≤ a.span.start <;> by_cases hb : b.span.stop ≤ b.span.start <;>
    simp only [ha, hb, decide_true, decide_false, Bool.or_eq_true, Bool.and_eq_true,
      Bool.and_eq_false_iff, beq_iff_eq, beq_eq_false_iff_ne, decide_eq_true_eq,
      decide_eq_false_iff_not, true_imp_iff, false_imp_iff] <;> grind

theorem Before.trans {a b c : Edit} (hab : a.Before b) (hbc : b.Before c) : a.Before c := by
  rw [before_iff] at *
  omega

instance : Trans Before Before Before := ⟨Before.trans⟩

theorem Before.precedes {a b : Edit} (h : a.Before b) : a.span.Precedes b.span := by
  rw [before_iff] at h
  unfold Span.Precedes
  omega

theorem Before.asymm {a b : Edit} (hab : a.Before b) (hba : b.Before a) : False := by
  rw [before_iff] at *
  omega

end Edit

namespace Span

theorem atOrBefore_trans (a b c : Span) (hab : a.atOrBefore b = true) (hbc : b.atOrBefore c = true) :
    a.atOrBefore c = true := by
  simp only [atOrBefore, Bool.or_eq_true, Bool.and_eq_true, decide_eq_true_eq, beq_iff_eq] at *
  omega

theorem atOrBefore_total (a b : Span) : (a.atOrBefore b || b.atOrBefore a) = true := by
  simp only [atOrBefore, Bool.or_eq_true, Bool.and_eq_true, decide_eq_true_eq, beq_iff_eq]
  omega

end Span

open Edit

/-! ## Sorting -/

theorem sortEdits_perm (edits : List Edit) : (sortEdits edits).Perm edits :=
  List.mergeSort_perm _ _

theorem atOrBefore_sortEdits (edits : List Edit) :
    (sortEdits edits).Pairwise fun a b => a.span.atOrBefore b.span = true :=
  List.pairwise_mergeSort (fun a b c => Span.atOrBefore_trans a.span b.span c.span)
    (fun a b => Span.atOrBefore_total a.span b.span) edits

theorem Edit.ConflictFree.perm {edits edits' : List Edit} (h : ConflictFree edits)
    (hp : edits.Perm edits') : ConflictFree edits' :=
  hp.pairwise h fun hxy => by rwa [conflicts_comm]

/-- Edits that are `ConflictFree` are strictly ordered by `sortEdits`. -/
theorem before_sortEdits {edits : List Edit} (h : ConflictFree edits) :
    (sortEdits edits).Pairwise Before :=
  (atOrBefore_sortEdits edits).and (h.perm (sortEdits_perm edits).symm)

/-- Strictly ordered edits `l₁` are the only such arrangement `l₂` of themselves. -/
theorem eq_of_perm_of_before {l₁ l₂ : List Edit} (h₁ : l₁.Pairwise Before)
    (h₂ : l₂.Pairwise Before) (hp : l₁.Perm l₂) : l₁ = l₂ :=
  hp.eq_of_pairwise (fun _ _ _ _ hab hba => (hab.asymm hba).elim) h₁ h₂

theorem sortEdits_eq_of_perm {edits edits' : List Edit} (h : ConflictFree edits)
    (hp : edits.Perm edits') : sortEdits edits = sortEdits edits' :=
  eq_of_perm_of_before (before_sortEdits h) (before_sortEdits (h.perm hp))
    ((sortEdits_perm edits).trans (hp.trans (sortEdits_perm edits').symm))

/-! ## Building a fix -/

theorem firstConflict?_eq_none_iff {edits : List Edit} :
    firstConflict? edits = none ↔ edits.IsChain fun a b => a.conflicts b = false := by
  fun_induction firstConflict? edits with
  | case1 a b rest hc => simp [hc]
  | case2 a b rest hc ih => simpa [hc] using ih
  | case3 edits hne =>
    match edits, hne with
    | [], _ => simp
    | [a], _ => simp
    | a :: b :: rest, hne => exact (hne a b rest rfl).elim

/-- For sorted `edits` it is enough that `firstConflict?` finds no neighbours in conflict. -/
theorem conflictFree_of_firstConflict? {edits : List Edit}
    (h : firstConflict? (sortEdits edits) = none) : ConflictFree edits := by
  have hchain : (sortEdits edits).IsChain Before :=
    List.isChain_iff_getElem.mpr fun i hi =>
      ⟨List.isChain_iff_getElem.mp (atOrBefore_sortEdits edits).isChain i hi,
        List.isChain_iff_getElem.mp (firstConflict?_eq_none_iff.mp h) i hi⟩
  have hpair : (sortEdits edits).Pairwise Before := List.isChain_iff_pairwise.mp hchain
  exact ConflictFree.perm (hpair.imp And.right) (sortEdits_perm edits)

/-- A `fix` is built exactly from `edits` that are `ConflictFree`, and then holds them sorted. -/
theorem Fix.ofEdits_eq_ok_iff {edits : List Edit} {fix : Fix} :
    Fix.ofEdits edits = .ok fix ↔ ConflictFree edits ∧ fix.edits = sortEdits edits := by
  unfold Fix.ofEdits
  simp only []
  cases hc : firstConflict? (sortEdits edits) with
  | none =>
    have hfree := conflictFree_of_firstConflict? hc
    constructor
    · rintro ⟨⟩
      exact ⟨hfree, rfl⟩
    · rintro ⟨-, hfix⟩
      rw [← hfix]
  | some pair =>
    constructor
    · rintro ⟨⟩
    rintro ⟨hfree, -⟩
    have hnone : firstConflict? (sortEdits edits) = none :=
      firstConflict?_eq_none_iff.mpr ((before_sortEdits hfree).imp And.right).isChain
    rw [hnone] at hc
    cases hc

/-- The edits of a `fix` built by `ofEdits` are strictly ordered. -/
theorem Fix.before_of_ofEdits {edits : List Edit} {fix : Fix} (h : Fix.ofEdits edits = .ok fix) :
    fix.edits.Pairwise Before := by
  obtain ⟨hfree, hfix⟩ := Fix.ofEdits_eq_ok_iff.mp h
  rw [hfix]
  exact before_sortEdits hfree

end TreeLint
