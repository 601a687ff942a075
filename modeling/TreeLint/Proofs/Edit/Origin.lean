import Mathlib
import TreeLint.Edit.Json
import TreeLint.Proofs.Edit.Merge

/-!
# Where fixes come from

The edits of a fix are made one in the text that another has left, and this is safe because they are
in order and do not conflict. `Fix.ofEdits` sees to that. `Fix.decode` does not: it takes the edits
of a document as they stand, so a fix that was read can be one whose edits displace each other.

* `Fix.Obtained`: a fix is built from edits, or read from a document.
* `Edited`: what is to become of a source. `edited_apply`, `edited_offerAll`: what becomes of it when
  edits are in order, or at least do not conflict.
* `edited_or_misread`: only fixes that were read, with edits out of order or in conflict, can fail.
  `not_all_obtained_edited` is a document with such a fix.
-/

namespace TreeLint

open Edit

/-- Some `value` of a document was read as `fix`. -/
def Fix.Read (fix : Fix) : Prop := ∃ levels value, Fix.decode levels value = some fix

/-- How a `fix` comes about: built by `ofEdits`, or read by `decode`. -/
inductive Fix.Obtained (fix : Fix) : Prop
  | built {edits : List Edit} (h : Fix.ofEdits edits = .ok fix)
  | read (h : fix.Read)

/-- What becomes of `source` when `edits` are made in it: the splice of them in ascending order or,
when one of them misfits the source, an error about a span out of bounds. -/
def Edited (source : String) (edits : List Edit) (outcome : Except EditError String) : Prop :=
  ((∀ e ∈ edits, ¬ e.span.Misfits source.toList) ∧ ∃ result,
    outcome = .ok (String.ofList result) ∧ Splice 0 source.toList (sortEdits edits) result) ∨
  ((∃ e ∈ edits, e.span.Misfits source.toList) ∧
    ∃ span size, outcome = .error (.outOfBounds span size))

namespace EditBuffer

variable {buffer : EditBuffer} {fixes : List Fix}

theorem mem_of_mem_accepted {fix : Fix} (h : fix ∈ buffer.accepted fixes) : fix ∈ fixes := by
  induction fixes generalizing buffer with
  | nil => simp [accepted] at h
  | cons other fixes ih =>
    rw [accepted_cons] at h
    split at h
    · rcases List.mem_cons.mp h with rfl | h
      · exact List.mem_cons_self
      · exact List.mem_cons_of_mem other (ih h)
    · exact List.mem_cons_of_mem other (ih h)

/-- The `buffer` stays free of conflicts when the fixes that it accepts are, each for itself. -/
theorem conflictFree_of_accepted (hbuffer : ConflictFree buffer.edits)
    (haccepted : ∀ fix ∈ buffer.accepted fixes, ConflictFree fix.edits) :
    ConflictFree (buffer.offerAll fixes).1.edits := by
  induction fixes generalizing buffer with
  | nil => exact hbuffer
  | cons fix fixes ih =>
    rw [accepted_cons] at haccepted
    split at haccepted
    · obtain ⟨hfix, hfixes⟩ := List.forall_mem_cons.mp haccepted
      exact ih (conflictFree_offer hbuffer hfix) hfixes
    · rename_i hrefused
      rw [offer_of_not_accepts (by simpa using hrefused)] at haccepted
      rw [offerAll, offer_of_not_accepts (by simpa using hrefused)]
      exact ih hbuffer haccepted

theorem edited_of_conflictFree (hfree : ConflictFree buffer.edits) (source : String) :
    Edited source buffer.edits (buffer.apply source) := by
  rcases apply_cases hfree source with ⟨hfits, result, hresult, hsplice⟩ | hmisfits
  · exact .inl ⟨hfits, result, hresult, (hsplice result).mpr rfl⟩
  · exact .inr hmisfits

/-- The `fixes` that an empty buffer accepts are made together when no two edits of one of them
conflict (`haccepted`). -/
theorem edited_offerAll (source : String)
    (haccepted : ∀ fix ∈ ({} : EditBuffer).accepted fixes, ConflictFree fix.edits) :
    Edited source (editsOf (({} : EditBuffer).accepted fixes))
      ((({} : EditBuffer).offerAll fixes).1.apply source) := by
  have hedited := edited_of_conflictFree (conflictFree_of_accepted .nil haccepted) source
  rwa [edits_offerAll, List.nil_append] at hedited

end EditBuffer

open EditBuffer

namespace Fix

/-- A `fix` is made when its edits are in order and do not conflict (`hbefore`). -/
theorem edited_apply {fix : Fix} (hbefore : fix.edits.Pairwise Before) (source : String) :
    Edited source fix.edits (fix.apply source) := by
  have haccepts : ({} : EditBuffer).accepts fix = true := accepts_iff.mpr (by simp)
  have hbuffer : ({} : EditBuffer).offer fix = ⟨fix.edits⟩ := offer_of_accepts haccepts
  rw [← apply_offer_of_before hbefore, hbuffer]
  exact @edited_of_conflictFree ⟨fix.edits⟩ (hbefore.imp And.right) source

/-- Let `fixes` be built from edits or read from documents (`hfixes`), and be made one by one and
together. The edits of a fix that was built are in order and do not conflict. Making a fix gives the
source `Edited` as it says, which may be an error about a span out of bounds, unless it was `Read`
with edits that are out of order or conflict. Making those together that a buffer accepts, `taken`,
does so, too, unless one of them was `Read` with edits that conflict. -/
theorem edited_or_misread (source : String) (fixes : List Fix)
    (hfixes : ∀ fix ∈ fixes, fix.Obtained) :
    (∀ edits fix, ofEdits edits = .ok fix → fix.edits.Pairwise Before) ∧
    (∀ fix ∈ fixes, Edited source fix.edits (fix.apply source) ∨
      fix.Read ∧ ¬ fix.edits.Pairwise Before) ∧
    let taken := ({} : EditBuffer).accepted fixes
    Edited source (editsOf taken) ((({} : EditBuffer).offerAll fixes).1.apply source) ∨
      ∃ fix ∈ taken, fix.Read ∧ ¬ ConflictFree fix.edits := by
  refine ⟨fun edits fix => before_of_ofEdits, fun fix hfix => ?_, ?_⟩
  · by_cases hbefore : fix.edits.Pairwise Before
    · exact .inl (edited_apply hbefore source)
    · cases hfixes fix hfix with
      | built h => exact (hbefore (before_of_ofEdits h)).elim
      | read h => exact .inr ⟨h, hbefore⟩
  · by_cases hfree : ∀ fix ∈ ({} : EditBuffer).accepted fixes, ConflictFree fix.edits
    · exact .inl (edited_offerAll source hfree)
    · obtain ⟨fix, hnot⟩ := Classical.not_forall.mp hfree
      obtain ⟨hfix, hconflict⟩ := Classical.not_imp.mp hnot
      cases hfixes fix (mem_of_mem_accepted hfix) with
      | built h => exact (hconflict ((before_of_ofEdits h).imp And.right)).elim
      | read h => exact .inr ⟨fix, hfix, h, hconflict⟩

/-- Two deletions, the one at `2` before the one at `0`. -/
def reversedText : String :=
  "[\x7b\"op\":\"delete\",\"range\":\x7b\"start\":2,\"end\":3\x7d\x7d,"
    ++ "\x7b\"op\":\"delete\",\"range\":\x7b\"start\":0,\"end\":1\x7d\x7d]"

/-- The fix of `reversedText` cannot be made alone, but together with one that was built. -/
theorem edited_or_misread_reversedText :
    let built : Fix := ⟨[.insertBefore ⟨0, 1⟩ "x"]⟩
    let reversed : Fix := ⟨[.delete ⟨2, 3⟩, .delete ⟨0, 1⟩]⟩
    Decode.text? decode reversedText = some reversed ∧
      (∀ fix ∈ [built, reversed], fix.Obtained) ∧
      reversed.apply "abc" = .error (.displaced ⟨2, 3⟩) ∧
      Edited "abc" (editsOf [built, reversed])
        ((({} : EditBuffer).offerAll [built, reversed]).1.apply "abc") := by
  intro built reversed
  have hread : Decode.text? decode reversedText = some reversed := by cbv
  have hobtained : ∀ fix ∈ [built, reversed], fix.Obtained := by
    obtain ⟨value, -, hdecode⟩ := Option.bind_eq_some_iff.mp hread
    rintro fix hfix
    rcases List.mem_pair.mp hfix with rfl | rfl
    · have hbuilt : ofEdits built.edits = .ok built := by cbv
      exact .built hbuilt
    · exact .read ⟨_, value, hdecode⟩
  have htaken : ({} : EditBuffer).accepted [built, reversed] = [built, reversed] := by decide
  obtain ⟨-, -, htogether⟩ := edited_or_misread "abc" [built, reversed] hobtained
  rw [htaken] at htogether
  refine ⟨hread, hobtained, by cbv, htogether.resolve_right ?_⟩
  rintro ⟨fix, hfix, -, hconflict⟩
  rcases List.mem_pair.mp hfix with rfl | rfl
  · exact hconflict (by decide)
  · exact hconflict (by decide)

/-- Two deletions, both of the bytes from `1` to `3`. -/
def overlappingText : String :=
  "[\x7b\"op\":\"delete\",\"range\":\x7b\"start\":0,\"end\":3\x7d\x7d,"
    ++ "\x7b\"op\":\"delete\",\"range\":\x7b\"start\":1,\"end\":3\x7d\x7d]"

/-- A document can hold a fix that displaces its own edits, made alone by `apply` as well as from a
buffer. -/
theorem not_all_obtained_edited :
    (¬ ∀ fix : Fix, fix.Obtained → ∀ source span, fix.apply source ≠ .error (.displaced span)) ∧
    ¬ ∀ fix : Fix, fix.Obtained → ∀ source span,
      (({} : EditBuffer).offer fix).apply source ≠ .error (.displaced span) := by
  have hread : Decode.text? decode overlappingText =
      some ⟨[.delete ⟨0, 3⟩, .delete ⟨1, 3⟩]⟩ := by cbv
  obtain ⟨value, -, hdecode⟩ := Option.bind_eq_some_iff.mp hread
  have hobtained : Obtained ⟨[.delete ⟨0, 3⟩, .delete ⟨1, 3⟩]⟩ := .read ⟨_, value, hdecode⟩
  exact ⟨fun hall => hall _ hobtained "abc" ⟨0, 3⟩ (by cbv),
    fun hall => hall _ hobtained "abc" ⟨0, 3⟩ (by cbv)⟩

end Fix

end TreeLint
