import TreeLint.Edit.Basic

/-!
# Fixes

A fix is a list of edits to be made together. `Fix.ofEdits` sorts edits by position and refuses a
list with a conflict; fixes read from a document come as they are.

`Fix.apply` makes the edits from the last to the first, so that each span still refers to the
part of the text that no edit has reached. It checks each span against the source, then cuts the
text edited so far, which the edits of an unsorted fix may have moved from under the span.
-/

namespace TreeLint

/-- Edits to be made together, in ascending order when the fix was built by `Fix.ofEdits`. -/
structure Fix where
  edits : List Edit := []
  deriving DecidableEq, Repr, Inhabited

/-- The first two neighbours in a list of edits for which `conflicts` holds. -/
def firstConflict? : List Edit → Option (Edit × Edit)
  | a :: b :: rest => if a.conflicts b then some (a, b) else firstConflict? (b :: rest)
  | _ => none

/-- The `edits` sorted by position; edits at one position keep their order. -/
def sortEdits (edits : List Edit) : List Edit := edits.mergeSort fun a b => a.span.atOrBefore b.span

/-- Cuts the span of `edit` out of `text` and puts the replacement in its place. -/
def Edit.splice? (edit : Edit) (text : List Char) : Option (List Char) := do
  let (front, _) ← Text.splitAt? text edit.span.start
  let (_, back) ← Text.splitAt? text edit.span.stop
  some (front ++ edit.replacement.toList ++ back)

/-- Makes one edit in `text`, the result of making all later ones in `source`. -/
def Edit.applyTo (source : List Char) (edit : Edit) (text : List Char) :
    Except EditError (List Char) :=
  if edit.span.fits source then
    match edit.splice? text with
    | some edited => .ok edited
    | none => .error (.displaced edit.span)
  else .error (.outOfBounds edit.span (Text.byteSize source))

/-- Makes `edits` in `source`, the last one first. -/
def applyEdits (source : List Char) (edits : List Edit) : Except EditError (List Char) :=
  edits.foldr (fun edit text => text.bind (edit.applyTo source)) (.ok source)

namespace Fix

/-- Sorts `edits` by position. Fails with the first neighbours that conflict. -/
def ofEdits (edits : List Edit) : Except EditError Fix :=
  let sorted := sortEdits edits
  match firstConflict? sorted with
  | some (a, b) => .error (.overlap a.span b.span)
  | none => .ok ⟨sorted⟩

/-- Whether the fix changes nothing. -/
def isEmpty (fix : Fix) : Bool := fix.edits.isEmpty

/-- The text `source` after the edits of `fix`. -/
def apply (fix : Fix) (source : String) : Except EditError String :=
  (applyEdits source.toList fix.edits).map String.ofList

end Fix

end TreeLint
