import TreeLint.Span

/-!
# Edits

An edit is one change to a source text. Its span always refers to the text before any edit.

- `Edit.span` and `Edit.replacement`: every edit cuts out a span and puts a text in its place.
- `Edit.conflicts` says when two edits cannot both be made, because the result would depend on
  their order or a byte would be removed twice.
-/

namespace TreeLint

/-- One change to a source text. -/
inductive Edit where
  /-- Puts `text` in front of the first byte of `anchor`. -/
  | insertBefore (anchor : Span) (text : String)
  /-- Removes `removed`. -/
  | delete (removed : Span)
  /-- Removes `removed` and puts `text` in its place. -/
  | replace (removed : Span) (text : String)
  deriving DecidableEq, Repr, Inhabited

/-- Why edits cannot be combined or made. -/
inductive EditError where
  /-- Two edits of one fix conflict. -/
  | overlap (first second : Span)
  /-- A span has its ends out of order, past the end or inside a character of the source. -/
  | outOfBounds (span : Span) (sourceSize : Nat)
  /-- A span fits the source, but no longer the text in which later edits have been made. -/
  | displaced (span : Span)
  deriving DecidableEq, Repr

namespace EditError

/-- The text shown to a user. -/
def message : EditError → String
  | overlap first second => s!"edits overlap: {first} and {second}"
  | outOfBounds span size => s!"edit range {span} is invalid for a source of {size} bytes"
  | displaced span => s!"edit range {span} does not fit the edited text"

end EditError

namespace Edit

/-- The span cut out of the source; an insertion cuts out nothing. -/
def span : Edit → Span
  | insertBefore anchor _ => .point anchor.start
  | delete removed => removed
  | replace removed _ => removed

/-- The text put in place of `span`. -/
def replacement : Edit → String
  | insertBefore _ text => text
  | delete _ => ""
  | replace _ text => text

/-- The insertion of `text` behind the last byte of `anchor`. -/
def insertAfter (anchor : Span) (text : String) : Edit := insertBefore (.point anchor.stop) text

/-- Two insertions `a` and `b` conflict at the same point, an insertion and a removal when the point
lies strictly inside the removed span, and two removals when they share a byte. -/
def conflicts (a b : Edit) : Bool :=
  match a.span.isEmpty, b.span.isEmpty with
  | true, true => a.span.start == b.span.start
  | true, false => b.span.start < a.span.start && a.span.start < b.span.stop
  | false, true => a.span.start < b.span.start && b.span.start < a.span.stop
  | false, false => a.span.start < b.span.stop && b.span.start < a.span.stop

/-- Whether `a` and `b` conflict does not depend on which is named first. -/
theorem conflicts_comm (a b : Edit) : a.conflicts b = b.conflicts a := by
  unfold conflicts
  cases a.span.isEmpty <;> cases b.span.isEmpty <;> simp [Bool.and_comm, BEq.comm]

end Edit

end TreeLint
