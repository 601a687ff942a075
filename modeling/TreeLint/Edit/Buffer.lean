import TreeLint.Edit.Fix

/-!
# Merging fixes

An edit buffer collects the fixes of several findings over one source. A fix is taken whole or
not at all: one edit that conflicts with an edit already taken refuses it.
-/

namespace TreeLint

/-- The edits of the fixes accepted so far, in the order of acceptance. -/
structure EditBuffer where
  edits : List Edit := []
  deriving DecidableEq, Repr, Inhabited

namespace EditBuffer

/-- Whether no edit of `fix` conflicts with an edit of the buffer. -/
def accepts (buffer : EditBuffer) (fix : Fix) : Bool :=
  !fix.edits.any fun new => buffer.edits.any fun old => old.conflicts new

/-- The buffer after `fix` was offered. -/
def offer (buffer : EditBuffer) (fix : Fix) : EditBuffer :=
  if buffer.accepts fix then ⟨buffer.edits ++ fix.edits⟩ else buffer

/-- Offers `fixes` in order: the final buffer, and which were accepted. -/
def offerAll (buffer : EditBuffer) : List Fix → EditBuffer × List Bool
  | [] => (buffer, [])
  | fix :: fixes =>
    let (final, taken) := (buffer.offer fix).offerAll fixes
    (final, buffer.accepts fix :: taken)

/-- Whether `buffer` holds no edits: nothing was accepted, or only fixes without edits. -/
def isEmpty (buffer : EditBuffer) : Bool := buffer.edits.isEmpty

/-- The text `source` after all edits of `buffer`. -/
def apply (buffer : EditBuffer) (source : String) : Except EditError String :=
  (applyEdits source.toList (sortEdits buffer.edits)).map String.ofList

end EditBuffer

end TreeLint
