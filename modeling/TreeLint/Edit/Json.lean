import TreeLint.Edit.Fix
import TreeLint.Json.Decode
import TreeLint.Json.Printer

/-!
# Edits as JSON

An edit is an object whose member `op` names the kind of edit. A fix is the array of its edits, in
any order: reading one does not check that its edits are sorted or free of conflicts.
-/

namespace TreeLint

namespace Span

/-- The span `s` as an object with both ends. -/
def toJson (s : Span) : Json := .ofMembers [("start", .ofNat s.start), ("end", .ofNat s.stop)]

/-- Reads a span. -/
def decode : Decoder Span := fun levels v => do
  let fields ← Decode.record ["start", "end"] levels v
  let start ← fields.required "start" (Decode.nat Decode.maxWord)
  let stop ← fields.required "end" (Decode.nat Decode.maxWord)
  some ⟨start, stop⟩

end Span

namespace Edit

/-- An edit as an object, of which the member `op` says what the edit does. -/
def toJson : Edit → Json
  | insertBefore anchor text => .ofMembers
    [("op", .ofString "insert_before"), ("range", anchor.toJson), ("text", .ofString text)]
  | delete removed => .ofMembers [("op", .ofString "delete"), ("range", removed.toJson)]
  | replace removed text => .ofMembers
    [("op", .ofString "replace"), ("range", removed.toJson), ("text", .ofString text)]

/-- Reads an edit. -/
def decode : Decoder Edit :=
  Decode.tagged "op"
    [("insert_before", ["range", "text"], fun fields => do
        some (.insertBefore (← fields.required "range" Span.decode)
          (← fields.required "text" Decode.string))),
     ("delete", ["range"], fun fields => do
        some (.delete (← fields.required "range" Span.decode))),
     ("replace", ["range", "text"], fun fields => do
        some (.replace (← fields.required "range" Span.decode)
          (← fields.required "text" Decode.string)))]

end Edit

namespace Fix

/-- The `fix` as the array of its edits. -/
def toJson (fix : Fix) : Json := .array (fix.edits.map Edit.toJson)

/-- Reads a fix: any array of edits, which need be neither sorted nor without conflict as those of
`Fix.ofEdits` are. -/
def decode : Decoder Fix := fun levels v => (Decode.list Edit.decode levels v).map Fix.mk

end Fix

end TreeLint
