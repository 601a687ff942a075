import TreeLint.Json.Decode
import TreeLint.Typing.Table

/-!
# Unit documents

A front end describes one source text as a JSON document: the path under which it is shown, the
text or the file that holds it, the types known, and the nodes, nested as they are in the source.
A document is read before anything in it is checked against the text.
-/

namespace TreeLint

/-- A type and the types declared right above it, by name. -/
structure TypeDocument where
  name : String
  supertypes : List String := []
  deriving DecidableEq, Repr, Inhabited

/-- What is known about a node, with types by name. -/
structure BindingDocument where
  kind : SymbolKind := .value
  type : Option String := none
  owner : Option String := none
  returns : Option String := none
  deriving DecidableEq, Repr, Inhabited

/-- A node with the nodes below it. -/
structure NodeDocument where
  kind : Kind
  range : Span
  name : Option String := none
  binding : Option BindingDocument := none
  suppressions : List String := []
  children : List NodeDocument := []
  deriving Repr, Inhabited

/-- One source text with its nodes. -/
structure UnitDocument where
  path : String
  source : Option String := none
  /-- The file that holds the text when the document does not. -/
  sourcePath : Option String := none
  types : List TypeDocument := []
  root : NodeDocument
  deriving Repr, Inhabited

/-- Reads a type. -/
def TypeDocument.decode : Decoder TypeDocument := fun levels v => do
  let fields ← Decode.record ["name", "supertypes"] levels v
  let name ← fields.required "name" Decode.string
  let supertypes ← fields.withDefault "supertypes" [] (Decode.list Decode.string)
  some { name, supertypes }

/-- Reads a binding. -/
def BindingDocument.decode : Decoder BindingDocument := fun levels v => do
  let fields ← Decode.record ["kind", "type", "owner", "returns"] levels v
  let kind ← fields.withDefault "kind" .value (Decode.choice SymbolKind.byName)
  let type ← fields.optional "type" Decode.string
  let owner ← fields.optional "owner" Decode.string
  let returns ← fields.optional "returns" Decode.string
  some { kind, type, owner, returns }

namespace NodeDocument

/-- Reads a node that has at most `depth - 1` levels of nodes below it. -/
def decodeWithin : (depth : Nat) → Decoder NodeDocument
  | 0, _, _ => none
  | depth + 1, levels, v => do
    let fields ← Decode.record
      ["kind", "start", "end", "name", "binding", "suppress", "children"] levels v
    let kind ← fields.required "kind" (Decode.choice Kind.byName)
    let start ← fields.required "start" (Decode.nat Decode.maxWord)
    let stop ← fields.required "end" (Decode.nat Decode.maxWord)
    let name ← fields.optional "name" Decode.string
    let binding ← fields.optional "binding" BindingDocument.decode
    let suppressions ← fields.withDefault "suppress" [] (Decode.list Decode.string)
    let children ← fields.withDefault "children" [] (Decode.list (decodeWithin depth))
    some { kind, range := ⟨start, stop⟩, name, binding, suppressions, children }

/-- Reads a node. The nodes of a document nest no deeper than its containers may
(`Decode.maxDepth`). -/
def decode : Decoder NodeDocument := decodeWithin Decode.maxDepth

end NodeDocument

namespace UnitDocument

/-- Reads a document. -/
def decode : Decoder UnitDocument := fun levels v => do
  let fields ← Decode.record ["path", "source", "source_path", "types", "root"] levels v
  let path ← fields.required "path" Decode.string
  let source ← fields.optional "source" Decode.string
  let sourcePath ← fields.optional "source_path" Decode.string
  let types ← fields.withDefault "types" [] (Decode.list TypeDocument.decode)
  let root ← fields.required "root" NodeDocument.decode
  some { path, source, sourcePath, types, root }

/-- Reads a document from `text`. -/
def parse? (text : String) : Option UnitDocument := Decode.text? decode text

end UnitDocument

end TreeLint
