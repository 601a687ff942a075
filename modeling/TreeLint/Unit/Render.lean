import TreeLint.Json.Printer
import TreeLint.Unit.Document

/-!
# Rendering units

The document of a tree and its type facts. Members stand in the order of their names, and those
that say nothing are left out: a name that is absent, a node without binding, an empty list of
suppressions. The text is always part of the document.
-/

namespace TreeLint

/-- The object with those of `members` that are present. -/
def presentMembers (members : List (String × Option Json)) : Json :=
  .ofMembers (members.filterMap fun (key, value) => value.map (key, ·))

/-- The array of the strings in `l`. -/
def stringArray (l : List String) : Json := .array (l.map Json.ofString)

namespace TypeDocument

/-- The type of `doc` as an object. -/
def toJson (doc : TypeDocument) : Json :=
  .ofMembers [("name", .ofString doc.name), ("supertypes", stringArray doc.supertypes)]

end TypeDocument

namespace BindingDocument

/-- The binding of `doc` as an object. -/
def toJson (doc : BindingDocument) : Json := presentMembers
  [("kind", some (.ofString doc.kind.name)), ("owner", doc.owner.map Json.ofString),
   ("returns", doc.returns.map Json.ofString), ("type", doc.type.map Json.ofString)]

/-- The binding `b` with its types by name, as `types` has them. -/
def ofBinding (types : TypeTable) (b : Binding) : BindingDocument :=
  let named (type : Option TypeId) := type.map fun type => (types.typeName? type).getD ""
  { kind := b.kind, type := named b.type, owner := named b.owner, returns := named b.returns }

end BindingDocument

namespace NodeDocument

mutual

/-- A node as an object. -/
def toJson : NodeDocument → Json
  | ⟨kind, range, name, binding, suppressions, children⟩ => presentMembers
    [("binding", binding.map BindingDocument.toJson), ("children", some (.array (toJsons children))),
     ("end", some (.ofNat range.stop)), ("kind", some (.ofString kind.name)),
     ("name", name.map Json.ofString), ("start", some (.ofNat range.start)),
     ("suppress", if suppressions.isEmpty then none else some (stringArray suppressions))]

/-- Nodes as objects. -/
def toJsons : List NodeDocument → List Json
  | [] => []
  | doc :: docs => toJson doc :: toJsons docs

end

/-- A node of a tree with what lies at most `bound - 1` levels below it. -/
def ofNodeWithin (tree : Tree) (types : TypeTable) : (bound : Nat) → NodeId → Option NodeDocument
  | 0, _ => none
  | bound + 1, id => (tree.node? id).map fun node =>
    { kind := node.kind, range := node.range, name := node.name
      binding := (types.binding? id).map (BindingDocument.ofBinding types)
      suppressions := node.suppressions
      children := node.children.filterMap (ofNodeWithin tree types bound) }

/-- The node `id` of `tree` with all that lies below it. -/
def ofNode? (tree : Tree) (types : TypeTable) (id : NodeId) : Option NodeDocument :=
  ofNodeWithin tree types tree.size id

end NodeDocument

namespace UnitDocument

/-- The types of the table `types`, each with those declared right above it. -/
def typeDocuments (types : TypeTable) : List TypeDocument :=
  types.types.toList.map fun info =>
    { name := info.name
      supertypes := info.supertypes.map fun super => (types.typeName? super).getD "" }

/-- The document of `tree` and its type facts `types`, with the text in it. -/
def ofTree? (tree : Tree) (types : TypeTable) : Option UnitDocument :=
  (NodeDocument.ofNode? tree types tree.root).map fun root =>
    { path := tree.path, source := tree.source, types := typeDocuments types, root }

/-- The document `doc` as an object. -/
def toJson (doc : UnitDocument) : Json := presentMembers
  [("path", some (.ofString doc.path)), ("root", some doc.root.toJson),
   ("source", doc.source.map Json.ofString), ("source_path", doc.sourcePath.map Json.ofString),
   ("types", some (.array (doc.types.map TypeDocument.toJson)))]

/-- The text of `doc`, on one line. -/
def render (doc : UnitDocument) : String := doc.toJson.compact

end UnitDocument

end TreeLint
