import TreeLint.Disk
import TreeLint.Tree.Builder
import TreeLint.Unit.Document

/-!
# Loading units

A unit is a tree with its type facts. Loading a document gives every node its place in document
order, the root first, and every type name a handle in the order in which the document mentions
it: the declarations first, then the bindings of the nodes.
-/

namespace TreeLint

/-- A source text ready for analysis. -/
structure SourceUnit where
  tree : Tree
  types : TypeTable
  /-- The file that holds the source text, if the document does not. -/
  sourceFile : Option String := none
  deriving Repr, Inhabited

/-- Why a unit cannot be loaded. -/
inductive UnitError where
  /-- A file cannot be read as text. -/
  | unreadable (path : String)
  /-- The document is not JSON, or not of the right shape. -/
  | malformed
  /-- The document has neither a text nor a file that holds it. -/
  | missingSource (path : String)
  | badTree (error : TreeError)
  deriving DecidableEq, Repr

namespace UnitError

/-- The text shown to a user. -/
def message : UnitError → String
  | unreadable path => s!"Failed to read {path}"
  | malformed => "Invalid unit document"
  | missingSource path => s!"Unit {path} has no source text"
  | badTree error => error.message

end UnitError

namespace TypeTable

/-- The handle of a name that may be absent. -/
def internOptional (table : TypeTable) : Option String → Option TypeId × TypeTable
  | none => (none, table)
  | some name =>
    let (type, table) := table.intern name
    (some type, table)

/-- Declares the types of a list right above `type`. -/
def declareSupertypes (table : TypeTable) (type : TypeId) : List String → TypeTable
  | [] => table
  | name :: names =>
    let (super, table) := table.intern name
    (table.addSupertype type super).declareSupertypes type names

/-- Declares types with their supertypes. -/
def declare (table : TypeTable) : List TypeDocument → TypeTable
  | [] => table
  | doc :: docs =>
    let (type, table) := table.intern doc.name
    (table.declareSupertypes type doc.supertypes).declare docs

/-- Binds `node` as `doc` says. -/
def bindDocument (table : TypeTable) (node : NodeId) (doc : BindingDocument) : TypeTable :=
  let (type, table) := table.internOptional doc.type
  let (owner, table) := table.internOptional doc.owner
  let (returns, table) := table.internOptional doc.returns
  table.bind node { kind := doc.kind, type, owner, returns }

end TypeTable

/-- A unit in the making. -/
structure UnitBuilder where
  builder : Builder
  types : TypeTable
  deriving Inhabited

namespace UnitBuilder

/-- Adds the node of `doc` below `parent`, without those below it. -/
def addOne (b : UnitBuilder) (parent : Option NodeId) (doc : NodeDocument) : UnitBuilder :=
  let id := b.builder.nextId
  let builder := b.builder.push doc.kind doc.range doc.name
  let builder := doc.suppressions.foldl (fun builder key => builder.suppress id key) builder
  let builder := match parent with
    | some parent => builder.attach parent id
    | none => builder
  let types := match doc.binding with
    | some binding => b.types.bindDocument id binding
    | none => b.types
  ⟨builder, types⟩

mutual

/-- Adds a node below `parent`, then the nodes below it, each with all of its own before the
next. -/
def add (b : UnitBuilder) (parent : Option NodeId) : NodeDocument → UnitBuilder
  | ⟨kind, range, name, binding, suppressions, children⟩ =>
    (b.addOne parent ⟨kind, range, name, binding, suppressions, children⟩).addAll
      b.builder.nextId children

/-- Adds the nodes right below `parent`, in order. -/
def addAll (b : UnitBuilder) (parent : NodeId) : List NodeDocument → UnitBuilder
  | [] => b
  | doc :: docs => (b.add (some parent) doc).addAll parent docs

end

end UnitBuilder

namespace UnitDocument

/-- The tree and the type facts of `doc` over the text `source`. -/
def build (doc : UnitDocument) (source : String) : Except UnitError (Tree × TypeTable) :=
  let start : UnitBuilder := ⟨⟨doc.path, source, #[]⟩, TypeTable.declare {} doc.types⟩
  let unit := start.add none doc.root
  match unit.builder.finish start.builder.nextId with
  | .ok tree => .ok (tree, unit.types)
  | .error e => .error (.badTree e)

end UnitDocument

namespace SourceUnit

/-- Loads a document. A text in the document comes before a file that it names; a relative path
of a file is taken from the folder `base`. -/
def ofText (disk : Disk) (cwd : Place) (base : String) (text : String) :
    Except UnitError SourceUnit := do
  let some doc := UnitDocument.parse? text | .error .malformed
  match doc.source, doc.sourcePath with
  | some source, _ =>
    let (tree, types) ← doc.build source
    .ok { tree, types }
  | none, some path =>
    let file := Path.join base path
    let some source := disk.readText? cwd file | .error (.unreadable file)
    let (tree, types) ← doc.build source
    .ok { tree, types, sourceFile := some file }
  | none, none => .error (.missingSource doc.path)

/-- Loads the document in the file at `path`. -/
def load (disk : Disk) (cwd : Place) (path : String) : Except UnitError SourceUnit :=
  match disk.readText? cwd path with
  | some text => ofText disk cwd ((Path.directory? path).getD "") text
  | none => .error (.unreadable path)

end SourceUnit

end TreeLint
