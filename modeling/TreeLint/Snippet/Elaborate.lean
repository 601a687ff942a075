import TreeLint.Snippet.Parser
import TreeLint.Snippet.Scope

/-!
# From the syntax of a snippet to a bound tree

Elaboration adds a node for every construct, a construct behind its parts, and binds each node
that refers to something the scope knows. Only types known for certain are bound: a member of an
object whose type is not known stays unbound, and so does a name that the scope does not hold.

- `Draft.addExpr` and `Draft.addItem` add one construct with its parts.
- `Snippet.parse` reads a text against a scope.
-/

namespace TreeLint

namespace Snippet

/-- A tree in the making, with the variables declared so far. -/
structure Draft where
  scope : Scope
  builder : Builder
  deriving Inhabited

/-- An expression that was added: its node, and its type if that is known. -/
abbrev Typed := NodeId × Option TypeId

namespace Draft

/-- Adds a node above `children`. -/
def node (d : Draft) (kind : Kind) (range : Span) (name : Option String)
    (children : List NodeId) : NodeId × Draft :=
  let id := d.builder.nextId
  (id, { d with
    builder := children.foldl (fun b child => b.attach id child) (d.builder.push kind range name) })

/-- Binds the node `id`. -/
def bind (d : Draft) (id : NodeId) (binding : Binding) : Draft :=
  { d with scope := { d.scope with types := d.scope.types.bind id binding } }

/-- Adds a node for a value, of a `type` that may be unknown. -/
def valueNode (d : Draft) (kind : Kind) (range : Span) (children : List NodeId)
    (type : Option TypeId) : Typed × Draft :=
  let (id, d) := d.node kind range none children
  ((id, type), d.bind id { kind := .value, type })

/-! ## Names -/

/-- What `name` stands for: a local variable comes before a field, a field before a type. -/
def nameBinding? (scope : Scope) (name : String) : Option Binding :=
  match scope.locals.get? name, scope.fields.get? name, scope.resolveType? name with
  | some type, _, _ => some { kind := .localVariable, type }
  | none, some type, _ => some { kind := .field, type, owner := scope.selfType }
  | none, none, some type => some { kind := .typeName, type }
  | none, none, none => none

/-- What the member `name` of an object of type `receiver` stands for when it is not called: a
field, if the type is that of the object itself. -/
def memberBinding? (scope : Scope) (receiver : Option TypeId) (name : String) : Option Binding :=
  if receiver = some scope.selfType then
    (scope.fields.get? name).map fun type => { kind := .field, type, owner := scope.selfType }
  else none

/-- What the callee of a call on an object of type `receiver` stands for: the method that
`Scope.method?` finds. -/
def methodBinding? (scope : Scope) (receiver : Option TypeId) (name : String) : Option Binding :=
  (receiver.bind fun owner => scope.method? owner name).map fun (owner, returns) =>
    { kind := .method, owner, returns }

/-- Adds a node that refers to something, bound if the `binding` is known. -/
def reference (d : Draft) (kind : Kind) (range : Span) (name : String) (children : List NodeId)
    (binding : Option Binding) : NodeId × Draft :=
  let (id, d) := d.node kind range name children
  match binding with
  | some binding => (id, d.bind id binding)
  | none => (id, d)

/-! ## Expressions -/

/-- The type of a literal. -/
def literalType? (scope : Scope) : LiteralKind → Option TypeId
  | .string => scope.resolveType? "java.lang.String"
  | .number => scope.resolveType? "int"
  | .boolean => scope.resolveType? "boolean"
  | .null => none

mutual

/-- Adds an expression. -/
def addExpr (d : Draft) : Expr → Typed × Draft
  | .literal .null span =>
    let (id, d) := d.node .literal span none []
    ((id, none), d)
  | .literal kind span => d.valueNode .literal span [] (literalType? d.scope kind)
  | .self span =>
    let type := some d.scope.selfType
    let (id, d) := d.reference .identifier span "this" [] (some { kind := .localVariable, type })
    ((id, type), d)
  | .name name span =>
    let binding := nameBinding? d.scope name
    let (id, d) := d.reference .identifier span name [] binding
    ((id, binding.bind Binding.type), d)
  | .paren inner span =>
    let ((inner, type), d) := d.addExpr inner
    d.valueNode .parenthesized span [inner] type
  | .create type arguments span =>
    let type := d.scope.resolveType? type
    let (arguments, d) := d.addArguments arguments
    d.valueNode .newObject span arguments type
  | .callOwn method place arguments stop =>
    let binding := methodBinding? d.scope (some d.scope.selfType) method
    let (callee, d) := d.reference .identifier place method [] binding
    let (arguments, d) := d.addArguments arguments
    d.valueNode .methodInvocation ⟨place.start, stop⟩ (callee :: arguments)
      (binding.bind Binding.returns)
  | .select receiver member stop =>
    let span : Span := ⟨receiver.span.start, stop⟩
    let ((receiver, type), d) := d.addExpr receiver
    let binding := memberBinding? d.scope type member
    let (id, d) := d.reference .memberSelect span member [receiver] binding
    ((id, binding.bind Binding.type), d)
  | .callOn receiver method nameStop arguments stop =>
    let start := receiver.span.start
    let ((receiver, type), d) := d.addExpr receiver
    let binding := methodBinding? d.scope type method
    let (callee, d) := d.reference .memberSelect ⟨start, nameStop⟩ method [receiver] binding
    let (arguments, d) := d.addArguments arguments
    d.valueNode .methodInvocation ⟨start, stop⟩ (callee :: arguments)
      (binding.bind Binding.returns)
  | .assign target value =>
    let span : Span := ⟨target.span.start, value.span.stop⟩
    let ((target, type), d) := d.addExpr target
    let ((value, _), d) := d.addExpr value
    d.valueNode .assignment span [target, value] type

/-- Adds the arguments of a call, in order. -/
def addArguments (d : Draft) : List Expr → List NodeId × Draft
  | [] => ([], d)
  | argument :: rest =>
    let ((id, _), d) := d.addExpr argument
    let (ids, d) := d.addArguments rest
    (id :: ids, d)

end

/-! ## Items -/

/-- Adds an expression that may be absent. -/
def addOptional (d : Draft) : Option Expr → List NodeId × Draft
  | none => ([], d)
  | some value =>
    let ((id, _), d) := d.addExpr value
    ([id], d)

/-- Keeps the rules named by `keys` from reporting a node. -/
def suppress (d : Draft) (id : NodeId) (keys : List String) : Draft :=
  { d with builder := keys.foldl (fun b key => b.suppress id key) d.builder }

mutual

/-- Adds a statement or a block. A variable is known to `d` behind its declaration, up to the end of
the snippet. -/
def addItem (d : Draft) : Item → NodeId × Draft
  | .block items span =>
    let (ids, d) := d.addItems items
    d.node .block span none ids
  | .suppressed keys item =>
    let (id, d) := d.addItem item
    (id, d.suppress id keys)
  | .ret value span =>
    let (ids, d) := d.addOptional value
    d.node .returnStatement span none ids
  | .branch start condition yes no =>
    let span := (Item.branch start condition yes no).span
    let ((condition, _), d) := d.addExpr condition
    let (yes, d) := d.addItem yes
    match no with
    | none => d.node .ifStatement span none [condition, yes]
    | some no =>
      let (no, d) := d.addItem no
      d.node .ifStatement span none [condition, yes, no]
  | .declare typeName name value span =>
    let type := d.scope.resolveType? typeName
    let (ids, d) := d.addOptional value
    let (id, d) := d.reference .variableDecl span name ids (some { kind := .localVariable, type })
    match type with
    | some type => (id, { d with scope := { d.scope with locals := d.scope.locals.insert name type } })
    | none => (id, d)
  | .evaluate value stop =>
    let span : Span := ⟨value.span.start, stop⟩
    let ((id, _), d) := d.addExpr value
    d.node .expressionStatement span none [id]

/-- Adds the items of a block, in order. -/
def addItems (d : Draft) : List Item → List NodeId × Draft
  | [] => ([], d)
  | item :: rest =>
    let (id, d) := d.addItem item
    let (ids, d) := d.addItems rest
    (id :: ids, d)

end

end Draft

/-- The bound tree of a snippet with the given `items`. -/
def elaborate (scope : Scope) (source : String) (items : List Item) :
    Except SnippetError (Tree × TypeTable) :=
  let (ids, d) := Draft.addItems ⟨scope, ⟨scope.path, source, #[]⟩⟩ items
  let (root, d) := d.node .compilationUnit ⟨0, Text.byteSize source.toList⟩ none ids
  match d.builder.finish root with
  | .ok tree => .ok (tree, d.scope.types)
  | .error e => .error (.badTree e)

/-- Reads the snippet `source` against `scope`: cuts it into tokens, parses them, and builds the
bound tree. -/
def parse (scope : Scope) (source : String) : Except SnippetError (Tree × TypeTable) := do
  let tokens ← SnippetToken.ofText source
  let items ← Item.ofTokens scope.isType tokens
  elaborate scope source items

end Snippet

end TreeLint
