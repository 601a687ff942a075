import TreeLint.Text.Search
import TreeLint.Typing.Table

/-!
# Scopes of snippets

A scope holds what a snippet may refer to: types and what is declared right above them, the
methods of types, local variables, and the fields of the object itself.

- `Scope.basic` knows the primitive types alone; `Scope.java` knows some types of a class library
  with their methods.
- `Scope.resolveType?` finds a type by its full name or by the last part of it.
- `Scope.method?` finds the nearest type that declares a method.
-/

namespace TreeLint.Snippet

/-- What a snippet may refer to. -/
structure Scope where
  /-- The path under which the snippet is shown. -/
  path : String := "src/Main.java"
  types : TypeTable
  /-- The type of the object itself. -/
  selfType : TypeId
  locals : Assoc String TypeId := []
  fields : Assoc String TypeId := []
  /-- The type that a method returns, by the type that declares the method and its name. -/
  methods : Assoc (TypeId × String) TypeId := []
  deriving Repr, Inhabited

namespace Scope

/-! ## Declarations -/

/-- Declares `sub` right below `super`. -/
def subtype (scope : Scope) (sub super : String) : Scope :=
  let (sub, types) := scope.types.intern sub
  let (super, types) := types.intern super
  { scope with types := types.addSupertype sub super }

/-- Declares the method `name` of the type `owner`. The last declaration of a name counts. -/
def method (scope : Scope) (owner name returns : String) : Scope :=
  let (owner, types) := scope.types.intern owner
  let (returns, types) := types.intern returns
  { scope with types, methods := scope.methods.insert (owner, name) returns }

/-- Declares a local variable of the given `type`. -/
def addLocal (scope : Scope) (name type : String) : Scope :=
  let (type, types) := scope.types.intern type
  { scope with types, locals := scope.locals.insert name type }

/-- Declares a field of the object itself, of the given `type`. -/
def field (scope : Scope) (name type : String) : Scope :=
  let (type, types) := scope.types.intern type
  { scope with types, fields := scope.fields.insert name type }

/-- Gives the object itself the type called `name`. -/
def withSelf (scope : Scope) (name : String) : Scope :=
  let (type, types) := scope.types.intern name
  { scope with types, selfType := type }

/-! ## Look-up -/

/-- The part of a full `name` behind the last dot. -/
def lastPart (name : String) : String :=
  String.ofList ((Text.splitOn '.' name.toList).getLast?.getD [])

/-- The type with the full name `name`, or else the first of which `name` is the last part. -/
def resolveType? (scope : Scope) (name : String) : Option TypeId :=
  (scope.types.lookup? name).or
    ((scope.types.types.findIdx? fun info => lastPart info.name == name).map TypeId.mk)

/-- Whether `name` resolves to a type. -/
def isType (scope : Scope) (name : String) : Bool := (scope.resolveType? name).isSome

/-- The nearest type at or above `owner` that declares a method, and what the method returns. -/
def method? (scope : Scope) (owner : TypeId) (name : String) : Option (TypeId × TypeId) :=
  scope.types.search? (fun type => (scope.methods.get? (type, name)).map (type, ·)) owner

/-! ## Scopes to start from -/

/-- The primitive types. -/
def primitives : List String := ["int", "long", "boolean", "char", "double", "void"]

/-- A scope that knows the `primitives` and the type of the object itself. -/
def basic : Scope :=
  let (selfType, types) := TypeTable.intern {} "com.example.Main"
  { types := primitives.foldl (fun types name => (types.intern name).2) types, selfType }

/-- The types of the class library with a type right above each. -/
def javaSupertypes : List (String × String) :=
  [("java.lang.String", "java.lang.CharSequence"), ("java.lang.String", "java.lang.Object"),
   ("java.lang.CharSequence", "java.lang.Object"),
   ("java.lang.StringBuilder", "java.lang.CharSequence"),
   ("java.lang.StringBuilder", "java.lang.Object"), ("java.lang.Number", "java.lang.Object"),
   ("java.math.BigInteger", "java.lang.Number"), ("java.math.BigDecimal", "java.lang.Number"),
   ("java.util.List", "java.lang.Object"), ("com.example.Main", "java.lang.Object")]

/-- The methods of the class library: the type that declares them, their names, and the type that
they return. -/
def javaMethods : List (String × List String × String) :=
  [("java.lang.String",
    ["trim", "strip", "toLowerCase", "toUpperCase", "concat", "substring", "replace", "intern",
     "repeat"], "java.lang.String"),
   ("java.lang.String", ["length", "indexOf"], "int"),
   ("java.lang.String", ["isEmpty", "equals", "startsWith"], "boolean"),
   ("java.lang.String", ["charAt"], "char"),
   ("java.math.BigInteger",
    ["add", "subtract", "multiply", "divide", "negate", "abs", "pow", "mod", "valueOf"],
    "java.math.BigInteger"),
   ("java.math.BigInteger", ["bitLength", "signum"], "int"),
   ("java.math.BigDecimal",
    ["add", "subtract", "multiply", "negate", "abs", "setScale", "stripTrailingZeros"],
    "java.math.BigDecimal"),
   ("java.math.BigDecimal", ["scale"], "int"),
   ("java.lang.StringBuilder", ["append", "reverse"], "java.lang.StringBuilder"),
   ("java.lang.CharSequence", ["length"], "int"),
   ("java.lang.Object", ["toString"], "java.lang.String"),
   ("java.lang.Object", ["hashCode"], "int"),
   ("java.util.List", ["size"], "int"),
   ("java.util.List", ["add", "isEmpty"], "boolean")]

/-- A scope that knows some types of a class library and their methods, as `javaSupertypes` and
`javaMethods` list them. -/
def java : Scope :=
  let scope := javaSupertypes.foldl (fun scope (sub, super) => scope.subtype sub super) basic
  javaMethods.foldl
    (fun scope (owner, names, returns) =>
      names.foldl (fun scope name => scope.method owner name returns) scope)
    scope

end Scope

end TreeLint.Snippet
