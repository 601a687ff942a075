/-!
# Kinds of syntax nodes
-/

namespace TreeLint

/-- What construct of a program a node stands for. -/
inductive Kind where
  | compilationUnit
  | classDecl
  | methodDecl
  | block
  /-- An expression evaluated for its effect. -/
  | expressionStatement
  | variableDecl
  | returnStatement
  | ifStatement
  | assignment
  /-- A call. Its first child is the callee, the others are the arguments. -/
  | methodInvocation
  /-- A name qualified by its only child, the receiver. -/
  | memberSelect
  | identifier
  | literal
  | parenthesized
  | newObject
  /-- Any construct without a kind of its own. -/
  | other
  deriving DecidableEq, Repr, Inhabited

namespace Kind

/-- Each kind with its name in documents and messages. -/
def names : List (Kind × String) :=
  [(compilationUnit, "compilation_unit"), (classDecl, "class_decl"), (methodDecl, "method_decl"),
   (block, "block"), (expressionStatement, "expression_statement"),
   (variableDecl, "variable_decl"), (returnStatement, "return"), (ifStatement, "if"),
   (assignment, "assignment"), (methodInvocation, "method_invocation"),
   (memberSelect, "member_select"), (identifier, "identifier"), (literal, "literal"),
   (parenthesized, "parenthesized"), (newObject, "new_object"), (other, "other")]

/-- The name of `kind`. -/
def name (kind : Kind) : String := (names.lookup kind).getD ""

/-- Each name with its kind. -/
def byName : List (String × Kind) := names.map fun (kind, name) => (name, kind)

/-- The kind called `name`. -/
def ofName? (name : String) : Option Kind := byName.lookup name

instance : ToString Kind := ⟨name⟩

end Kind

end TreeLint
