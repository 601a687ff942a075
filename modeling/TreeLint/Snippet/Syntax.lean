import TreeLint.Span

/-!
# Syntax of a snippet

A snippet is a list of items. Every construct carries what its place in the source depends on and
is not given by its parts; `Expr.span` and `Item.span` give the whole place.
-/

namespace TreeLint.Snippet

/-- The kind of a literal. -/
inductive LiteralKind where
  | string
  | number
  | boolean
  | null
  deriving DecidableEq, Repr, Inhabited

/-- An expression. -/
inductive Expr where
  | literal (kind : LiteralKind) (span : Span)
  /-- The keyword for the object itself. -/
  | self (span : Span)
  | name (name : String) (span : Span)
  | paren (inner : Expr) (span : Span)
  /-- A new object of a type. -/
  | create (type : String) (arguments : List Expr) (span : Span)
  /-- A call of a method by its name alone. -/
  | callOwn (method : String) (place : Span) (arguments : List Expr) (stop : Nat)
  /-- A member of an object; its name ends at `stop`. -/
  | select (receiver : Expr) (member : String) (stop : Nat)
  /-- A call of a method of an object; the name ends at `nameStop`. -/
  | callOn (receiver : Expr) (method : String) (nameStop : Nat) (arguments : List Expr)
      (stop : Nat)
  | assign (target value : Expr)
  deriving Repr, Inhabited

/-- A statement, or a block of them. -/
inductive Item where
  | block (items : List Item) (span : Span)
  /-- An item that the rules named by `keys` must not report. -/
  | suppressed (keys : List String) (item : Item)
  | ret (value : Option Expr) (span : Span)
  | branch (start : Nat) (condition : Expr) (yes : Item) (no : Option Item)
  /-- The declaration of a variable. -/
  | declare (type name : String) (value : Option Expr) (span : Span)
  /-- An expression as a statement, with its end behind the semicolon. -/
  | evaluate (value : Expr) (stop : Nat)
  deriving Repr, Inhabited

/-- The place of an expression. -/
def Expr.span : Expr → Span
  | literal _ span | self span | name _ span | paren _ span | create _ _ span => span
  | callOwn _ place _ stop => ⟨place.start, stop⟩
  | select receiver _ stop | callOn receiver _ _ _ stop => ⟨receiver.span.start, stop⟩
  | assign target value => ⟨target.span.start, value.span.stop⟩

/-- The place of an item. -/
def Item.span : Item → Span
  | block _ span | ret _ span | declare _ _ _ span => span
  | suppressed _ item => item.span
  | branch start _ yes none => ⟨start, yes.span.stop⟩
  | branch start _ _ (some no) => ⟨start, no.span.stop⟩
  | evaluate value stop => ⟨value.span.start, stop⟩

end TreeLint.Snippet
