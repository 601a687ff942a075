import TreeLint.Matcher
import TreeLint.Rule.Basic
import TreeLint.Text.Quoted

/-!
# Discarded results

Methods of immutable value types return a new value and leave their receiver as it is. A call of
such a method as a statement throws the value away: `s.trim();` does nothing.

The rule `return-value-ignored` reports these calls. When the chain of calls begins at a variable
that can hold the result, the fix assigns the result to it; otherwise it deletes the statement.

- `DiscardedResult.matcher` says which calls are reported.
- `DiscardedResult.root?` walks from the callee to the reference at the start of the chain.
- `DiscardedResult.describe` chooses the fix.
-/

namespace TreeLint

/-- The settings of the rule. -/
structure DiscardedResult where
  /-- Full names of the types whose methods have no effect but their result. -/
  types : List String
  /-- The keyword that is never assigned to. -/
  selfKeyword : String
  severity : Severity
  deriving DecidableEq, Repr, Inhabited

namespace DiscardedResult

/-- The name of the rule. -/
def ruleName : String := "return-value-ignored"

/-- The code of the rule. -/
def ruleCode : String := "SF001"

/-- What is wrong with a reported call. -/
def message : String := "Ignored return value of method that has no side-effect"

/-- The types checked unless others are configured. -/
def defaultTypes : List String :=
  ["java.lang.String", "java.math.BigInteger", "java.math.BigDecimal"]

/-- The settings used unless others are configured. -/
def default : DiscardedResult := ⟨defaultTypes, "this", .error⟩

/-- The `settings` as they are shown to a developer. -/
def render (settings : DiscardedResult) : String :=
  let severity := match settings.severity with
    | .info => "Info"
    | .warning => "Warning"
    | .error => "Error"
  "ReturnValueIgnored \x7b types: " ++ Text.quotedList settings.types ++ ", self_keyword: "
    ++ Text.quoted settings.selfKeyword ++ ", severity: " ++ severity ++ ", .. \x7d"

/-- Holds for a call that is a statement, of a method that returns the type that declares it, when
that type is one of those checked. -/
def matcher (settings : DiscardedResult) : Matcher :=
  .all [.parent (.kindIs .expressionStatement),
    .callee (.all [.ownerIn settings.types, .returnsOwner])]

/-- A node and what is wrong with it. -/
abbrev Violation := NodeId × String

/-! ## The start of a chain of calls -/

/-- Whether a node is a name, or a name qualified by names alone. `bound` limits how many
qualifiers are looked at. -/
def isPlainWithin (tree : Tree) : (bound : Nat) → NodeId → Bool
  | 0, _ => false
  | bound + 1, node =>
    match tree.kind? node with
    | some .identifier => true
    | some .memberSelect =>
      match tree.receiver? node with
      | some receiver => isPlainWithin tree bound receiver
      | none => false
    | _ => false

/-- Whether `node` is a name, or a name qualified by names alone. -/
def isPlain (tree : Tree) (node : NodeId) : Bool := isPlainWithin tree tree.size node

/-- Whether `node` refers to a local variable or a field, and is not the keyword
`settings.selfKeyword`. -/
def isVariable (settings : DiscardedResult) (visit : Visit) (node : NodeId) : Bool :=
  match visit.types.binding? node with
  | some binding =>
    (binding.kind = .localVariable || binding.kind = .field)
      && visit.tree.text node != settings.selfKeyword
  | none => false

/-- The variable at the start of the chain of calls that `callee` ends, or none when it starts
with anything else. Fails where a node of the chain lacks what its kind calls for. `bound` limits
how many calls are passed. -/
def rootWithin? (settings : DiscardedResult) (visit : Visit) : (bound : Nat) →
    (callee : NodeId) → Except Violation (Option NodeId)
  | 0, _ => .ok none
  | bound + 1, callee =>
    match visit.tree.kind? callee with
    | some .identifier => .ok none
    | some .memberSelect =>
      match visit.tree.receiver? callee with
      | none => .error (callee, "member select has no receiver")
      | some receiver =>
        match visit.tree.kind? receiver with
        | some .identifier | some .memberSelect =>
          .ok (if isPlain visit.tree receiver && settings.isVariable visit receiver
            then some receiver else none)
        | some .methodInvocation =>
          match visit.tree.callee? receiver with
          | none => .error (receiver, "invocation has no callee")
          | some inner => settings.rootWithin? visit bound inner
        | _ => .ok none
    | kind => .error (callee,
        s!"callee is a {kind.getD .other}, expected identifier or member_select")

/-- The variable at the start of the chain of calls that `callee` ends. -/
def root? (settings : DiscardedResult) (visit : Visit) (callee : NodeId) :
    Except Violation (Option NodeId) :=
  settings.rootWithin? visit visit.tree.size callee

/-- Whether the result of the method to which `callee` refers can be stored in `root`. -/
def canHold (visit : Visit) (root callee : NodeId) : Bool :=
  match visit.types.typeOf? root, visit.types.returnsOf? callee with
  | some rootType, some returned => visit.types.isAssignable returned rootType
  | _, _ => false

/-! ## The finding -/

/-- The finding at `call`, which is reported. -/
def describe (settings : DiscardedResult) (visit : Visit) (call : NodeId) :
    Except Violation Description :=
  match visit.tree.callee? call with
  | none => .error (call, "invocation has no callee")
  | some callee =>
    match visit.parent? call with
    | none => .error (call, "statement call has no parent")
    | some statement =>
      match settings.root? visit callee with
      | .error violation => .error violation
      | .ok root =>
        match root.filter fun root => canHold visit root callee with
        | some root =>
          let text := visit.tree.text root
          .ok
            { anchor := call, message
              help := some ("Assign the result back to \x60" ++ text ++ "\x60")
              edits := [.insertBefore (visit.tree.range call) (text ++ " = ")] }
        | none => .ok
            { anchor := call, message
              help := some "Remove the statement; the call has no effect"
              edits := [.delete (visit.tree.range statement)] }

/-- What the rule says about `node`: a call for which `matcher` holds is a finding. -/
def check (settings : DiscardedResult) (visit : Visit) (node : NodeId) : Verdict :=
  if visit.tree.isCall node && settings.matcher.holds visit node then
    match settings.describe visit node with
    | .ok description => .finding description
    | .error (place, detail) => .violation place detail
  else .noMatch

/-- The rule with the given `settings`. -/
def rule (settings : DiscardedResult) : Rule where
  name := ruleName
  code := ruleCode
  altNames := ["ResultOfMethodCallIgnored", "ReturnValueIgnored"]
  description := message
  explanation := "Certain methods have no side effect, so calls to those methods are pointless "
    ++ "if you ignore the value returned."
  category := .jdk
  maturity := .mature
  severity := settings.severity
  check := settings.check

end DiscardedResult

end TreeLint
