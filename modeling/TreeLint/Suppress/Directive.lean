import TreeLint.Rule.Basic
import TreeLint.Text.Search

/-!
# Allow directives

A comment can allow rules to be broken near it:

`// sift: allow(return-value-ignored) reason="value only logged"`

A directive counts for its own line. On a line that begins with a comment it counts for the next
line, too.

- `AllowDirective.ofLine?` reads the directive of a line.
- `allowance` looks for a directive that counts for a line and names a rule.
-/

namespace TreeLint

/-- The key that names every rule. -/
def everyRule : String := "all"

/-- Whether `keys` name `rule`: by a key that it answers to, or by `everyRule`. -/
def Rule.namedIn (rule : Rule) (keys : List String) : Bool :=
  keys.any fun key => key == everyRule || rule.answersTo key

/-- A comment that allows some rules. -/
structure AllowDirective where
  /-- The keys of the rules, at least one. -/
  keys : List String
  reason : Option String := none
  deriving DecidableEq, Repr, Inhabited

namespace AllowDirective

/-- The text behind the first comment opener of a line. Two slashes count wherever they stand,
and `/*` counts on a line without them. -/
def comment? (line : List Char) : Option (List Char) :=
  ((Text.cutAt? ['/', '/'] line).or (Text.cutAt? ['/', '*'] line)).map Prod.snd

/-- A text behind `opening`, without blanks at its ends. -/
def behind? (opening : String) (text : List Char) : Option (List Char) :=
  (opening.toList.isPrefixOf? text).map Text.trim

/-- The keys in `text`, a list with commas, without blanks around them and without empty ones. -/
def keysOf (text : List Char) : List String :=
  (((Text.splitOn ',' text).map Text.trim).filter (!·.isEmpty)).map String.ofList

/-- The reason given in `text`, behind the keys: what stands between two quotes. -/
def reasonOf? (text : List Char) : Option String := do
  let quoted ← (behind? "reason=" text).bind fun rest => ['"'].isPrefixOf? rest
  let (reason, _) ← Text.cutAt? ['"'] quoted
  some (String.ofList reason)

/-- The directive that `line` holds. -/
def ofLine? (line : List Char) : Option AllowDirective := do
  let comment ← comment? line
  let comment := Text.trim (Text.dropEndCopies ['*', '/'] (Text.trim comment))
  let directive ← behind? "sift:" comment
  let (keys, rest) ← (behind? "allow(" directive).bind fun list => Text.cutAt? [')'] list
  let keys := keysOf keys
  if keys.isEmpty then none else some { keys, reason := reasonOf? (Text.trim rest) }

end AllowDirective

/-- Whether `line` begins with a comment, as far as its first two characters behind blanks tell. -/
def isCommentLine (line : List Char) : Bool :=
  let text := Text.trimFront line
  ['/', '/'].isPrefixOf text || ['/', '*'].isPrefixOf text

/-- Whether a rule may be broken at a line. -/
inductive Allowance where
  | denied
  | allowed (reason : Option String)
  deriving DecidableEq, Repr, Inhabited

/-- The directive of `line`, if it names `rule`. -/
def directiveFor? (rule : Rule) (line : List Char) : Option AllowDirective :=
  (AllowDirective.ofLine? line).filter fun directive => rule.namedIn directive.keys

/-- Whether `rule` may be broken at a line of `source`, counted from one. The directive on the line
before comes first. -/
def allowance (source : List Char) (line : Nat) (rule : Rule) : Allowance :=
  let lines := Text.lines source
  let lineAt (n : Nat) := if n = 0 then none else lines[n - 1]?
  let before := ((lineAt (line - 1)).filter isCommentLine).bind (directiveFor? rule)
  match before.or ((lineAt line).bind (directiveFor? rule)) with
  | some directive => .allowed directive.reason
  | none => .denied

end TreeLint
