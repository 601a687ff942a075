import TreeLint.Snippet.Syntax
import TreeLint.Snippet.Token

/-!
# Reading the syntax of a snippet

The tokens of a snippet are read from left to right, and the first token that does not fit is the
error. Each reader gives what it has read together with the tokens behind it, which are fewer than
those it was given (`Parsed`); so reading ends.

- `Item.parse` reads a statement or a block; `Expr.parse` reads an expression.
- `Item.ofTokens` reads a whole snippet.

Two names in a row begin a declaration, of which the first must be a known type. An `else` belongs
to the `if` nearest in front of it.
-/

namespace TreeLint.Snippet

/-- What was read from the front of `tokens`, and the tokens behind it. -/
structure Parsed (tokens : List SnippetToken) (α : Type) where
  value : α
  rest : List SnippetToken
  shorter : rest.length < tokens.length

/-- What was read from the front of `tokens`, perhaps nothing, and the tokens behind it. -/
structure Continued (tokens : List SnippetToken) (α : Type) where
  value : α
  rest : List SnippetToken
  notLonger : rest.length ≤ tokens.length

namespace Parsed

/-- What `p` read behind a part of `tokens` that was read before. -/
def behind {tokens rest : List SnippetToken} (h : rest.length < tokens.length)
    (p : Parsed rest α) : Parsed tokens α :=
  ⟨p.value, p.rest, Nat.lt_trans p.shorter h⟩

end Parsed

/-! ## Single tokens -/

/-- Whether the next token is the mark `c`. -/
def atMark (c : Char) (tokens : List SnippetToken) : Bool := tokens.head?.any (·.isMark c)

/-- Whether the next token is the given `keyword`. -/
def atKeyword (keyword : String) (tokens : List SnippetToken) : Bool :=
  tokens.head?.any (·.isKeyword keyword)

/-- Any token. -/
def anyToken : (tokens : List SnippetToken) → Except SnippetError (Parsed tokens SnippetToken)
  | [] => .error .endOfText
  | t :: rest => .ok ⟨t, rest, by simp⟩

/-- The mark `c`. -/
def mark (c : Char) : (tokens : List SnippetToken) →
    Except SnippetError (Parsed tokens SnippetToken)
  | [] => .error .endOfText
  | t :: rest =>
    if t.isMark c then .ok ⟨t, rest, by simp⟩ else .error (.expectedMark c t.span.start)

/-- A name. -/
def name : (tokens : List SnippetToken) → Except SnippetError (Parsed tokens SnippetToken)
  | [] => .error .endOfText
  | t :: rest => if t.isName then .ok ⟨t, rest, by simp⟩ else .error (.expectedName t.span.start)

/-! ## Tags -/

/-- The keys up to a closing bracket: every token but commas, without the quotes around it. -/
def keys : (tokens : List SnippetToken) → Except SnippetError (Parsed tokens (List String))
  | [] => .error .endOfText
  | t :: rest =>
    if t.isMark ')' then .ok ⟨[], rest, by simp⟩
    else
      match keys rest with
      | .error e => .error e
      | .ok p =>
        let here := if t.isMark ',' then [] else [String.ofList (bare t.text.toList)]
        .ok ⟨here ++ p.value, p.rest, by have := p.shorter; simp; omega⟩
where
  /-- The text without the quotes at both ends. -/
  bare (cs : List Char) : List Char := Text.dropEndWhile (· == '"') (cs.dropWhile (· == '"'))

/-- The tag `@Suppress` with its keys. -/
def suppressTag (tokens : List SnippetToken) :
    Except SnippetError (Parsed tokens (List String)) := do
  let ⟨_, rest, h⟩ ← mark '@' tokens
  let ⟨word, rest, h₁⟩ ← name rest
  if word.text ≠ "Suppress" then .error (.unknownTag word.span.start)
  else
    let ⟨_, rest, h₂⟩ ← mark '(' rest
    let p ← keys rest
    .ok (p.behind (by omega))

/-! ## Expressions -/

mutual

/-- An expression: a `chain`, and what is assigned to it. -/
def Expr.parse (tokens : List SnippetToken) : Except SnippetError (Parsed tokens Expr) := do
  let ⟨target, rest, h⟩ ← chain tokens
  if atMark '=' rest then
    let ⟨_, rest, h₁⟩ ← mark '=' rest
    let ⟨value, rest, h₂⟩ ← Expr.parse rest
    .ok ⟨.assign target value, rest, by omega⟩
  else .ok ⟨target, rest, h⟩
termination_by 4 * tokens.length + 3
decreasing_by all_goals omega

/-- A `primary` expression with the members selected from it one after the other. -/
def chain (tokens : List SnippetToken) : Except SnippetError (Parsed tokens Expr) := do
  let ⟨first, rest, h⟩ ← primary tokens
  let ⟨whole, rest, h₁⟩ ← links first rest
  .ok ⟨whole, rest, by omega⟩
termination_by 4 * tokens.length + 2
decreasing_by all_goals omega

/-- The members selected from `receiver`. -/
def links (receiver : Expr) (tokens : List SnippetToken) :
    Except SnippetError (Continued tokens Expr) := do
  if atMark '.' tokens then
    let ⟨_, rest, h⟩ ← mark '.' tokens
    let ⟨member, rest, h₁⟩ ← name rest
    if atMark '(' rest then
      let ⟨(args, stop), rest, h₂⟩ ← arguments rest
      let ⟨whole, rest, h₃⟩ ← links (.callOn receiver member.text member.span.stop args stop) rest
      .ok ⟨whole, rest, by omega⟩
    else
      let ⟨whole, rest, h₂⟩ ← links (.select receiver member.text member.span.stop) rest
      .ok ⟨whole, rest, by omega⟩
  else .ok ⟨receiver, tokens, Nat.le_refl _⟩
termination_by 4 * tokens.length + 1
decreasing_by all_goals omega

/-- The arguments of a call, with the end of the closing bracket. -/
def arguments (tokens : List SnippetToken) :
    Except SnippetError (Parsed tokens (List Expr × Nat)) := do
  let ⟨_, rest, h⟩ ← mark '(' tokens
  if atMark ')' rest then
    let ⟨close, rest, h₁⟩ ← mark ')' rest
    .ok ⟨([], close.span.stop), rest, by omega⟩
  else
    let ⟨first, rest, h₁⟩ ← Expr.parse rest
    let p ← moreArguments [first] rest
    .ok (p.behind (by omega))
termination_by 4 * tokens.length
decreasing_by all_goals omega

/-- The arguments behind those of `before`, which stand newest first. -/
def moreArguments (before : List Expr) (tokens : List SnippetToken) :
    Except SnippetError (Parsed tokens (List Expr × Nat)) := do
  if atMark ')' tokens then
    let ⟨close, rest, h⟩ ← mark ')' tokens
    .ok ⟨(before.reverse, close.span.stop), rest, h⟩
  else
    let ⟨_, rest, h⟩ ← mark ',' tokens
    let ⟨next, rest, h₁⟩ ← Expr.parse rest
    let p ← moreArguments (next :: before) rest
    .ok (p.behind (by omega))
termination_by 4 * tokens.length
decreasing_by all_goals omega

/-- A literal, an expression in brackets, a new object, or what a name stands for. -/
def primary (tokens : List SnippetToken) : Except SnippetError (Parsed tokens Expr) := do
  let ⟨first, rest, h⟩ ← anyToken tokens
  match first.kind with
  | .string => .ok ⟨.literal .string first.span, rest, h⟩
  | .number => .ok ⟨.literal .number first.span, rest, h⟩
  | .mark '(' =>
    let ⟨inner, rest, h₁⟩ ← Expr.parse rest
    let ⟨close, rest, h₂⟩ ← mark ')' rest
    .ok ⟨.paren inner ⟨first.span.start, close.span.stop⟩, rest, by omega⟩
  | .mark c => .error (.unexpectedMark c first.span.start)
  | .name =>
    if first.text = "true" ∨ first.text = "false" then
      .ok ⟨.literal .boolean first.span, rest, h⟩
    else if first.text = "null" then .ok ⟨.literal .null first.span, rest, h⟩
    else if first.text = "new" then
      let ⟨type, rest, h₁⟩ ← name rest
      let ⟨(args, stop), rest, h₂⟩ ← arguments rest
      .ok ⟨.create type.text args ⟨first.span.start, stop⟩, rest, by omega⟩
    else if first.text = "this" then .ok ⟨.self first.span, rest, h⟩
    else if atMark '(' rest then
      let ⟨(args, stop), rest, h₁⟩ ← arguments rest
      .ok ⟨.callOwn first.text first.span args stop, rest, by omega⟩
    else .ok ⟨.name first.text first.span, rest, h⟩
termination_by 4 * tokens.length
decreasing_by all_goals omega

end

/-! ## Statements -/

/-- Names that begin an expression and never a declaration. -/
def expressionKeywords : List String := ["this", "new", "true", "false", "null"]

/-- Whether two names in a row begin a declaration; the first is none of `expressionKeywords`. -/
def atDeclaration : List SnippetToken → Bool
  | first :: second :: _ =>
    first.isName && !expressionKeywords.contains first.text && second.isName
  | _ => false

/-- A declaration, whose type must be one for which `isType` holds. -/
def declaration (isType : String → Bool) (tokens : List SnippetToken) :
    Except SnippetError (Parsed tokens Item) := do
  let ⟨type, rest, h⟩ ← name tokens
  if !isType type.text then .error (.unknownType type.text)
  else
    let ⟨place, rest, h₁⟩ ← name rest
    if atMark '=' rest then
      let ⟨_, rest, h₂⟩ ← mark '=' rest
      let ⟨value, rest, h₃⟩ ← Expr.parse rest
      let ⟨stop, rest, h₄⟩ ← mark ';' rest
      .ok ⟨.declare type.text place.text (some value) ⟨type.span.start, stop.span.stop⟩, rest,
        by omega⟩
    else
      let ⟨stop, rest, h₂⟩ ← mark ';' rest
      .ok ⟨.declare type.text place.text none ⟨type.span.start, stop.span.stop⟩, rest,
        by omega⟩

/-- A statement that leaves with a value or without one. -/
def returnStatement (tokens : List SnippetToken) : Except SnippetError (Parsed tokens Item) := do
  let ⟨word, rest, h⟩ ← anyToken tokens
  if atMark ';' rest then
    let ⟨stop, rest, h₁⟩ ← mark ';' rest
    .ok ⟨.ret none ⟨word.span.start, stop.span.stop⟩, rest, by omega⟩
  else
    let ⟨value, rest, h₁⟩ ← Expr.parse rest
    let ⟨stop, rest, h₂⟩ ← mark ';' rest
    .ok ⟨.ret (some value) ⟨word.span.start, stop.span.stop⟩, rest, by omega⟩

/-- An expression as a statement. -/
def expressionStatement (tokens : List SnippetToken) :
    Except SnippetError (Parsed tokens Item) := do
  let ⟨value, rest, h⟩ ← Expr.parse tokens
  let ⟨stop, rest, h₁⟩ ← mark ';' rest
  .ok ⟨.evaluate value stop.span.stop, rest, by omega⟩

mutual

/-- A statement or a block, with the tags in front of it. A declaration is of a type for which
`isType` holds. -/
def Item.parse (isType : String → Bool) (tokens : List SnippetToken) :
    Except SnippetError (Parsed tokens Item) := do
  if atMark '@' tokens then
    let ⟨found, rest, h⟩ ← suppressTag tokens
    let ⟨item, rest, h₁⟩ ← Item.parse isType rest
    .ok ⟨.suppressed found item, rest, by omega⟩
  else if atMark '\x7b' tokens then
    let ⟨first, rest, h⟩ ← mark '\x7b' tokens
    let ⟨(items, stop), rest, h₁⟩ ← blockRest isType [] rest
    .ok ⟨.block items ⟨first.span.start, stop⟩, rest, by omega⟩
  else if atKeyword "return" tokens then returnStatement tokens
  else if atKeyword "if" tokens then
    let ⟨word, rest, h⟩ ← anyToken tokens
    let ⟨_, rest, h₁⟩ ← mark '(' rest
    let ⟨condition, rest, h₂⟩ ← Expr.parse rest
    let ⟨_, rest, h₃⟩ ← mark ')' rest
    let ⟨yes, rest, h₄⟩ ← Item.parse isType rest
    if atKeyword "else" rest then
      let ⟨_, rest, h₅⟩ ← anyToken rest
      let ⟨no, rest, h₆⟩ ← Item.parse isType rest
      .ok ⟨.branch word.span.start condition yes (some no), rest, by omega⟩
    else .ok ⟨.branch word.span.start condition yes none, rest, by omega⟩
  else if atDeclaration tokens then declaration isType tokens
  else expressionStatement tokens
termination_by 2 * tokens.length
decreasing_by all_goals omega

/-- The items of a block behind those of `before`, which stand newest first, with the end of the
closing brace. -/
def blockRest (isType : String → Bool) (before : List Item) (tokens : List SnippetToken) :
    Except SnippetError (Parsed tokens (List Item × Nat)) := do
  if atMark '\x7d' tokens then
    let ⟨close, rest, h⟩ ← mark '\x7d' tokens
    .ok ⟨(before.reverse, close.span.stop), rest, h⟩
  else
    let ⟨item, rest, h⟩ ← Item.parse isType tokens
    let p ← blockRest isType (item :: before) rest
    .ok (p.behind h)
termination_by 2 * tokens.length + 1
decreasing_by all_goals omega

end

namespace Item

/-- The items of a whole snippet. -/
def ofTokens (isType : String → Bool) (tokens : List SnippetToken) :
    Except SnippetError (List Item) := do
  if tokens.isEmpty then .ok []
  else
    let ⟨item, rest, _⟩ ← Item.parse isType tokens
    let items ← ofTokens isType rest
    .ok (item :: items)
termination_by tokens.length

end Item

end TreeLint.Snippet
