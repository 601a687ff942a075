import TreeLint.Toml.Quoted
import TreeLint.Toml.Scalar
import TreeLint.Toml.Table

/-!
# Reading TOML

A document is a list of lines: keys with values, headers, comments and empty lines.

- `Toml.value?` reads a value from the front of a text.
- `Toml.line?` reads one line.
- `Toml.parse?` reads a whole document; a mark of the byte order in front of it is passed over.

A value may hold at most `maxDepth` arrays and tables inside each other, and a key has at most as
many parts.
-/

namespace TreeLint.Toml

/-- How deep values may nest, and how many parts a key may have. -/
def maxDepth : Nat := 79

/-! ## Blanks and comments -/

/-- The text behind blanks, line breaks and comments; `comment` says that one has begun. A comment
must end with its line. -/
def skipSpace? (comment : Bool) : List Char → Option (List Char)
  | [] => if comment then none else some []
  | '\n' :: cs => skipSpace? false cs
  | '\r' :: '\n' :: cs => skipSpace? false cs
  | c :: cs =>
    if comment then if isLineChar c then skipSpace? true cs else none
    else if c = '#' then skipSpace? true cs
    else if isBlank c then skipSpace? false cs
    else some (c :: cs)

/-- The text behind the end of a line, in front of which a comment may stand. -/
def endLine? (cs : List Char) : Option (List Char) :=
  let rest := match skipBlanks cs with
    | '#' :: cs => cs.dropWhile isLineChar
    | cs => cs
  if rest.isEmpty then some [] else newline? rest

/-! ## Keys -/

/-- Whether `c` may stand in a key without quotes. -/
def isKeyChar (c : Char) : Bool := c.isAlphanum || c == '_' || c == '-'

/-- One part of a key. -/
def keyPart? : List Char → Option (String × List Char)
  | '"' :: cs => (quoted? cs).map fun (text, rest) => (String.ofList text, rest)
  | '\'' :: cs => (literal? cs).map fun (text, rest) => (String.ofList text, rest)
  | cs =>
    let text := cs.takeWhile isKeyChar
    if text.isEmpty then none else some (String.ofList text, cs.dropWhile isKeyChar)

/-- The parts of a key, at most `bound` of them, and the text behind the key and its blanks. -/
def key? : (bound : Nat) → List Char → Option (List String × List Char)
  | 0, _ => none
  | bound + 1, cs => do
    let (part, rest) ← keyPart? (skipBlanks cs)
    match skipBlanks rest with
    | '.' :: rest => do
      let (parts, rest) ← key? bound rest
      some (part :: parts, rest)
    | rest => some ([part], rest)

/-! ## Values -/

/-- The text that a string holds, and what is behind the string. -/
def text? : List Char → Option (String × List Char)
  | '"' :: '"' :: '"' :: cs => ofRead (quotedLines? false (dropNewline cs))
  | '"' :: cs => ofRead (quoted? cs)
  | '\'' :: '\'' :: '\'' :: cs => ofRead (literalLines? (dropNewline cs))
  | '\'' :: cs => ofRead (literal? cs)
  | _ => none
where
  /-- The string of the characters that were read. -/
  ofRead (p : Option (List Char × List Char)) : Option (String × List Char) :=
    p.map fun (text, rest) => (String.ofList text, rest)

mutual

/-- A value that holds at most `depth` arrays and tables inside each other, and the text behind
it. -/
def value? (depth : Nat) (cs : List Char) : Option (Toml × List Char) :=
  match depth, cs with
  | depth + 1, '[' :: cs => do
    let (items, rest) ← items? depth cs.length cs
    some (.array items, rest)
  | depth + 1, '\x7b' :: cs =>
    match skipBlanks cs with
    | '\x7d' :: rest => some (.table [], rest)
    | cs => do
      let (pairs, rest) ← pairs? depth cs.length cs
      some (← ofPairs? pairs, rest)
  | _, cs =>
    match cs.head? with
    | some '"' | some '\'' => (text? cs).map fun (s, rest) => (.string s, rest)
    | _ => do
      let (front, rest) := cutScalar cs
      some (← scalar? front, rest)
termination_by (depth, 0)

/-- The items of an array up to its closing bracket; there may be a comma behind the last. At most
`bound` items are read. -/
def items? (depth bound : Nat) (cs : List Char) : Option (List Toml × List Char) := do
  match bound, ← skipSpace? false cs with
  | _, ']' :: rest => some ([], rest)
  | 0, _ => none
  | bound + 1, cs =>
    let (item, rest) ← value? depth cs
    match ← skipSpace? false rest with
    | ',' :: rest => do
      let (items, rest) ← items? depth bound rest
      some (item :: items, rest)
    | ']' :: rest => some ([item], rest)
    | _ => none
termination_by (depth, bound + 1)

/-- The keys and values of a table in one line, up to its closing brace. At most `bound` of them
are read. -/
def pairs? (depth bound : Nat) (cs : List Char) :
    Option (List (List String × Toml) × List Char) := do
  match bound with
  | 0 => none
  | bound + 1 =>
    let (key, rest) ← key? maxDepth cs
    let (v, rest) ← value? depth (skipBlanks (← ['='].isPrefixOf? rest))
    match skipBlanks rest with
    | ',' :: rest => do
      let (pairs, rest) ← pairs? depth bound rest
      some ((key, v) :: pairs, rest)
    | '\x7d' :: rest => some ([(key, v)], rest)
    | _ => none
termination_by (depth, bound + 1)

end

/-! ## Documents -/

/-- What a line says. -/
inductive Line where
  | empty
  /-- Opens a table. -/
  | header (key : List String)
  /-- Opens a further table of an array. -/
  | element (key : List String)
  | pair (key : List String) (v : Toml)

/-- One line, and the text behind it. -/
def line? (cs : List Char) : Option (Line × List Char) :=
  match skipBlanks cs with
  | '[' :: '[' :: cs => do
    let (key, rest) ← key? maxDepth cs
    let rest ← [']', ']'].isPrefixOf? rest
    some (.element key, ← endLine? rest)
  | '[' :: cs => do
    let (key, rest) ← key? maxDepth cs
    let rest ← [']'].isPrefixOf? rest
    some (.header key, ← endLine? rest)
  | cs =>
    match endLine? cs with
    | some rest => some (.empty, rest)
    | none => do
      let (key, rest) ← key? maxDepth cs
      let (v, rest) ← value? maxDepth (skipBlanks (← ['='].isPrefixOf? rest))
      some (.pair key v, ← endLine? rest)

/-- The lines of a text, at most `bound` of them. -/
def lines? : (bound : Nat) → List Char → Option (List Line)
  | _, [] => some []
  | 0, _ => none
  | bound + 1, cs => do
    let (line, rest) ← line? cs
    some (line :: (← lines? bound rest))

/-- What a document holds so far, and the table to which its lines add. -/
structure Draft where
  root : Members := []
  path : List String := []

/-- Adds a line to the document `d`. -/
def Draft.add (d : Draft) : Line → Option Draft
  | .empty => some d
  | .header key => do
    let root ← d.root.within key.dropLast (Members.openTable (key.getLast?.getD ""))
    some ⟨root, key⟩
  | .element key => do
    let root ← d.root.within key.dropLast (Members.openElement (key.getLast?.getD ""))
    some ⟨root, key⟩
  | .pair key v => do
    let root ← d.root.within d.path (Members.assign true key.dropLast (key.getLast?.getD "") v)
    some { d with root }

/-- The members of the table that `text` holds; a mark of the byte order in front of it is passed
over. -/
def parse? (text : String) : Option (List (String × Toml)) := do
  let cs := text.toList
  let cs := if cs.head? = some '\ufeff' then cs.tail else cs
  let lines ← lines? (cs.length + 1) cs
  let d ← lines.foldlM Draft.add {}
  some (Members.finish d.root)

end TreeLint.Toml
