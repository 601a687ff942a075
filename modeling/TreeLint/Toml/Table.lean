import TreeLint.Toml.Value

/-!
# Tables in the making

A table of a document can be opened by its own header, by a header of something inside it, or by a
dotted key, and this decides what may still be added to it:

- A header opens each table once. It may name a table that only headers inside it have opened.
- A dotted key adds to tables that dotted keys have opened, and passes through those that headers
  inside them have opened, but does not add to these.
- A value written in one piece is closed.
- Two brackets open a further table in an array of tables; such an array stands for its last table.
-/

namespace TreeLint.Toml

/-- How a table was opened. -/
inductive Opened where
  /-- By its own header. -/
  | byHeader
  /-- By the header of something inside it. -/
  | byInner
  /-- By a dotted key. -/
  | byKey
  deriving DecidableEq, Repr, Inhabited

/-- What stands under a key. -/
inductive Entry where
  | value (v : Toml)
  | table (opened : Opened) (members : List (String × Entry))
  /-- An array of tables, the last one first. -/
  | tables (elements : List (List (String × Entry)))
  deriving Inhabited

/-- What a table holds so far. -/
abbrev Members := Assoc String Entry

namespace Members

/-- Puts a value under `key` in the table to which `path` leads. `takesKeys` says whether the table
at the start of the path takes further keys. -/
def assign (takesKeys : Bool) (path : List String) (key : String) (v : Toml) (ms : Members) :
    Option Members :=
  match path with
  | [] => if takesKeys && !ms.contains key then some (ms.insert key (.value v)) else none
  | name :: path =>
    match ms.get? name with
    | none => do some (ms.insert name (.table .byKey (← assign true path key v [])))
    | some (.table .byHeader _) | some (.value _) | some (.tables []) => none
    | some (.table opened inner) => do
      some (ms.insert name (.table opened (← assign (opened = .byKey) path key v inner)))
    | some (.tables (last :: before)) => do
      some (ms.insert name (.tables ((← assign false path key v last) :: before)))

/-- Changes by `change` the table to which the `path` of a header leads. Tables on the way are
opened. -/
def within (path : List String) (change : Members → Option Members) (ms : Members) :
    Option Members :=
  match path with
  | [] => change ms
  | name :: path =>
    match ms.get? name with
    | none => do some (ms.insert name (.table .byInner (← within path change [])))
    | some (.table opened inner) => do
      some (ms.insert name (.table opened (← within path change inner)))
    | some (.tables (last :: before)) => do
      some (ms.insert name (.tables ((← within path change last) :: before)))
    | some (.value _) | some (.tables []) => none

/-- Opens the table called `name` by its header. -/
def openTable (name : String) (ms : Members) : Option Members :=
  match ms.get? name with
  | none => some (ms.insert name (.table .byHeader []))
  | some (.table .byInner inner) => some (ms.insert name (.table .byHeader inner))
  | _ => none

/-- Opens a further table of the array called `name`. -/
def openElement (name : String) (ms : Members) : Option Members :=
  match ms.get? name with
  | none => some (ms.insert name (.tables [[]]))
  | some (.tables elements) => some (ms.insert name (.tables ([] :: elements)))
  | _ => none

mutual

/-- The finished value under a key. -/
def finishEntry : Entry → Toml
  | .value v => v
  | .table _ members => .table (finish members)
  | .tables elements => .array (finishElements elements [])

/-- The finished members of a table. -/
def finish : List (String × Entry) → List (String × Toml)
  | [] => []
  | (key, entry) :: rest => (key, finishEntry entry) :: finish rest

/-- The finished tables of an array in front of those of `behind`. -/
def finishElements : List (List (String × Entry)) → List Toml → List Toml
  | [], behind => behind
  | element :: before, behind => finishElements before (.table (finish element) :: behind)

end

end Members

/-- The table of `pairs`, keys with their values, each key in its parts. -/
def ofPairs? (pairs : List (List String × Toml)) : Option Toml := do
  let members ← pairs.foldlM
    (fun ms (key, v) => Members.assign true key.dropLast (key.getLast?.getD "") v ms)
    ([] : Members)
  some (.table (Members.finish members))

end TreeLint.Toml
