import TreeLint.Json.Reader

/-!
# Reading values of a known shape

A decoder takes a JSON value and the number of containers that may still be opened from there on;
a document may nest 127 deep where it is read. What is passed over may nest deeper, hold numbers
of any size and escape half a surrogate pair.

- `Decode.record` reads a record. It is written as an object, in which unknown members are passed
  over and a known one may stand only once, or as an array of its fields in their order, of which
  the last may be missing.
- `Decode.choice` reads one of several names.
- `Decode.isHeld` says which values can be read without knowing their shape.
-/

namespace TreeLint

/-- Reads a value where a number of further containers may be opened. -/
abbrev Decoder (α : Type) := Nat → Json → Option α

namespace Decode

/-- How many containers may stand in one another in a document. -/
def maxDepth : Nat := 127

/-- The largest machine word. -/
def maxWord : Nat := 0xFFFFFFFFFFFFFFFF

/-- The largest node number. -/
def maxIndex : Nat := 0xFFFFFFFF

/-- Reads the value of a whole `text` with `d`. -/
def text? (d : Decoder α) (text : String) : Option α := (Json.parse? text).bind (d maxDepth)

/-- A string without surrogate halves. -/
def string : Decoder String
  | _, .string s => s
  | _, _ => none

/-- A natural number up to `bound`, written in digits alone. -/
def nat (bound : Nat) : Decoder Nat
  | _, .number n => n.toNat?.filter (· ≤ bound)
  | _, _ => none

/-- `true` or `false`. -/
def bool : Decoder Bool
  | _, .bool b => some b
  | _, _ => none

/-- `null`, or what `d` reads. -/
def nullable (d : Decoder α) : Decoder (Option α)
  | _, .null => some none
  | levels, v => (d levels v).map some

/-- An array of what `d` reads. -/
def list (d : Decoder α) : Decoder (List α)
  | levels + 1, .array items => items.mapM (d levels)
  | _, _ => none

/-- One of the names of `table`, as a string or as an object whose only member has that key and
the value `null`. -/
def choice (table : List (String × α)) : Decoder α
  | _, .string s => s.bind fun name => table.lookup name
  | _ + 1, .object [(key, .null)] => key.bind fun name => table.lookup name
  | _, _ => none

/-! ## Records -/

/-- The fields of a record that are present, and how many containers may be opened in them. -/
structure Fields where
  levels : Nat
  present : List (String × Json)

/-- Reads a record with the fields `names`, each present at most once. Other members are passed
over. -/
def record (names : List String) : Decoder Fields
  | levels + 1, .object members => do
    let members ← members.mapM fun (key, value) => key.map (·, value)
    let known := members.filter fun (key, _) => names.contains key
    if (known.map Prod.fst).Nodup then some ⟨levels, known⟩ else none
  | levels + 1, .array items =>
    if items.length ≤ names.length then some ⟨levels, names.zip items⟩ else none
  | _, _ => none

namespace Fields

/-- The field `name`, which must be present, read by `d`. -/
def required (fields : Fields) (name : String) (d : Decoder α) : Option α :=
  (fields.present.lookup name).bind (d fields.levels)

/-- A field that has the value `default` when it is absent. -/
def withDefault (fields : Fields) (name : String) (default : α) (d : Decoder α) : Option α :=
  match fields.present.lookup name with
  | none => some default
  | some v => d fields.levels v

/-- A field that may be absent or `null`. -/
def optional (fields : Fields) (name : String) (d : Decoder α) : Option (Option α) :=
  fields.withDefault name none (nullable d)

end Fields

/-! ## Values of unknown shape -/

mutual

/-- Whether a value can be held before its shape is known: it nests no deeper than `levels`, its
numbers are finite and its strings and keys escape no surrogate half. -/
def isHeld (levels : Nat) : Json → Bool
  | .null => true
  | .bool _ => true
  | .number n => n.isFinite
  | .string s => s.isSome
  | .array items => levels != 0 && areHeld (levels - 1) items
  | .object members => levels != 0 && membersAreHeld (levels - 1) members

/-- `isHeld` for every item of an array. -/
def areHeld (levels : Nat) : List Json → Bool
  | [] => true
  | v :: rest => isHeld levels v && areHeld levels rest

/-- `isHeld` for every member of an object. -/
def membersAreHeld (levels : Nat) : List (Option String × Json) → Bool
  | [] => true
  | (k, v) :: rest => k.isSome && isHeld levels v && membersAreHeld levels rest

end

/-- Reads with `d` a value whose shape is known only after all of it has been read. -/
def held (d : Decoder α) : Decoder α := fun levels v => if isHeld levels v then d levels v else none

/-! ## Tagged unions -/

/-- Reads a value of one of several record shapes, told apart by the string in the field `tag`.
`shapes` gives, for each tag, the names of the other fields and how to read them. As an array, the
tag comes first; extra fields of an object are passed over. -/
def tagged (tag : String) (shapes : List (String × List String × (Fields → Option α))) :
    Decoder α :=
  held fun
    | levels + 1, .object members => do
      let (name, rest) ← match members.filter fun (key, _) => key == some tag with
        | [(_, .string (some name))] => some (name, members.filter fun (key, _) => key != some tag)
        | _ => none
      let (names, read) ← shapes.lookup name
      (record names (levels + 1) (.object rest)).bind read
    | levels + 1, .array (.string (some name) :: items) => do
      let (names, read) ← shapes.lookup name
      (record names (levels + 1) (.array items)).bind read
    | _, _ => none

end Decode

end TreeLint
