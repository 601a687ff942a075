import TreeLint.Assoc
import TreeLint.Toml.Datetime

/-!
# TOML values
-/

namespace TreeLint

/-- A value of a configuration file. -/
inductive Toml where
  | string (s : String)
  /-- A number that fits a signed word of 64 bits. -/
  | integer (n : Int)
  /-- A floating-point number, given by its bits. -/
  | float (bits : Nat)
  | boolean (b : Bool)
  | datetime (d : Datetime)
  | array (items : List Toml)
  /-- A table, each key once. -/
  | table (members : List (String × Toml))
  deriving Repr, Inhabited

namespace Toml

/-- The members of a table. -/
def members? : Toml → Option (List (String × Toml))
  | table members => some members
  | _ => none

/-- The text of a string. -/
def string? : Toml → Option String
  | string s => some s
  | _ => none

/-- The items of an array. -/
def array? : Toml → Option (List Toml)
  | array items => some items
  | _ => none

end Toml

end TreeLint
