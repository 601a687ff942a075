/-!
# JSON values

A value as it stands in a text, before anyone asks for it to have a shape. Two things that a text
may say are kept although they have no meaning yet: a number is its digits, whatever their count,
and a string may escape half of a surrogate pair, which names no character (`Json.string none`).
A reader that has no use for such a part of a document may pass it over.
-/

namespace TreeLint

/-- A JSON number: its digits before and after the point, and its exponent. -/
structure JsonNumber where
  negative : Bool := false
  /-- The digits before the point, as a number. -/
  whole : Nat
  /-- The digits after the point; empty when there is no point. -/
  fraction : List Char := []
  /-- The number after the `e`, if there is one. -/
  exponent : Option Int := none
  deriving DecidableEq, Repr, Inhabited

/-- A JSON value. Members of an object stand in the order of the text, repeated keys included. -/
inductive Json where
  | null
  | bool (value : Bool)
  | number (value : JsonNumber)
  /-- `none` is a string that escapes an unpaired half of a surrogate pair. -/
  | string (text : Option String)
  | array (items : List Json)
  | object (members : List (Option String × Json))
  deriving Repr, Inhabited

namespace JsonNumber

/-- Written without point and exponent. -/
def isInteger (n : JsonNumber) : Bool := n.fraction.isEmpty && n.exponent.isNone

/-- The natural number that `n` writes, for digits alone without a sign. -/
def toNat? (n : JsonNumber) : Option Nat :=
  if n.isInteger && !n.negative then some n.whole else none

/-- All digits of `n`, with the point left out. -/
def significand (n : JsonNumber) : Nat :=
  n.fraction.foldl (fun sum c => sum * 10 + (c.toNat - '0'.toNat)) n.whole

/-- The power of ten by which `significand` is to be multiplied. -/
def scale (n : JsonNumber) : Int := n.exponent.getD 0 - n.fraction.length

/-- Whether `n`, rounded to a double-precision float, is finite. The bound lies half way between the
largest finite float and the next power of two. -/
def isFinite (n : JsonNumber) : Bool :=
  let digits := (Nat.toDigits 10 n.significand).length
  if n.significand = 0 then true
  else if n.scale + digits > 310 then false
  else if n.scale + digits < 300 then true
  else
    let bound := Nat.pow 2 1024 - Nat.pow 2 970
    if n.scale ≥ 0 then n.significand * Nat.pow 10 n.scale.toNat < bound
    else n.significand < bound * Nat.pow 10 (-n.scale).toNat

end JsonNumber

namespace Json

/-- The number `n`, written in digits. -/
def ofNat (n : Nat) : Json := number { whole := n }

/-- The string `s`, which has no surrogate halves. -/
def ofString (s : String) : Json := string (some s)

/-- An object with the given `members`, whose keys are ordinary strings. -/
def ofMembers (members : List (String × Json)) : Json :=
  object (members.map fun (key, value) => (some key, value))

end Json

end TreeLint
