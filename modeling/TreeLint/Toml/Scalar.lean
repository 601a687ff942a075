import TreeLint.Toml.Binary64
import TreeLint.Toml.Value

/-!
# Numbers, truth values and dates in TOML

A scalar without quotes is a run of letters, digits and a few marks, and is read as a whole.
Underscores may stand between two digits. Integers must fit a signed word; a floating-point number
must not overflow upward.
-/

namespace TreeLint.Toml

/-- The characters that scalars without quotes are made of. -/
def isScalarChar (c : Char) : Bool := c.isAlphanum || ['+', '-', '_', '.', ':'].contains c

/-- The digits of a text in which an underscore may stand between two digits. -/
def digits? (isDigit : Char → Bool) : List Char → Option (List Char)
  | [] => none
  | [c] => if isDigit c then some [c] else none
  | c :: '_' :: cs => if isDigit c then (digits? isDigit cs).map (c :: ·) else none
  | c :: cs => if isDigit c then (digits? isDigit cs).map (c :: ·) else none

/-- The number that `digits` spell to `base`, which is at most 16. -/
def numberOf (base : Nat) (digits : List Char) : Nat :=
  digits.foldl (fun n c => base * n + value c) 0
where
  /-- The value of a digit. -/
  value (c : Char) : Nat :=
    if c.isDigit then c.toNat - '0'.toNat else c.toLower.toNat - 'a'.toNat + 10

/-- Whether a sign in front of a number is a minus, and the rest. -/
def sign : List Char → Bool × List Char
  | '+' :: cs => (false, cs)
  | '-' :: cs => (true, cs)
  | cs => (false, cs)

/-- The digits of a decimal integer without sign. A zero in front stands alone. -/
def decimal? (cs : List Char) : Option (List Char) :=
  if cs.head? = some '0' ∧ cs.length ≠ 1 then none else digits? Char.isDigit cs

/-- Whether `c` is a digit to the base 16. -/
def isHexDigit (c : Char) : Bool := c.isDigit || ('a' ≤ c && c ≤ 'f') || ('A' ≤ c && c ≤ 'F')

/-- The integer that `cs` spells. Other bases than ten take no sign. -/
def integer? (cs : List Char) : Option Int := do
  let n : Int ← match cs with
    | '0' :: 'x' :: cs => (digits? isHexDigit cs).map fun ds => (numberOf 16 ds : Int)
    | '0' :: 'o' :: cs => (digits? (fun c => '0' ≤ c && c ≤ '7') cs).map fun ds => (numberOf 8 ds : Int)
    | '0' :: 'b' :: cs => (digits? (fun c => c == '0' || c == '1') cs).map fun ds => (numberOf 2 ds : Int)
    | cs =>
      let (negative, cs) := sign cs
      (decimal? cs).map fun ds => if negative then -(numberOf 10 ds : Int) else numberOf 10 ds
  if -0x8000000000000000 ≤ n ∧ n < 0x8000000000000000 then some n else none

/-- The exponent that `cs` spells, which stood behind its mark. -/
def exponent? (cs : List Char) : Option Int :=
  let (negative, cs) := sign cs
  (digits? Char.isDigit cs).map fun ds => if negative then -(numberOf 10 ds : Int) else numberOf 10 ds

/-- The bits of the floating-point number that `cs` spells in digits, without a sign: a fraction, an
exponent, or both follow the integer. -/
def magnitude? (cs : List Char) : Option Nat := do
  let isMark (c : Char) : Bool := c == 'e' || c == 'E'
  let mantissa := cs.takeWhile (!isMark ·)
  let exponent ← match cs.dropWhile (!isMark ·) with
    | [] => some none
    | _ :: cs => (exponent? cs).map some
  let whole ← decimal? (mantissa.takeWhile (· != '.'))
  let fraction ← match mantissa.dropWhile (· != '.') with
    | [] => some none
    | _ :: cs => (digits? Char.isDigit cs).map some
  if fraction.isNone ∧ exponent.isNone then none
  else
    let fraction := fraction.getD []
    some (Binary64.ofDecimal (numberOf 10 (whole ++ fraction))
      (exponent.getD 0 - fraction.length))

/-- The bits of the floating-point number that `cs` spells. `Binary64.notANumber` has no sign. -/
def float? (cs : List Char) : Option Nat :=
  let (negative, body) := sign cs
  let signed (bits : Nat) := if negative then Binary64.negate bits else bits
  if body = ['i', 'n', 'f'] then some (signed Binary64.infinity)
  else if body = ['n', 'a', 'n'] then some Binary64.notANumber
  else (magnitude? body).bind fun bits =>
    if bits = Binary64.infinity ∧ !negative then none else some (signed bits)

/-- The scalar that `cs` spells without quotes. -/
def scalar? (cs : List Char) : Option Toml :=
  if cs = "true".toList then some (.boolean true)
  else if cs = "false".toList then some (.boolean false)
  else ((Datetime.ofText? cs).map datetime).or
    (((float? cs).map float).or ((integer? cs).map integer))

/-- Cuts a scalar off the front of `cs`. A blank may part a date from a time. -/
def cutScalar (cs : List Char) : List Char × List Char :=
  let front := cs.takeWhile isScalarChar
  let back := cs.dropWhile isScalarChar
  match Datetime.ofText? front, back with
  | some (.date _), ' ' :: rest =>
    let time := rest.takeWhile isScalarChar
    if time.isEmpty then (front, back) else (front ++ ' ' :: time, rest.dropWhile isScalarChar)
  | _, _ => (front, back)

end TreeLint.Toml
