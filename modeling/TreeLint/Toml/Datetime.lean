import TreeLint.Text.Search

/-!
# Dates and times

A date, a time of day, or both; with both, the offset from universal time can be given, too.
Dates exist in the calendar, and a minute may have a leap second.

- `Datetime.ofText?` reads one of the forms `2006-05-04`, `16:45:00.5` and `2006-05-04T16:45:00Z`.
- `Datetime.render` writes it in one way: fractions without zeros at the end, and at most nine
  digits of them.
-/

namespace TreeLint

/-- A day of the calendar. -/
structure Date where
  year : Nat
  month : Nat
  day : Nat
  deriving DecidableEq, Repr, Inhabited

/-- A time of day. -/
structure TimeOfDay where
  hour : Nat
  minute : Nat
  second : Nat
  /-- The digits behind the point, at most nine and none of them a zero at the end. -/
  fraction : List Char := []
  deriving DecidableEq, Repr, Inhabited

/-- An offset from universal time. -/
inductive TimeOffset where
  | universal
  | minutes (west : Bool) (amount : Nat)
  deriving DecidableEq, Repr, Inhabited

/-- A date, a time, or both. -/
inductive Datetime where
  | date (date : Date)
  | time (time : TimeOfDay)
  | both (date : Date) (time : TimeOfDay) (offset : Option TimeOffset)
  deriving DecidableEq, Repr, Inhabited

namespace Datetime

/-! ## Reading -/

/-- A number of exactly `count` digits, and the rest. -/
def number? (count : Nat) (cs : List Char) : Option (Nat × List Char) :=
  let digits := cs.take count
  if digits.length = count ∧ digits.all Char.isDigit then
    some (digits.foldl (fun n c => 10 * n + (c.toNat - '0'.toNat)) 0, cs.drop count)
  else none

/-- The rest of `cs` behind the character `c`. -/
def mark? (c : Char) (cs : List Char) : Option (List Char) := [c].isPrefixOf? cs

/-- Number of days of `month` in `year`. -/
def daysOf (year month : Nat) : Nat :=
  if month = 2 then
    if year % 4 = 0 ∧ (year % 100 ≠ 0 ∨ year % 400 = 0) then 29 else 28
  else if month ∈ [4, 6, 9, 11] then 30
  else 31

/-- A date, and the rest. -/
def date? (cs : List Char) : Option (Date × List Char) := do
  let (year, cs) ← number? 4 cs
  let (month, cs) ← number? 2 (← mark? '-' cs)
  let (day, cs) ← number? 2 (← mark? '-' cs)
  if 1 ≤ month ∧ month ≤ 12 ∧ 1 ≤ day ∧ day ≤ daysOf year month then some (⟨year, month, day⟩, cs)
  else none

/-- The digits behind a point, if there is one, and the rest. -/
def fraction? (cs : List Char) : Option (List Char × List Char) :=
  match mark? '.' cs with
  | none => some ([], cs)
  | some cs =>
    let digits := cs.takeWhile Char.isDigit
    if digits.isEmpty then none
    else some (Text.dropEndWhile (· == '0') (digits.take 9), cs.dropWhile Char.isDigit)

/-- A time of day, and the rest. -/
def time? (cs : List Char) : Option (TimeOfDay × List Char) := do
  let (hour, cs) ← number? 2 cs
  let (minute, cs) ← number? 2 (← mark? ':' cs)
  let (second, cs) ← number? 2 (← mark? ':' cs)
  let (fraction, cs) ← fraction? cs
  if hour ≤ 23 ∧ minute ≤ 59 ∧ second ≤ 60 then some (⟨hour, minute, second, fraction⟩, cs)
  else none

/-- The offset that is the whole text, or none if the text is empty. -/
def offset? : List Char → Option (Option TimeOffset)
  | [] => some none
  | ['Z'] | ['z'] => some (some .universal)
  | sign :: cs => do
    let (hours, cs) ← number? 2 cs
    let (minutes, cs) ← number? 2 (← mark? ':' cs)
    if (sign = '+' ∨ sign = '-') ∧ hours ≤ 23 ∧ minutes ≤ 59 ∧ cs.isEmpty then
      some (some (.minutes (sign = '-') (60 * hours + minutes)))
    else none

/-- The date and the time that a text spells. A blank may stand between them. -/
def ofText? (cs : List Char) : Option Datetime :=
  match date? cs with
  | some (d, []) => some (.date d)
  | some (d, sep :: cs) => do
    let (t, cs) ← time? cs
    let offset ← offset? cs
    if sep = 'T' ∨ sep = 't' ∨ sep = ' ' then some (.both d t offset) else none
  | none =>
    match time? cs with
    | some (t, []) => some (.time t)
    | _ => none

/-! ## Writing -/

/-- A number with zeros in front, at least `width` digits long. -/
def padded (width n : Nat) : String :=
  let digits := Text.digits n
  String.ofList (List.replicate (width - digits.length) '0' ++ digits)

/-- The text of a date. -/
def renderDate (d : Date) : String := s!"{padded 4 d.year}-{padded 2 d.month}-{padded 2 d.day}"

/-- The text of a time. -/
def renderTime (t : TimeOfDay) : String :=
  s!"{padded 2 t.hour}:{padded 2 t.minute}:{padded 2 t.second}"
    ++ if t.fraction.isEmpty then "" else String.ofList ('.' :: t.fraction)

/-- The text of an offset. -/
def renderOffset : TimeOffset → String
  | .universal => "Z"
  | .minutes west amount =>
    (if west && amount != 0 then "-" else "+")
      ++ s!"{padded 2 (amount / 60)}:{padded 2 (amount % 60)}"

/-- The text of a date and a time. -/
def render : Datetime → String
  | date d => renderDate d
  | time t => renderTime t
  | both d t offset => s!"{renderDate d}T{renderTime t}" ++ (offset.map renderOffset).getD ""

end Datetime

end TreeLint
