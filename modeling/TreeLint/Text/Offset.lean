/-!
# Byte offsets into a text

A text is a list of characters, and a position in it is the number of bytes that its UTF-8 form
takes before that position. A position is usable only at a character boundary.

- `splitAt?` cuts a text at a byte offset; it fails inside a character and past the end.
- `append_of_splitAt?`: the two parts of a cut are the text, and the first has `n` bytes.
- `slice?` is the text between two offsets.
- `lineColumn` turns an offset into a line and a column, both counted from one.
-/

namespace TreeLint.Text

/-- Number of bytes of the UTF-8 form of `cs`. -/
def byteSize : List Char → Nat
  | [] => 0
  | c :: cs => c.utf8Size + byteSize cs

/-- Cuts `cs` after `n` bytes. Fails when byte `n` lies inside a character or past the end. -/
def splitAt? : List Char → Nat → Option (List Char × List Char)
  | cs, 0 => some ([], cs)
  | [], _ + 1 => none
  | c :: cs, n + 1 =>
    if c.utf8Size ≤ n + 1 then
      (splitAt? cs (n + 1 - c.utf8Size)).map fun (front, back) => (c :: front, back)
    else none

/-- Whether byte `n` of `cs` starts a character or is the end of the text. -/
def isBoundary (cs : List Char) (n : Nat) : Bool := (splitAt? cs n).isSome

/-- The text from byte `start` to byte `stop`, when both are boundaries in that order. -/
def slice? (cs : List Char) (start stop : Nat) : Option (List Char) :=
  if stop < start then none
  else do
    let (front, _) ← splitAt? cs stop
    let (_, middle) ← splitAt? front start
    some middle

/-- Byte offset at which the last line of `cs` begins. -/
def lastLineStart (cs : List Char) : Nat :=
  byteSize cs - byteSize (cs.reverse.takeWhile (· ≠ '\n'))

/-- Line and column of the byte `offset`, both counted from one, the column in bytes. Offsets past
the end count as the end; an offset inside a character is on the first line. -/
def lineColumn (cs : List Char) (offset : Nat) : Nat × Nat :=
  let offset := min offset (byteSize cs)
  let before := (splitAt? cs offset).elim [] Prod.fst
  (before.count '\n' + 1, offset - lastLineStart before + 1)

/-- The lines of a text: each ends before a line feed, or before a carriage return and a line
feed. A text that ends in a line feed has no line after it. -/
def lines : List Char → List (List Char)
  | [] => []
  | '\n' :: cs => [] :: lines cs
  | '\r' :: '\n' :: cs => [] :: lines cs
  | c :: cs =>
    match cs, lines cs with
    | _ :: _, l :: ls => (c :: l) :: ls
    | _, ls => [c] :: ls

/-! ## Cutting -/

@[simp] theorem byteSize_nil : byteSize [] = 0 := rfl

@[simp] theorem byteSize_cons (c : Char) (cs : List Char) :
    byteSize (c :: cs) = c.utf8Size + byteSize cs := rfl

@[simp] theorem byteSize_append (a b : List Char) :
    byteSize (a ++ b) = byteSize a + byteSize b := by
  induction a with
  | nil => simp
  | cons c a ih => simp [ih, Nat.add_assoc]

/-- The two parts of a cut at `n` are the text, and the first has `n` bytes. -/
theorem append_of_splitAt? {cs front back : List Char} {n : Nat}
    (h : splitAt? cs n = some (front, back)) : front ++ back = cs ∧ byteSize front = n := by
  induction cs generalizing n front with
  | nil => cases n <;> simp_all [splitAt?]
  | cons c cs ih =>
    cases n with
    | zero => simp_all [splitAt?]
    | succ n =>
      simp only [splitAt?] at h
      split at h
      · obtain ⟨p, hp, he⟩ := Option.map_eq_some_iff.1 h
        obtain ⟨rfl, rfl⟩ := Prod.mk.inj he
        obtain ⟨rfl, hs⟩ := ih hp
        exact ⟨rfl, by simp; omega⟩
      · simp at h

/-- A text can be cut after each beginning `a` of it. -/
@[simp] theorem splitAt?_append (a b : List Char) : splitAt? (a ++ b) (byteSize a) = some (a, b) := by
  induction a with
  | nil => cases b <;> simp [splitAt?]
  | cons c a ih =>
    obtain ⟨n, hn⟩ : ∃ n, c.utf8Size + byteSize a = n + 1 :=
      ⟨c.utf8Size + byteSize a - 1, by have := c.utf8Size_pos; omega⟩
    have : n + 1 - c.utf8Size = byteSize a := by omega
    simp only [List.cons_append, byteSize_cons, hn, splitAt?, this, ih]
    rw [if_pos (by omega)]
    rfl

end TreeLint.Text
