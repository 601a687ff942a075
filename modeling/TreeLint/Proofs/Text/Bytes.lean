import TreeLint.Proofs.Text.Boundary

/-!
# The bytes of a text

The UTF-8 form of a text, byte by byte. An ASCII character is one byte with its own number; all
bytes of any other character are at least 128, so none can be taken for an ASCII character.

- `Text.bytes`, `Text.byteChar`: the bytes of a text, and a byte read as a character.
- `Text.suffix?`: the text from a byte on, which there is from a boundary.
- `lead`: the first byte of a character. All bytes behind it are at least 128 (`le_of_mem_tail`).
- `AsciiOnly.byteChar_lead`, `AsciiOnly.length_takeWhile_bytes`: a test that only ASCII characters
  pass can be made byte by byte.
-/

namespace TreeLint.Text

/-- The bytes of the UTF-8 form of `cs`. -/
def bytes (cs : List Char) : List UInt8 := cs.flatMap String.utf8EncodeChar

/-- The character with the number of the byte `b`. -/
def byteChar (b : UInt8) : Char := .ofNat b.toNat

/-- The text from byte `n` on. Fails when byte `n` lies inside a character or past the end. -/
def suffix? (cs : List Char) (n : Nat) : Option (List Char) := (splitAt? cs n).map Prod.snd

@[simp] theorem suffix?_append (front back : List Char) :
    suffix? (front ++ back) (byteSize front) = some back := by
  simp [suffix?]

theorem slice?_append (front middle back : List Char) :
    slice? (front ++ middle ++ back) (byteSize front) (byteSize front + byteSize middle) =
      some middle := by
  rw [slice?, if_neg (by omega), ← byteSize_append, splitAt?_append]
  simp

@[simp] theorem bytes_cons (c : Char) (cs : List Char) :
    bytes (c :: cs) = String.utf8EncodeChar c ++ bytes cs := rfl

@[simp] theorem bytes_append (front back : List Char) :
    bytes (front ++ back) = bytes front ++ bytes back := by
  simp [bytes]

@[simp] theorem length_bytes (cs : List Char) : (bytes cs).length = byteSize cs := by
  induction cs with
  | nil => rfl
  | cons c cs ih =>
    rw [bytes_cons, List.length_append, String.length_utf8EncodeChar, byteSize_cons, ih]

/-! ## The bytes of a character -/

theorem toNat_byteChar (b : UInt8) : (byteChar b).toNat = b.toNat := by
  have hlt := b.toNat_lt
  have hvalid : b.toNat.isValidChar := .inl (by omega)
  rw [byteChar, Char.ofNat, dif_pos hvalid]
  rfl

theorem utf8EncodeChar_of_lt {c : Char} (h : c.toNat < 128) :
    String.utf8EncodeChar c = [UInt8.ofNat c.toNat] := by
  have hle : c.val.toNat ≤ 127 := Nat.le_of_lt_succ h
  simp only [String.utf8EncodeChar, if_pos hle]
  rfl

theorem le_of_mem_utf8EncodeChar {c : Char} (h : 128 ≤ c.toNat) {b : UInt8}
    (hb : b ∈ String.utf8EncodeChar c) : 128 ≤ b.toNat := by
  have hlt : ¬ c.val.toNat ≤ 127 := Nat.not_le.mpr h
  simp only [String.utf8EncodeChar, if_neg hlt] at hb
  split at hb
  · rcases (by simpa using hb) with rfl | rfl <;> simp <;> omega
  split at hb
  · rcases (by simpa using hb) with rfl | rfl | rfl <;> simp <;> omega
  · rcases (by simpa using hb) with rfl | rfl | rfl | rfl <;> simp <;> omega

/-- The first byte of the character `c`. -/
def lead (c : Char) : UInt8 := (String.utf8EncodeChar c).head String.utf8EncodeChar_ne_nil

theorem lead_cons_tail (c : Char) :
    lead c :: (String.utf8EncodeChar c).tail = String.utf8EncodeChar c :=
  List.cons_head_tail _

theorem byteChar_lead_of_lt {c : Char} (h : c.toNat < 128) : byteChar (lead c) = c := by
  have hlead : lead c = UInt8.ofNat c.toNat := by simp [lead, utf8EncodeChar_of_lt h]
  rw [hlead, byteChar, UInt8.toNat_ofNat', Nat.mod_eq_of_lt (by omega)]
  exact Char.ofNat_toNat c

theorem le_toNat_lead {c : Char} (h : 128 ≤ c.toNat) : 128 ≤ (lead c).toNat :=
  le_of_mem_utf8EncodeChar h (List.head_mem _)

theorem le_of_mem_tail {c : Char} {b : UInt8} (hb : b ∈ (String.utf8EncodeChar c).tail) :
    128 ≤ b.toNat := by
  by_cases h : c.toNat < 128
  · rw [utf8EncodeChar_of_lt h] at hb
    cases hb
  · exact le_of_mem_utf8EncodeChar (Nat.le_of_not_lt h) (List.mem_of_mem_tail hb)

theorem utf8Size_of_lt {c : Char} (h : c.toNat < 128) : c.utf8Size = 1 := by
  rw [← String.length_utf8EncodeChar, utf8EncodeChar_of_lt h]
  rfl

/-- The bytes of a text where a character `c` begins. -/
theorem bytes_append_cons (front : List Char) (c : Char) (cs : List Char) :
    bytes (front ++ c :: cs) =
      bytes front ++ lead c :: ((String.utf8EncodeChar c).tail ++ bytes cs) := by
  rw [bytes_append, bytes_cons, ← List.cons_append, lead_cons_tail]

theorem getElem?_bytes_append_cons (front : List Char) (c : Char) (cs : List Char) :
    (bytes (front ++ c :: cs))[byteSize front]? = some (lead c) := by
  rw [bytes_append_cons, ← length_bytes, List.getElem?_append_right (Nat.le_refl _), Nat.sub_self]
  rfl

/-! ## ASCII characters -/

/-- A test `holds` that only ASCII characters pass. -/
def AsciiOnly (holds : Char → Bool) : Prop := ∀ c, holds c = true → c.toNat < 128

namespace AsciiOnly

variable {holds : Char → Bool}

/-- The first byte of `c` passes the test when `c` does. -/
theorem byteChar_lead (h : AsciiOnly holds) (c : Char) : holds (byteChar (lead c)) = holds c := by
  by_cases hc : c.toNat < 128
  · rw [byteChar_lead_of_lt hc]
  · have hlead : ¬ (byteChar (lead c)).toNat < 128 := by
      rw [toNat_byteChar]
      exact Nat.not_lt.mpr (le_toNat_lead (Nat.le_of_not_lt hc))
    rw [Bool.eq_false_iff.mpr (mt (h _) hlead), Bool.eq_false_iff.mpr (mt (h _) hc)]

/-- A run of characters of `cs` is a run of bytes. -/
theorem length_takeWhile_bytes (h : AsciiOnly holds) (cs : List Char) :
    ((bytes cs).takeWhile fun b => holds (byteChar b)).length = byteSize (cs.takeWhile holds) := by
  induction cs with
  | nil => rfl
  | cons c cs ih =>
    rw [bytes_cons, ← lead_cons_tail, List.cons_append, List.takeWhile_cons, h.byteChar_lead,
      List.takeWhile_cons]
    cases hc : holds c with
    | false => rfl
    | true =>
      have hlt := h c hc
      simp [utf8EncodeChar_of_lt hlt, utf8Size_of_lt hlt, ih, Nat.add_comm]

end AsciiOnly

theorem byteChar_ne_of_le {b : UInt8} {c : Char} (h : 128 ≤ b.toNat) (hc : c.toNat < 128) :
    byteChar b ≠ c := by
  rintro rfl
  rw [toNat_byteChar] at hc
  omega

theorem byteChar_lead_eq_iff {c d : Char} (h : d.toNat < 128) : byteChar (lead c) = d ↔ c = d := by
  have hd : AsciiOnly (· == d) := fun e he => eq_of_beq he ▸ h
  rw [← beq_iff_eq, hd.byteChar_lead c, beq_iff_eq]

end TreeLint.Text
