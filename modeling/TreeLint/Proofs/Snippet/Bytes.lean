import Mathlib.Data.List.TakeWhile
import TreeLint.Proofs.Snippet.Lexemes
import TreeLint.Proofs.Text.Bytes
import TreeLint.Proofs.Text.Searching

/-!
# Reading tokens byte by byte

`SnippetToken.scan` goes along the characters of a text. The same reading can be done with an index
into the bytes, which knows nothing of characters: a backslash skips two bytes, and the text is cut
at the index wherever it has come to stand. Such a cut fails inside a character.

- `ByteReader.turn?`: what is read at one index. `lt_of_turn?`: the index moves forward.
- `ByteReader.tokens?`: all that is read from an index on.
- `turn?_append_cons`: where a character begins, the bytes are read like the characters, and the
  reading ends where a character begins.
- `tokens?_append`: so no cut fails, and the tokens are those of `SnippetToken.scan`.
-/

namespace TreeLint

namespace ByteReader

open Text

/-! ## The reader -/

/-- The first index from `i` on at which no byte stands that passes the test. -/
def runEnd (holds : Char → Bool) (bs : List UInt8) (i : Nat) : Nat :=
  if h : i < bs.length then
    if holds (byteChar bs[i]) then runEnd holds bs (i + 1) else i
  else i
termination_by bs.length - i

/-- The index of the first quote from `i` on that no backslash escapes, or one behind the last byte.
A backslash skips the byte behind it. -/
def quoteEnd (bs : List UInt8) (i : Nat) : Nat :=
  if h : i < bs.length then
    if byteChar bs[i] = '"' then i
    else if byteChar bs[i] = '\\' then quoteEnd bs (i + 2)
    else quoteEnd bs (i + 1)
  else i
termination_by bs.length - i

/-- The index of the end of the line, where `rest` is the text from the index `i` on. -/
def lineEnd (text rest : List Char) (i : Nat) : Nat :=
  match cutAt? ['\n'] rest with
  | some (line, _) => i + byteSize line
  | none => (bytes text).length

/-- The index behind the comment that is opened at the index `i`. -/
def commentEnd? (text : List Char) (i : Nat) : Option (Except String Nat) :=
  (suffix? text (i + 2)).map fun rest =>
    match cutAt? ['*', '/'] rest with
    | some (body, _) => .ok (i + 2 + byteSize body + 2)
    | none => .error "unterminated comment"

/-- The token that begins at the index `i` with `c`, and the index behind it. -/
def token (bs : List UInt8) (i : Nat) (c : Char) : Except String (TokenKind × Nat) :=
  if Lexeme.isNameStart c then .ok (.name, runEnd Lexeme.isNameRest bs i)
  else if c.isDigit then .ok (.number, runEnd Char.isDigit bs i)
  else if c = '"' then
    if bs.length ≤ quoteEnd bs (i + 1) then .error s!"unterminated string at {i}"
    else .ok (.string, quoteEnd bs (i + 1) + 1)
  else if c ∈ Lexeme.marks then .ok (.mark c, i + 1)
  else .error s!"unexpected character {quotedChar c} at {i}"

/-- What is read at the index `i`, where the byte `b` stands: a token or none, and the index behind
it. There is no result when the text is cut inside a character or past its end. -/
def turn? (text : List Char) (i : Nat) (b : UInt8) :
    Option (Except String (Option TokenKind × Nat)) :=
  if Lexeme.isBlank (byteChar b) then some (.ok (none, i + 1))
  else
    (suffix? text i).bind fun rest =>
      if ['/', '/'].isPrefixOf rest then some (.ok (none, lineEnd text rest i))
      else if ['/', '*'].isPrefixOf rest then (commentEnd? text i).map (·.map (none, ·))
      else some ((token (bytes text) i (byteChar b)).map fun (kind, stop) => (some kind, stop))

/-! ## The index moves forward -/

theorem le_runEnd (holds : Char → Bool) (bs : List UInt8) (i : Nat) : i ≤ runEnd holds bs i := by
  fun_induction runEnd holds bs i with
  | case1 i h hholds ih => omega
  | case2 | case3 => exact Nat.le_refl _

theorem lt_runEnd {holds : Char → Bool} {bs : List UInt8} {i : Nat} (h : i < bs.length)
    (hholds : holds (byteChar bs[i]) = true) : i < runEnd holds bs i := by
  rw [runEnd, dif_pos h, if_pos hholds]
  exact le_runEnd holds bs (i + 1)

theorem le_quoteEnd (bs : List UInt8) (i : Nat) : i ≤ quoteEnd bs i := by
  fun_induction quoteEnd bs i with
  | case2 i h hquote hescape ih | case3 i h hquote hescape ih => omega
  | case1 | case4 => exact Nat.le_refl _

theorem lt_of_token {bs : List UInt8} {i stop : Nat} {kind : TokenKind} (hi : i < bs.length)
    (h : token bs i (byteChar bs[i]) = .ok (kind, stop)) : i < stop := by
  unfold token at h
  split at h
  · rename_i hname
    obtain ⟨-, rfl⟩ := by simpa using h
    exact lt_runEnd hi (Lexeme.isNameRest_of_isNameStart hname)
  split at h
  · rename_i hdigit
    obtain ⟨-, rfl⟩ := by simpa using h
    exact lt_runEnd hi hdigit
  split at h
  · split at h
    · cases h
    · obtain ⟨-, rfl⟩ := by simpa using h
      have := le_quoteEnd bs (i + 1)
      omega
  split at h
  · obtain ⟨-, rfl⟩ := by simpa using h
    exact Nat.lt_succ_self i
  · cases h

theorem lt_lineEnd {text rest : List Char} {i : Nat} (hi : i < (bytes text).length)
    (hrest : rest.head? ≠ some '\n') : i < lineEnd text rest i := by
  unfold lineEnd
  split
  · rename_i line back hcut
    obtain rfl := append_of_cutAt? hcut
    cases line with
    | nil => exact absurd rfl hrest
    | cons c line =>
      have := c.utf8Size_pos
      rw [byteSize_cons]
      omega
  · exact hi

/-- A turn moves the index `i` forward, to `stop`. -/
theorem lt_of_turn? {text : List Char} {i stop : Nat} {kind : Option TokenKind}
    (hi : i < (bytes text).length)
    (h : turn? text i (bytes text)[i] = some (.ok (kind, stop))) : i < stop := by
  unfold turn? at h
  split at h
  · obtain ⟨-, rfl⟩ := by simpa using h
    exact Nat.lt_succ_self i
  obtain ⟨rest, -, h⟩ := Option.bind_eq_some_iff.mp h
  split at h
  · rename_i hslashes
    obtain ⟨-, rfl⟩ := by simpa using h
    obtain ⟨behind, rfl⟩ := List.isPrefixOf_iff_prefix.mp hslashes
    exact lt_lineEnd hi (by simp)
  split at h
  · obtain ⟨found, hend, h⟩ := Option.map_eq_some_iff.mp h
    obtain ⟨rest, -, rfl⟩ := Option.map_eq_some_iff.mp hend
    split at h
    · cases h
      omega
    · cases h
  · cases htoken : token (bytes text) i (byteChar (bytes text)[i]) with
    | error e => simp [htoken, Except.map] at h
    | ok found =>
      rw [htoken] at h
      cases h
      exact lt_of_token hi htoken

/-- The tokens from the index `i` on, with their places. -/
def tokens? (text : List Char) (i : Nat) : Option (Except String (List (TokenKind × Span))) :=
  if hi : i < (bytes text).length then
    match h : turn? text i (bytes text)[i] with
    | none => none
    | some (.error e) => some (.error e)
    | some (.ok (kind, stop)) =>
      have : i < stop := lt_of_turn? hi h
      (tokens? text stop).map
        (·.map fun tokens => (kind.map (·, Span.mk i stop)).toList ++ tokens)
  else some (.ok [])
termination_by (bytes text).length - i
decreasing_by exact Nat.sub_lt_sub_left hi this

/-! ## Runs and quotes where characters begin -/

theorem runEnd_append (holds : Char → Bool) (front back : List UInt8) :
    runEnd holds (front ++ back) front.length =
      front.length + (back.takeWhile fun b => holds (byteChar b)).length := by
  induction back generalizing front with
  | nil => simp [runEnd]
  | cons b back ih =>
    have hb : (front ++ b :: back)[front.length]? = some b := by simp
    obtain ⟨hi, hbyte⟩ := List.getElem?_eq_some_iff.mp hb
    have hrest := ih (front ++ [b])
    rw [List.append_assoc, List.length_append] at hrest
    rw [runEnd, dif_pos hi, hbyte, List.takeWhile_cons]
    cases holds (byteChar b) with
    | false => rfl
    | true =>
      rw [if_pos rfl, if_pos rfl, List.length_cons]
      exact hrest.trans (by rw [List.length_singleton]; omega)

theorem runEnd_bytes {holds : Char → Bool} (h : AsciiOnly holds) (front cs : List Char) :
    runEnd holds (bytes (front ++ cs)) (byteSize front) =
      byteSize front + byteSize (cs.takeWhile holds) := by
  rw [bytes_append, ← length_bytes front, runEnd_append, h.length_takeWhile_bytes]

theorem quoteEnd_of_le {bs : List UInt8} {i : Nat} (h : bs.length ≤ i) : quoteEnd bs i = i := by
  rw [quoteEnd, dif_neg (Nat.not_lt.mpr h)]

theorem quoteEnd_append_cons (front back : List UInt8) (b : UInt8) :
    quoteEnd (front ++ b :: back) front.length =
      if byteChar b = '"' then front.length
      else if byteChar b = '\\' then quoteEnd (front ++ b :: back) (front.length + 2)
      else quoteEnd (front ++ b :: back) (front.length + 1) := by
  have hb : (front ++ b :: back)[front.length]? = some b := by simp
  obtain ⟨hi, hbyte⟩ := List.getElem?_eq_some_iff.mp hb
  rw [quoteEnd, dif_pos hi, hbyte]

/-- Bytes outside ASCII, those of `middle`, are passed over. -/
theorem quoteEnd_append_append (front back : List UInt8) {middle : List UInt8}
    (h : ∀ b ∈ middle, 128 ≤ b.toNat) :
    quoteEnd (front ++ (middle ++ back)) front.length =
      quoteEnd (front ++ (middle ++ back)) (front.length + middle.length) := by
  induction middle generalizing front with
  | nil => rfl
  | cons b middle ih =>
    obtain ⟨hb, hmiddle⟩ := List.forall_mem_cons.mp h
    have hrest := ih (front ++ [b]) hmiddle
    rw [List.append_assoc, List.singleton_append, List.length_append, List.length_singleton]
      at hrest
    rw [List.cons_append, quoteEnd_append_cons, if_neg (byteChar_ne_of_le hb (by decide)),
      if_neg (byteChar_ne_of_le hb (by decide)), hrest, List.length_cons, Nat.add_assoc,
      Nat.add_comm 1]

section

variable (front cs : List Char)

theorem quoteEnd_bytes_cons (c : Char) :
    quoteEnd (bytes (front ++ c :: cs)) (byteSize front) =
      if c = '"' then byteSize front
      else if c = '\\' then quoteEnd (bytes (front ++ c :: cs)) (byteSize front + 2)
      else quoteEnd (bytes (front ++ c :: cs)) (byteSize front + 1) := by
  simp only [bytes_append_cons, ← length_bytes front, quoteEnd_append_cons,
    byteChar_lead_eq_iff (show '"'.toNat < 128 by decide),
    byteChar_lead_eq_iff (show '\\'.toNat < 128 by decide)]

/-- The bytes of a character `c` behind its first one are passed over. -/
theorem quoteEnd_bytes_tail (c : Char) :
    quoteEnd (bytes (front ++ c :: cs)) (byteSize front + 1) =
      quoteEnd (bytes (front ++ c :: cs)) (byteSize front + c.utf8Size) := by
  have hskip := quoteEnd_append_append (bytes front ++ [lead c]) (bytes cs)
    (fun b (hb : b ∈ (String.utf8EncodeChar c).tail) => le_of_mem_tail hb)
  have hsize := c.utf8Size_pos
  rw [List.append_assoc, List.singleton_append, ← bytes_append_cons, List.length_append,
    List.length_tail, String.length_utf8EncodeChar, length_bytes, List.length_singleton] at hskip
  rw [hskip]
  congr 1
  omega

theorem quoteEnd_escape (c : Char) :
    quoteEnd (bytes (front ++ '\\' :: c :: cs)) (byteSize front) =
      quoteEnd (bytes (front ++ ['\\', c] ++ cs)) (byteSize (front ++ ['\\', c])) := by
  have hskip := quoteEnd_bytes_tail (front ++ ['\\']) cs c
  rw [List.append_assoc, byteSize_append] at hskip
  rw [quoteEnd_bytes_cons, if_neg (by decide), if_pos rfl, List.append_assoc, byteSize_append]
  exact hskip.trans (by rw [Nat.add_assoc]; rfl)

theorem quoteEnd_plain {c : Char} (hquote : c ≠ '"') (hescape : c ≠ '\\') :
    quoteEnd (bytes (front ++ c :: cs)) (byteSize front) =
      quoteEnd (bytes (front ++ [c] ++ cs)) (byteSize (front ++ [c])) := by
  rw [quoteEnd_bytes_cons, if_neg hquote, if_neg hescape, quoteEnd_bytes_tail, List.append_assoc,
    byteSize_append]
  rfl

/-- Reading up to the closing quote, where characters begin: the quote is the last byte of `body`,
and there is none when the string is not closed. -/
theorem quoteEnd_bytes :
    match Lexeme.closeString? cs with
    | some (body, _) =>
      quoteEnd (bytes (front ++ cs)) (byteSize front) + 1 = byteSize front + byteSize body
    | none => byteSize (front ++ cs) ≤ quoteEnd (bytes (front ++ cs)) (byteSize front) := by
  fun_induction Lexeme.closeString? cs generalizing front with
  | case1 =>
    rw [quoteEnd_of_le (by simp), List.append_nil]
  | case2 cs =>
    rw [quoteEnd_bytes_cons, if_pos rfl]
    rfl
  | case3 c cs ih =>
    have hrest := ih (front ++ ['\\', c])
    rw [quoteEnd_escape]
    cases hclose : Lexeme.closeString? cs with
    | none => simpa [hclose] using hrest
    | some found =>
      simp only [hclose, byteSize_append, byteSize_cons, byteSize_nil, Option.map_some] at hrest ⊢
      omega
  | case4 c cs hquote hescape ih =>
    by_cases hbackslash : c = '\\'
    · -- A backslash at the end of the text skips a byte that is not there.
      obtain rfl := hbackslash
      obtain rfl : cs = [] := by
        cases cs with
        | nil => rfl
        | cons d cs => exact absurd rfl (hescape d cs rfl)
      have hsize : byteSize (front ++ ['\\']) = byteSize front + 1 := byteSize_append _ _
      rw [quoteEnd_bytes_cons, if_neg (by decide), if_pos rfl,
        quoteEnd_of_le (by rw [length_bytes, hsize]; omega), hsize]
      exact Nat.le_succ _
    · have hrest := ih (front ++ [c])
      rw [quoteEnd_plain front cs hquote hbackslash]
      cases hclose : Lexeme.closeString? cs with
      | none => simpa [hclose] using hrest
      | some found =>
        simp only [hclose, byteSize_append, byteSize_cons, byteSize_nil, Option.map_some] at hrest ⊢
        omega

end

/-! ## Ends of comments where characters begin -/

theorem lineEnd_append (front cs : List Char) :
    lineEnd (front ++ cs) cs (byteSize front) =
      byteSize front + byteSize (cs.takeWhile (· ≠ '\n')) := by
  unfold lineEnd
  cases hcut : cutAt? ['\n'] cs with
  | some found =>
    obtain ⟨line, rest⟩ := found
    have hline : ∀ c ∈ line, decide (c ≠ '\n') = true := fun c hc =>
      decide_eq_true fun h => not_mem_of_cutAt? hcut (h ▸ hc)
    rw [← append_of_cutAt? hcut, List.takeWhile_append_of_pos hline]
    simp
  | none =>
    have hall : cs.takeWhile (· ≠ '\n') = cs := by
      refine List.takeWhile_eq_self_iff.mpr fun c hc => decide_eq_true ?_
      rintro rfl
      obtain ⟨before, after, rfl⟩ := List.append_of_mem hc
      exact cutAt?_eq_none_iff.mp hcut ⟨before, after, by simp⟩
    rw [hall]
    simp

theorem commentEnd?_append (front cs : List Char) :
    commentEnd? (front ++ '/' :: '*' :: cs) (byteSize front) =
      some (match Lexeme.closeComment? cs with
        | some (body, _) => .ok (byteSize front + byteSize ('/' :: '*' :: body))
        | none => .error SnippetError.unclosedComment.message) := by
  have hfront : byteSize front + 2 = byteSize (front ++ ['/', '*']) := by
    rw [byteSize_append]
    rfl
  have htext : front ++ '/' :: '*' :: cs = front ++ ['/', '*'] ++ cs := by simp
  unfold commentEnd? Lexeme.closeComment?
  rw [hfront, htext, suffix?_append, Option.map_some]
  cases cutAt? ['*', '/'] cs with
  | none => rfl
  | some found =>
    have hbody : byteSize front + byteSize ['/', '*'] + byteSize found.1 + byteSize ['*', '/'] =
        byteSize front + byteSize ('/' :: '*' :: (found.1 ++ ['*', '/'])) := by
      simp only [byteSize_cons, byteSize_append, Nat.add_assoc, byteSize_nil]
      omega
    simp only [Option.map_some, byteSize_append]
    exact congrArg (fun stop => some (Except.ok stop)) hbody

/-! ## One turn where a character begins -/

theorem toNat_lead (c : Char) : (lead c).toNat = SnippetError.leadByte c := by
  have hval : c.val.toNat = c.toNat := rfl
  have hvalid : c.toNat < 0x110000 := by
    rcases c.valid with h | h <;> omega
  have hlead : (String.utf8EncodeChar c).head? = some (lead c) := List.head?_eq_some_head _
  simp only [String.utf8EncodeChar, hval] at hlead
  simp only [SnippetError.leadByte]
  split at hlead
  · rw [if_pos (by omega), ← Option.some.inj hlead, UInt8.toNat_ofNat']
    omega
  rw [if_neg (by omega)]
  split at hlead
  · rw [if_pos (by omega), ← Option.some.inj hlead, UInt8.toNat_ofNat']
    omega
  rw [if_neg (by omega)]
  split at hlead
  · rw [if_pos (by omega), ← Option.some.inj hlead, UInt8.toNat_ofNat']
    omega
  · rw [if_neg (by omega), ← Option.some.inj hlead, UInt8.toNat_ofNat']
    omega

theorem asciiOnly_isBlank : AsciiOnly Lexeme.isBlank := by
  intro c h
  simp only [Lexeme.isBlank, Bool.or_eq_true, beq_iff_eq] at h
  rcases h with (((rfl | rfl) | rfl) | rfl) | rfl <;> decide

theorem asciiOnly_isNameRest : AsciiOnly Lexeme.isNameRest := by
  intro c h
  simp only [Lexeme.isNameRest, Bool.or_eq_true, beq_iff_eq] at h
  rcases h with h | rfl
  · delta Char.isAlphanum Char.isAlpha Char.isUpper Char.isLower Char.isDigit at h
    simp only [Bool.or_eq_true, Bool.and_eq_true, decide_eq_true_eq, UInt32.le_iff_toNat_le,
      ge_iff_le] at h
    change ((65 ≤ c.toNat ∧ c.toNat ≤ 90) ∨ (97 ≤ c.toNat ∧ c.toNat ≤ 122)) ∨
      (48 ≤ c.toNat ∧ c.toNat ≤ 57) at h
    omega
  · decide

theorem asciiOnly_isDigit : AsciiOnly Char.isDigit :=
  fun c h => asciiOnly_isNameRest c (by simp [Lexeme.isNameRest, Char.isAlphanum, h])

theorem asciiOnly_isNameStart : AsciiOnly Lexeme.isNameStart :=
  fun c h => asciiOnly_isNameRest c (Lexeme.isNameRest_of_isNameStart h)

theorem lt_of_mem_marks {c : Char} (h : c ∈ Lexeme.marks) : c.toNat < 128 := by
  simp only [Lexeme.marks, List.mem_cons, List.not_mem_nil, or_false] at h
  rcases h with rfl | rfl | rfl | rfl | rfl | rfl | rfl | rfl | rfl <;> decide

theorem isPrefixOf_pair_iff {a b c : Char} {cs : List Char} :
    [a, b].isPrefixOf (c :: cs) = true ↔ c = a ∧ cs.head? = some b := by
  rw [List.isPrefixOf_iff_prefix, List.cons_prefix_cons, List.singleton_prefix_iff_head?_eq_some,
    eq_comm]

/-- What a turn gives when a lexeme is read, or none is, in front of the index `i`. -/
def outcome (i : Nat) :
    Except SnippetError (LexemeKind × List Char × List Char) →
      Except String (Option TokenKind × Nat)
  | .error e => .error e.message
  | .ok (.token kind, lexeme, _) => .ok (some kind, i + byteSize lexeme)
  | .ok (.blank, lexeme, _) | .ok (.comment, lexeme, _) => .ok (none, i + byteSize lexeme)

section

variable (front : List Char) (c : Char) (cs : List Char)

theorem token_append_cons (hblank : ¬ Lexeme.isBlank c = true)
    (hline : ¬ (c = '/' ∧ cs.head? = some '/')) (hlong : ¬ (c = '/' ∧ cs.head? = some '*')) :
    (token (bytes (front ++ c :: cs)) (byteSize front) (byteChar (lead c))).map
        (fun (kind, stop) => (some kind, stop)) =
      outcome (byteSize front) (Lexeme.next (byteSize front) c cs) := by
  unfold token Lexeme.next
  rw [if_neg hblank, if_neg hline, if_neg hlong, asciiOnly_isNameStart.byteChar_lead,
    asciiOnly_isDigit.byteChar_lead]
  by_cases hname : Lexeme.isNameStart c = true
  · rw [if_pos hname, if_pos hname, runEnd_bytes asciiOnly_isNameRest, List.takeWhile_cons,
      if_pos (Lexeme.isNameRest_of_isNameStart hname)]
    rfl
  rw [if_neg hname, if_neg hname]
  by_cases hdigit : c.isDigit = true
  · rw [if_pos hdigit, if_pos hdigit, runEnd_bytes asciiOnly_isDigit, List.takeWhile_cons,
      if_pos hdigit]
    rfl
  rw [if_neg hdigit, if_neg hdigit]
  by_cases hquote : c = '"'
  -- A string is the one token that may hold bytes outside ASCII, also behind a backslash.
  · obtain rfl := hquote
    have hone : ('"').utf8Size = 1 := rfl
    have hfront : byteSize (front ++ ['"']) = byteSize front + 1 := byteSize_append _ _
    have hquote := quoteEnd_bytes (front ++ ['"']) cs
    rw [List.append_assoc, List.singleton_append, hfront] at hquote
    rw [if_pos ((byteChar_lead_eq_iff (by decide)).mpr rfl), if_pos rfl, length_bytes]
    cases hclose : Lexeme.closeString? cs with
    | none =>
      rw [hclose] at hquote
      rw [if_pos hquote]
      rfl
    | some found =>
      have hle : byteSize found.1 ≤ byteSize cs := by
        rw [← Lexeme.append_of_closeString? hclose, byteSize_append]
        exact Nat.le_add_right _ _
      simp only [hclose] at hquote
      rw [if_neg (by rw [byteSize_append, byteSize_cons]; omega), hquote]
      simp [outcome, Except.map, hone, Nat.add_assoc]
  rw [if_neg (mt (byteChar_lead_eq_iff (by decide)).mp hquote), if_neg hquote]
  by_cases hmark : c ∈ Lexeme.marks
  · have hlt := lt_of_mem_marks hmark
    rw [byteChar_lead_of_lt hlt, if_pos hmark, if_pos hmark]
    simp [outcome, Except.map, utf8Size_of_lt hlt]
  · have hmark' : byteChar (lead c) ∉ Lexeme.marks := fun h =>
      hmark ((byteChar_lead_eq_iff (lt_of_mem_marks h)).mp rfl ▸ h)
    rw [if_neg hmark', if_neg hmark, byteChar, toNat_lead]
    rfl

theorem turn?_append_cons :
    turn? (front ++ c :: cs) (byteSize front) (lead c) =
      some (outcome (byteSize front) (Lexeme.next (byteSize front) c cs)) := by
  unfold turn?
  rw [asciiOnly_isBlank.byteChar_lead, suffix?_append, Option.bind_some]
  by_cases hblank : Lexeme.isBlank c = true
  · have hsize : c.utf8Size = 1 := utf8Size_of_lt (asciiOnly_isBlank c hblank)
    rw [if_pos hblank, Lexeme.next, if_pos hblank]
    simp [outcome, hsize]
  rw [if_neg hblank]
  by_cases hline : c = '/' ∧ cs.head? = some '/'
  · have hfeed : c ≠ '\n' := by
      rintro rfl
      exact absurd hline.1 (by decide)
    rw [if_pos (isPrefixOf_pair_iff.mpr hline), Lexeme.next, if_neg hblank, if_pos hline,
      lineEnd_append, List.takeWhile_cons, if_pos (decide_eq_true hfeed)]
    rfl
  rw [if_neg (mt isPrefixOf_pair_iff.mp hline)]
  by_cases hlong : c = '/' ∧ cs.head? = some '*'
  · rw [if_pos (isPrefixOf_pair_iff.mpr hlong), Lexeme.next, if_neg hblank, if_neg hline,
      if_pos hlong]
    obtain ⟨rfl, hstar⟩ := hlong
    obtain ⟨cs, rfl⟩ := List.head?_eq_some_iff.mp hstar
    rw [commentEnd?_append, List.tail_cons]
    cases Lexeme.closeComment? cs <;> rfl
  · rw [if_neg (mt isPrefixOf_pair_iff.mp hlong), token_append_cons front c cs hblank hline hlong]

end

/-! ## The whole text -/

section

variable {text : List Char} {i : Nat} (hi : i < (bytes text).length)

include hi

theorem tokens?_of_ok {kind : Option TokenKind} {stop : Nat}
    (h : turn? text i (bytes text)[i] = some (.ok (kind, stop))) :
    tokens? text i = (tokens? text stop).map
      (·.map fun tokens => (kind.map (·, Span.mk i stop)).toList ++ tokens) := by
  rw [tokens?, dif_pos hi]
  split <;> simp_all

theorem tokens?_of_error {e : String} (h : turn? text i (bytes text)[i] = some (.error e)) :
    tokens? text i = some (.error e) := by
  rw [tokens?, dif_pos hi]
  split <;> simp_all

end

/-- What is told of a reading: the tokens with their places, or the message of the error `e`. -/
def report : Except SnippetError (List SnippetToken) → Except String (List (TokenKind × Span))
  | .error e => .error e.message
  | .ok tokens => .ok (tokens.map fun t => (t.kind, t.span))

/-- Where a character begins, behind `front`, reading the bytes is reading the characters of
`rest`. -/
theorem tokens?_append (front : List Char) : ∀ rest : List Char,
    tokens? (front ++ rest) (byteSize front) =
      some (report (SnippetToken.scan (byteSize front) rest))
  | [] => by
    rw [tokens?, dif_neg (by simp), SnippetToken.scan]
    rfl
  | c :: cs => by
    obtain ⟨hi, hbyte⟩ := List.getElem?_eq_some_iff.mp (getElem?_bytes_append_cons front c cs)
    have hturn := turn?_append_cons front c cs
    rw [← hbyte] at hturn
    cases hnext : Lexeme.next (byteSize front) c cs with
    | error e =>
      rw [hnext] at hturn
      rw [SnippetToken.scan_cons_of_error hnext]
      exact tokens?_of_error hi hturn
    | ok found =>
      obtain ⟨kind, lexeme, rest⟩ := found
      obtain ⟨body, rfl, rfl⟩ := Lexeme.append_of_next hnext
      have := Lexeme.length_lt_of_next hnext
      have hrest := tokens?_append (front ++ c :: body) rest
      rw [List.append_assoc, List.cons_append, byteSize_append] at hrest
      rw [hnext] at hturn
      rw [SnippetToken.scan_cons hnext, Lexeme.size]
      cases kind with
      | blank | comment | token kind =>
        rw [tokens?_of_ok hi hturn, hrest]
        cases SnippetToken.scan (byteSize front + byteSize (c :: body)) rest <;> rfl
termination_by rest => rest.length

end ByteReader

end TreeLint
