import TreeLint.Proofs.Suppress.Covered

/-!
# Directives as they are written

A directive is written in a comment of either form, perhaps behind code and with blanks around it.
It is read back where the search takes the right opener. Two slashes in its reason can prevent that.

- `CommentForm.around`: a comment. `AllowDirective.written`: a directive in a comment.
- `AllowDirective.keysOf_intercalate`, `AllowDirective.ofComment?_written`: it is read back.
- `allowance_written`: what a directive allows, at which lines.
-/

namespace TreeLint

open Text List

/-- The forms of a comment: `line` and `block`. -/
inductive CommentForm where
  /-- Behind `//`, up to the end of the line. -/
  | line
  /-- Between `/*` and `*/`. -/
  | block
  deriving DecidableEq, Repr

/-- What closes a comment: `*/` in block form. -/
def CommentForm.closer : CommentForm → List Char
  | line => []
  | block => ['*', '/']

/-- A comment of this `form` with a `text`. -/
def CommentForm.around (form : CommentForm) (text : List Char) : List Char :=
  '/' :: (match form with | line => '/' | block => '*') :: (text ++ form.closer)

namespace AllowDirective

/-- The `reason` between quotes. -/
def given (reason : String) : String := "reason=" ++ "\"" ++ reason ++ "\""

/-- The list of `keys`, with a `reason` behind it. -/
def listed (keys : List String) (reason : String) : String :=
  ", ".intercalate keys ++ ")" ++ " " ++ given reason

/-- What is allowed, the `keys`, with a `reason` behind it. -/
def allowing (keys : List String) (reason : String) : String := "allow(" ++ listed keys reason

/-- A directive as it is written, with these `keys` and this `reason`. -/
def written (keys : List String) (reason : String) : String :=
  "sift:" ++ " " ++ allowing keys reason

/-- A `key` that can be written: not empty, and without blanks, commas, closing parentheses and
slashes. -/
def IsKey (key : String) : Prop :=
  key ≠ "" ∧ ∀ c ∈ key.toList, isBlank c = false ∧ c ≠ ',' ∧ c ≠ ')' ∧ c ≠ '/'

instance (key : String) : Decidable (IsKey key) :=
  @instDecidableAnd _ _ inferInstance (List.decidableBAll _ key.toList)

variable {keys : List String} {key reason : String} {front before after line text : List Char}
  {form : CommentForm} {directive : AllowDirective}

/-! ## Keys -/

theorem IsKey.tight (h : IsKey key) : Tight key.toList :=
  ⟨fun c hc => (h.2 c (List.mem_of_mem_head? hc)).1,
    fun c hc => (h.2 c (List.mem_of_getLast? hc)).1⟩

theorem IsKey.keysOf (h : IsKey key) : keysOf key.toList = [key] := by
  have hcomma : ',' ∉ key.toList := fun hmem => (h.2 ',' hmem).2.1 rfl
  have htrim : trim key.toList = key.toList := trim_of_tight h.tight
  have hne : key.toList ≠ [] := fun hnil => h.1 (String.toList_eq_nil_iff.mp hnil)
  simp [AllowDirective.keysOf, splitOn_of_not_mem hcomma, htrim, hne]

theorem keysOf_append (list list' : List Char) :
    keysOf (list ++ ',' :: list') = keysOf list ++ keysOf list' := by
  simp only [keysOf, splitOn_append, List.map_append, List.filter_append]

/-- The `keys` with commas and blanks between them are read back. -/
theorem keysOf_intercalate (h : ∀ key ∈ keys, IsKey key) :
    keysOf (", ".intercalate keys).toList = keys := by
  induction keys with
  | nil => rfl
  | cons key keys ih =>
    obtain ⟨hkey, hkeys⟩ := List.forall_mem_cons.mp h
    cases keys with
    | nil => simpa using hkey.keysOf
    | cons next keys =>
      have hlist : (", ".intercalate (key :: next :: keys)).toList =
          key.toList ++ ',' :: ([' '] ++ (", ".intercalate (next :: keys)).toList) := by
        simp [String.intercalate_cons_cons]
      rw [hlist, keysOf_append, hkey.keysOf, keysOf_blank (by decide), ih hkeys]
      rfl

theorem not_mem_intercalate {c : Char} (hcomma : c ≠ ',') (hblank : c ≠ ' ')
    (h : ∀ key ∈ keys, c ∉ key.toList) : c ∉ (", ".intercalate keys).toList := by
  induction keys with
  | nil => simp
  | cons key keys ih =>
    obtain ⟨hkey, hkeys⟩ := List.forall_mem_cons.mp h
    cases keys with
    | nil => simpa using hkey
    | cons next keys =>
      rw [String.intercalate_cons_cons, String.toList_append, String.toList_append,
        List.mem_append, List.mem_append]
      rintro ((hmem | hmem) | hmem)
      · exact hkey hmem
      · simp [hcomma, hblank] at hmem
      · exact ih hkeys hmem

/-- A list of `keys` begins with a character `c` that is no blank. -/
theorem exists_head_intercalate (hkeys : keys ≠ []) (hkey : ∀ key ∈ keys, IsKey key) :
    ∃ c, (", ".intercalate keys).toList.head? = some c ∧ isBlank c = false := by
  cases keys with
  | nil => exact absurd rfl hkeys
  | cons key keys =>
    obtain ⟨hne, hchars⟩ := hkey key List.mem_cons_self
    cases hcs : key.toList with
    | nil => exact absurd (String.toList_eq_nil_iff.mp hcs) hne
    | cons c cs =>
      refine ⟨c, ?_, (hchars c (by rw [hcs]; exact List.mem_cons_self)).1⟩
      cases keys with
      | nil => simp [hcs]
      | cons next keys => simp [String.intercalate_cons_cons, hcs]

/-! ## What is written -/

theorem toList_given (reason : String) :
    (given reason).toList = "reason=".toList ++ (['"'] ++ (reason.toList ++ ['"'])) := by
  simp [given]

theorem toList_listed (keys : List String) (reason : String) : (listed keys reason).toList =
    (", ".intercalate keys).toList ++ ([')'] ++ ([' '] ++ (given reason).toList)) := by
  simp [listed]

theorem toList_allowing (keys : List String) (reason : String) :
    (allowing keys reason).toList = "allow(".toList ++ (listed keys reason).toList := by
  simp [allowing]

theorem toList_written (keys : List String) (reason : String) :
    (written keys reason).toList = "sift:".toList ++ ([' '] ++ (allowing keys reason).toList) := by
  simp [written]

theorem getLast?_given (reason : String) : '"' ∈ (given reason).toList.getLast? := by
  simp only [toList_given]
  exact mem_getLast?_append_of_mem_getLast?
    (mem_getLast?_append_of_mem_getLast? (mem_getLast?_append_of_mem_getLast? rfl))

theorem tight_given (reason : String) : Tight (given reason).toList :=
  tight_of_head_last 'r' '"' (by decide) (by decide) (by simp [toList_given])
    (getLast?_given reason)

theorem getLast?_listed (keys : List String) (reason : String) :
    '"' ∈ (listed keys reason).toList.getLast? := by
  simp only [toList_listed]
  exact mem_getLast?_append_of_mem_getLast? (mem_getLast?_append_of_mem_getLast?
    (mem_getLast?_append_of_mem_getLast? (getLast?_given reason)))

theorem tight_listed (hkeys : keys ≠ []) (hkey : ∀ key ∈ keys, IsKey key) (reason : String) :
    Tight (listed keys reason).toList := by
  obtain ⟨c, hhead, hblank⟩ := exists_head_intercalate hkeys hkey
  refine tight_of_head_last c '"' hblank (by decide) ?_ (getLast?_listed keys reason)
  rw [toList_listed, List.head?_append, hhead, Option.some_or]

theorem getLast?_allowing (keys : List String) (reason : String) :
    '"' ∈ (allowing keys reason).toList.getLast? := by
  simp only [toList_allowing]
  exact mem_getLast?_append_of_mem_getLast? (getLast?_listed keys reason)

theorem tight_allowing (keys : List String) (reason : String) :
    Tight (allowing keys reason).toList :=
  tight_of_head_last 'a' '"' (by decide) (by decide) (by simp [toList_allowing])
    (getLast?_allowing keys reason)

theorem getLast?_written (keys : List String) (reason : String) :
    '"' ∈ (written keys reason).toList.getLast? := by
  simp only [toList_written]
  exact mem_getLast?_append_of_mem_getLast?
    (mem_getLast?_append_of_mem_getLast? (getLast?_allowing keys reason))

theorem head?_written (keys : List String) (reason : String) :
    (written keys reason).toList.head? = some 's' := by
  simp [toList_written]

theorem tight_written (keys : List String) (reason : String) :
    Tight (written keys reason).toList :=
  tight_of_head_last 's' '"' (by decide) (by decide) (head?_written keys reason)
    (getLast?_written keys reason)

/-! ## Reading back -/

theorem behind?_append (opening : String) (text : List Char) :
    behind? opening (opening.toList ++ text) = some (trim text) := by
  rw [behind?, List.isPrefixOf?_eq_some_iff_append_eq.mpr rfl]
  rfl

/-- The directive in the text `comment` that was taken for a comment. -/
def ofComment? (comment : List Char) : Option AllowDirective := do
  let comment := trim (dropEndCopies ['*', '/'] (trim comment))
  let directive ← behind? "sift:" comment
  let (keys, rest) ← (behind? "allow(" directive).bind fun list => cutAt? [')'] list
  let keys := keysOf keys
  if keys.isEmpty then none else some { keys, reason := reasonOf? (trim rest) }

theorem ofLine?_eq (line : List Char) : ofLine? line = (comment? line).bind ofComment? := rfl

/-- What is `written` does not end a comment, nor do the blanks `after` it. -/
theorem not_suffix_written (hafter : Blank after) :
    ¬ ['*', '/'] <:+ (written keys reason).toList ++ after := by
  rintro ⟨front, hfront⟩
  have hlast : '/' ∈ ((written keys reason).toList ++ after).getLast? :=
    hfront ▸ mem_getLast?_append_of_mem_getLast? rfl
  cases hend : after.getLast? with
  | none =>
    obtain rfl : after = [] := getLast?_eq_none_iff.mp hend
    rw [append_nil] at hlast
    exact absurd (Option.mem_unique hlast (getLast?_written keys reason)) (by decide)
  | some c =>
    obtain rfl : '/' = c :=
      Option.mem_unique hlast (mem_getLast?_append_of_mem_getLast? hend)
    exact hafter.not_mem (by decide) (mem_of_getLast? hend)

/-- Blanks `before` and `after`, and the end of the comment, are taken off. -/
theorem trim_around (hbefore : Blank before) (hafter : Blank after) :
    trim (dropEndCopies ['*', '/']
      (trim (before ++ (written keys reason).toList ++ after ++ form.closer))) =
      (written keys reason).toList := by
  have htight := tight_written keys reason
  cases form with
  | line =>
    have hopen : ¬ ['*', '/'] <:+ (written keys reason).toList ++ [] := not_suffix_written nofun
    rw [List.append_nil] at hopen
    rw [CommentForm.closer, List.append_nil, trim_pad hbefore hafter htight,
      dropEndCopies_of_not_suffix hopen, trim_of_tight htight]
  | block =>
    have hclosed : Tight ((written keys reason).toList ++ after ++ ['*', '/']) := by
      refine tight_of_head_last 's' '/' (by decide) (by decide) ?_ (by simp)
      rw [List.append_assoc, List.head?_append, head?_written, Option.some_or]
    have hfirst : trim (before ++ ((written keys reason).toList ++ after ++ ['*', '/']) ++ []) =
        (written keys reason).toList ++ after ++ ['*', '/'] := trim_pad hbefore nofun hclosed
    have hlast : trim ([] ++ (written keys reason).toList ++ after) =
        (written keys reason).toList := trim_pad nofun hafter htight
    rw [List.append_nil] at hfirst
    rw [List.nil_append] at hlast
    rw [CommentForm.closer, List.append_assoc, List.append_assoc, ← List.append_assoc _ after,
      hfirst, dropEndCopies_append (by decide) (not_suffix_written hafter), hlast]

theorem reasonOf?_given (hreason : '"' ∉ reason.toList) :
    reasonOf? (given reason).toList = some reason := by
  have htight : Tight (['"'] ++ (reason.toList ++ ['"'])) :=
    tight_of_head_last '"' '"' (by decide) (by decide) (by simp)
      (mem_getLast?_append_of_mem_getLast? (mem_getLast?_append_of_mem_getLast? rfl))
  have hquote : ['"'].isPrefixOf? (['"'] ++ (reason.toList ++ ['"'])) =
      some (reason.toList ++ ['"']) := List.isPrefixOf?_eq_some_iff_append_eq.mpr rfl
  have hcut : cutAt? ['"'] (reason.toList ++ ['"']) = some (reason.toList, []) :=
    cutAt?_append_of_not_mem hreason
  simp only [reasonOf?, toList_given, behind?_append, trim_of_tight htight, Option.bind_some,
    hquote, hcut, Option.bind_eq_bind, String.ofList_toList]

theorem cutAt?_listed (hkey : ∀ key ∈ keys, IsKey key) (reason : String) :
    cutAt? [')'] (listed keys reason).toList =
      some ((", ".intercalate keys).toList, [' '] ++ (given reason).toList) := by
  rw [toList_listed]
  exact cutAt?_append_of_not_mem <| not_mem_intercalate (by decide) (by decide)
    fun key hmem hc => ((hkey key hmem).2 ')' hc).2.2.1 rfl

/-- What is `written` is read back, `keys` and `reason`. -/
theorem ofComment?_written (hkeys : keys ≠ []) (hkey : ∀ key ∈ keys, IsKey key)
    (hreason : '"' ∉ reason.toList) (hbefore : Blank before) (hafter : Blank after) :
    ofComment? (before ++ (written keys reason).toList ++ after ++ form.closer) =
      some { keys, reason := some reason } := by
  have hblank : ∀ text : List Char, Tight text → trim ([' '] ++ text) = text := fun text htext => by
    rw [trim_blank_append (by decide), trim_of_tight htext]
  have hsift : behind? "sift:" (written keys reason).toList =
      some (allowing keys reason).toList := by
    rw [toList_written, behind?_append, hblank _ (tight_allowing keys reason)]
  have hallow : behind? "allow(" (allowing keys reason).toList =
      some (listed keys reason).toList := by
    rw [toList_allowing, behind?_append, trim_of_tight (tight_listed hkeys hkey reason)]
  have hne : keys.isEmpty = false := by simpa using hkeys
  simp only [ofComment?, trim_around hbefore hafter, hsift, hallow, Option.bind_eq_bind,
    Option.bind_some, cutAt?_listed hkey, keysOf_intercalate hkey, hne,
    hblank _ (tight_given reason), reasonOf?_given hreason]
  rfl

/-! ## The line -/

theorem infix_block_iff (hfront : '/' ∉ front) :
    ['/', '/'] <:+: front ++ CommentForm.block.around text ↔ ['/', '/'] <:+: text := by
  have hone : ∀ cs : List Char, cs.count '/' ≤ 1 → ¬ ['/', '/'] <:+: cs :=
    fun cs hcs => not_infix_of_count (n := 1) hcs
  have hline : front ++ CommentForm.block.around text =
      (front ++ ['/']) ++ '*' :: (text ++ '*' :: ['/']) := by
    simp [CommentForm.around, CommentForm.closer]
  have hopener : ¬ ['/', '/'] <:+: front ++ ['/'] :=
    hone _ (by rw [List.count_append, List.count_eq_zero.mpr hfront]; decide)
  have hcloser : ¬ ['/', '/'] <:+: ['/'] := by decide
  rw [hline, infix_append_cons_iff (c := '*') (by decide),
    infix_append_cons_iff (c := '*') (by decide)]
  tauto

/-- No slash stands in front of the `reason`. -/
theorem exists_front_written (hkey : ∀ key ∈ keys, IsKey key) (hbefore : Blank before)
    (reason : String) (after : List Char) : ∃ front, '/' ∉ front ∧
      before ++ (written keys reason).toList ++ after =
        front ++ '"' :: (reason.toList ++ '"' :: after) := by
  have hslash : ∀ key ∈ keys, '/' ∉ key.toList :=
    fun key hmem hc => ((hkey key hmem).2 '/' hc).2.2.2 rfl
  have hlist : '/' ∉ (", ".intercalate keys).toList :=
    not_mem_intercalate (by decide) (by decide) hslash
  have hblank : '/' ∉ before := hbefore.not_mem (by decide)
  refine ⟨before ++ ("sift:".toList ++ [' '] ++ "allow(".toList) ++
    ((", ".intercalate keys).toList ++ ([')', ' '] ++ "reason=".toList)), ?_, ?_⟩
  · simp only [List.mem_append, not_or]
    exact ⟨⟨hblank, by decide⟩, hlist, by decide⟩
  · rw [toList_written, toList_allowing, toList_listed, toList_given]
    simp only [List.append_assoc, List.cons_append, List.nil_append]

theorem infix_written_iff (hkey : ∀ key ∈ keys, IsKey key) (hbefore : Blank before)
    (hafter : Blank after) : ['/', '/'] <:+: before ++ (written keys reason).toList ++ after ↔
      ['/', '/'] <:+: reason.toList := by
  obtain ⟨front, hfront, heq⟩ := exists_front_written hkey hbefore reason after
  have hnone : ∀ cs : List Char, '/' ∉ cs → ¬ ['/', '/'] <:+: cs :=
    fun cs hcs hfound => hcs (hfound.subset List.mem_cons_self)
  have hblank : '/' ∉ after := hafter.not_mem (by decide)
  rw [heq, infix_append_cons_iff (c := '"') (by decide),
    infix_append_cons_iff (c := '"') (by decide)]
  simp [hnone front hfront, hnone after hblank]

/-- The search takes the comment that is written behind `front`, unless two slashes stand in a
comment in block form (`hform`). -/
theorem comment?_around (hfront : '/' ∉ front) (hform : form = .block → ¬ ['/', '/'] <:+: text) :
    comment? (front ++ form.around text) = some (text ++ form.closer) := by
  cases form with
  | line =>
    refine comment?_eq_some_iff.mpr (.inl ⟨front, ?_⟩)
    exact cutAt?_append_of_not_mem hfront
  | block =>
    have hnone : cutAt? ['/', '/'] (front ++ CommentForm.block.around text) = none :=
      cutAt?_eq_none_iff.mpr (mt (infix_block_iff hfront).mp (hform rfl))
    exact comment?_eq_some_iff.mpr (.inr ⟨hnone, front, cutAt?_append_of_not_mem hfront⟩)

/-- A line on which a directive is `written`, behind `front`. -/
def writtenLine (front : List Char) (form : CommentForm) (before : List Char) (keys : List String)
    (reason : String) (after : List Char) : List Char :=
  front ++ form.around (before ++ (written keys reason).toList ++ after)

theorem ofLine?_written (hfront : '/' ∉ front) (hkeys : keys ≠ []) (hkey : ∀ key ∈ keys, IsKey key)
    (hreason : '"' ∉ reason.toList) (hbefore : Blank before) (hafter : Blank after)
    (hform : form = .block → ¬ ['/', '/'] <:+: reason.toList) :
    ofLine? (writtenLine front form before keys reason after) =
      some { keys, reason := some reason } := by
  rw [ofLine?_eq, writtenLine, comment?_around hfront fun hblock =>
    mt (infix_written_iff hkey hbefore hafter).mp (hform hblock), Option.bind_some]
  exact ofComment?_written hkeys hkey hreason hbefore hafter

/-! ## A reason with two slashes -/

theorem isInfix_of_behind? {opening : String} {rest : List Char}
    (h : behind? opening text = some rest) : rest <:+: text := by
  obtain ⟨back, hback, rfl⟩ := Option.map_eq_some_iff.mp h
  have hsuffix : back <:+ text := ⟨_, append_of_isPrefixOf? hback⟩
  exact (isInfix_trim back).trans hsuffix.isInfix

/-- A `reason` takes two quotes. -/
theorem two_le_count_of_reasonOf? (h : reasonOf? text = some reason) : 2 ≤ text.count '"' := by
  simp only [reasonOf?, Option.bind_eq_bind, Option.bind_eq_some_iff] at h
  obtain ⟨quoted, ⟨rest, hrest, hquote⟩, ⟨inner, back⟩, hclose, -⟩ := h
  have hle := (isInfix_of_behind? hrest).sublist.count_le '"'
  rw [← append_of_isPrefixOf? hquote, ← append_of_cutAt? hclose] at hle
  simp at hle
  omega

/-- A comment `text` with one quote gives no reason. -/
theorem reason_of_count (h : ofComment? text = some directive) (hcount : text.count '"' ≤ 1) :
    directive.reason = none := by
  simp only [ofComment?, Option.bind_eq_bind, Option.bind_eq_some_iff] at h
  obtain ⟨rest, hsift, ⟨list, back⟩, ⟨keyed, hallow, hclose⟩, hkeys⟩ := h
  have hreason : directive.reason = reasonOf? (trim back) := by
    simp only at hkeys
    split at hkeys
    · cases hkeys
    · cases hkeys
      rfl
  have hback : back <:+ keyed := ⟨list ++ [')'], by
    rw [List.append_assoc, append_of_cutAt? hclose]⟩
  have hfound : trim back <:+: text :=
    (isInfix_trim back).trans <| hback.isInfix.trans <| (isInfix_of_behind? hallow).trans <|
      (isInfix_of_behind? hsift).trans <| (isInfix_trim _).trans <|
        (isPrefix_dropEndCopies _ _).isInfix.trans (isInfix_trim text)
  cases hgiven : reasonOf? (trim back) with
  | none => rw [hreason, hgiven]
  | some reason =>
    have hle := hfound.sublist.count_le '"'
    have htwo := two_le_count_of_reasonOf? hgiven
    omega

/-- In a comment in block form, two slashes in `reason` hide the reason. -/
theorem reason_of_ofLine?_written (hfront : '/' ∉ front) (hkey : ∀ key ∈ keys, IsKey key)
    (hreason : '"' ∉ reason.toList) (hbefore : Blank before) (hafter : Blank after)
    (hslashes : ['/', '/'] <:+: reason.toList)
    (h : ofLine? (writtenLine front .block before keys reason after) = some directive) :
    directive.reason = none := by
  obtain ⟨start, hstart, heq⟩ := exists_front_written hkey hbefore reason after
  have hline : writtenLine front .block before keys reason after =
      (front ++ '/' :: '*' :: start) ++ '"' :: (reason.toList ++ '"' :: (after ++ ['*', '/'])) := by
    rw [writtenLine, heq]
    simp [CommentForm.around, CommentForm.closer]
  have hnone : ¬ ['/', '/'] <:+: front ++ '/' :: '*' :: start := by
    refine not_infix_of_count (n := 1) ?_
    simp [List.count_eq_zero.mpr hfront, List.count_eq_zero.mpr hstart]
  have hquotes : (reason.toList ++ '"' :: (after ++ ['*', '/'])).count '"' = 1 := by
    have hblank : '"' ∉ after := hafter.not_mem (by decide)
    simp [List.count_eq_zero.mpr hreason, List.count_eq_zero.mpr hblank]
  have hfound : ['/', '/'] <:+: reason.toList ++ '"' :: (after ++ ['*', '/']) :=
    hslashes.trans (List.prefix_append ..).isInfix
  cases hcut : cutAt? ['/', '/'] (reason.toList ++ '"' :: (after ++ ['*', '/'])) with
  | none => exact absurd hfound (cutAt?_eq_none_iff.mp hcut)
  | some cut =>
    obtain ⟨skipped, text⟩ := cut
    have hcomment : comment? (writtenLine front .block before keys reason after) = some text := by
      refine comment?_eq_some_iff.mpr (.inl ⟨front ++ '/' :: '*' :: start ++ '"' :: skipped, ?_⟩)
      rw [hline, cutAt?_append_cons (c := '"') (by decide) hnone, hcut, Option.map_some]
    rw [ofLine?_eq, hcomment, Option.bind_some] at h
    have hsuffix : text <:+ reason.toList ++ '"' :: (after ++ ['*', '/']) :=
      ⟨skipped ++ ['/', '/'], by rw [List.append_assoc, append_of_cutAt? hcut]⟩
    exact reason_of_count h (hquotes ▸ hsuffix.sublist.count_le '"')

/-! ## Lines that begin with a comment, and lines without a directive -/

theorem isCommentLine_writtenLine (hfront : '/' ∉ front) :
    isCommentLine (writtenLine front form before keys reason after) = true ↔ Blank front := by
  constructor
  · intro hcomment
    by_contra hblank
    cases hdrop : front.dropWhile isBlank with
    | nil => exact hblank (List.dropWhile_eq_nil_iff.mp hdrop)
    | cons c rest =>
      have hc : c ≠ '/' := by
        rintro rfl
        exact hfront ((List.dropWhile_sublist isBlank).subset (hdrop ▸ List.mem_cons_self))
      have htrim : trimFront (writtenLine front form before keys reason after) =
          c :: (rest ++ form.around (before ++ (written keys reason).toList ++ after)) := by
        rw [trimFront, writtenLine, List.dropWhile_append, hdrop]
        rfl
      simp [isCommentLine, htrim, List.isPrefixOf, hc.symm] at hcomment
  · intro hblank
    have htrim : trimFront (writtenLine front form before keys reason after) =
        form.around (before ++ (written keys reason).toList ++ after) := by
      rw [trimFront, writtenLine, List.dropWhile_append_of_pos hblank]
      exact List.dropWhile_cons_of_neg (by decide)
    cases form <;> simp [isCommentLine, htrim, CommentForm.around, List.isPrefixOf]

/-- A `line` has a `directive` only where it says so. -/
theorem infix_of_ofLine? (h : ofLine? line = some directive) : "sift:".toList <:+: line := by
  obtain ⟨text, htext, before, between, list, rest, -, -, -, heq, -⟩ := isDirective_of_ofLine? h
  have hdirective : "sift:".toList <:+: text :=
    ⟨before, between ++ "allow(".toList ++ list ++ ')' :: rest, by rw [heq]; simp⟩
  have hsuffix : text <:+ line := by
    rcases comment?_eq_some_iff.mp htext with ⟨front, hcut⟩ | ⟨-, front, hcut⟩ <;>
    · rw [← append_of_cutAt? hcut, ← List.append_assoc]
      exact List.suffix_append _ _
  exact hdirective.trans hsuffix.isInfix

end AllowDirective

open AllowDirective

namespace Rule

variable {rule : Rule} {source : List Char} {line n : Nat} {directive : AllowDirective}

theorem DirectedAt.exists_isInfix (h : rule.DirectedAt source line directive) :
    ∃ text, lineAt? source line = some text ∧ "sift:".toList <:+: text := by
  obtain ⟨text, htext, hline, -⟩ := h
  exact ⟨text, htext, infix_of_ofLine? hline⟩

/-- A `directive` that counts for a line stands on it, or on the line before. -/
theorem ExcusedAt.cases_line (h : rule.ExcusedAt source line directive) :
    rule.DirectedAt source line directive ∨
      CommentLineAt source (line - 1) ∧ rule.DirectedAt source (line - 1) directive := by
  cases h with
  | before hcomment h => exact .inr ⟨hcomment, h⟩
  | beside _ h => exact .inl h

end Rule

/-- **A written directive is read back.** Let a line, number `n`, have a directive behind a text
`front` without slashes, and let no other line speak of one (`hothers`). The directive allows, for
its `reason`, the rules that its `keys` name at its own line, and at the next one if there are only
blanks in `front`. It allows nothing elsewhere. Only in a comment in block form with two slashes in
`reason` it does not: there, no rule is allowed for any reason. -/
theorem allowance_written {source front before after : List Char} {keys : List String}
    {reason : String} {form : CommentForm} {n : Nat} (hfront : '/' ∉ front) (hkeys : keys ≠ [])
    (hkey : ∀ key ∈ keys, IsKey key) (hreason : '"' ∉ reason.toList) (hbefore : Blank before)
    (hafter : Blank after)
    (hline : lineAt? source n = some (writtenLine front form before keys reason after))
    (hothers : ∀ m text, m ≠ n → lineAt? source m = some text → ¬ "sift:".toList <:+: text) :
    ((form = .block → ¬ ['/', '/'] <:+: reason.toList) → ∀ rule : Rule,
      (∃ key ∈ keys, rule.NamedBy key) → allowance source n rule = .allowed (some reason) ∧
        (Blank front → allowance source (n + 1) rule = .allowed (some reason))) ∧
    (∀ (rule : Rule) (m : Nat), m ≠ n → (m = n + 1 → ¬ Blank front) →
      allowance source m rule = .denied) ∧
    (form = .block → ['/', '/'] <:+: reason.toList → ∀ (rule : Rule) (given : String),
      allowance source n rule ≠ .allowed (some given)) := by
  have hnone : ∀ (rule : Rule) m directive, m ≠ n → ¬ rule.DirectedAt source m directive := by
    intro rule m directive hm hdirected
    obtain ⟨text, htext, hfound⟩ := hdirected.exists_isInfix
    exact hothers m text hm htext hfound
  have hpos : n ≠ 0 := by
    rintro rfl
    cases hline
  refine ⟨fun hform rule hnamed => ?_, fun rule m hm hnext => ?_, ?_⟩
  · have hdirected : rule.DirectedAt source n { keys, reason := some reason } :=
      ⟨_, hline, ofLine?_written hfront hkeys hkey hreason hbefore hafter hform, hnamed⟩
    refine ⟨Rule.allowance_eq_allowed_iff.mpr ⟨_, .beside (fun _ other => ?_) hdirected, rfl⟩,
      fun hblank => Rule.allowance_eq_allowed_iff.mpr ⟨_, .before ⟨_, hline, ?_⟩ hdirected, rfl⟩⟩
    · exact hnone rule (n - 1) other (by omega)
    · exact (isCommentLine_writtenLine hfront).mpr hblank
  · -- A directive for another line would be the one at `n`, which reaches only the next line.
    cases hallowance : allowance source m rule with
    | denied => rfl
    | allowed given =>
      obtain ⟨directive, hexcused, -⟩ := Rule.allowance_eq_allowed_iff.mp hallowance
      rcases hexcused.cases_line with hdirected | ⟨⟨text, htext, hcomment⟩, hdirected⟩
      · exact absurd hdirected (hnone rule m directive hm)
      · by_cases hbefore : m - 1 = n
        · rw [hbefore, hline] at htext
          obtain rfl := Option.some.inj htext
          exact absurd ((isCommentLine_writtenLine hfront).mp hcomment) (hnext (by omega))
        · exact absurd hdirected (hnone rule (m - 1) directive hbefore)
  · rintro rfl hslashes rule given hallowance
    obtain ⟨directive, hexcused, hgiven⟩ := Rule.allowance_eq_allowed_iff.mp hallowance
    rcases hexcused.cases_line with ⟨text, htext, hread, -⟩ | ⟨-, hdirected⟩
    · obtain rfl := Option.some.inj (hline.symm.trans htext)
      rw [reason_of_ofLine?_written hfront hkey hreason hbefore hafter hslashes hread] at hgiven
      cases hgiven
    · exact hnone rule (n - 1) directive (by omega) hdirected

/-- A line, `text`, that is the whole of `source`. -/
theorem lineAt?_of_lines {source text : List Char} (h : Text.lines source = [text]) (m : Nat) :
    lineAt? source m = if m = 1 then some text else none := by
  cases m with
  | zero => rfl
  | succ m => cases m <;> simp [lineAt?, h]

/-- A directive in block form, with the keys `SF001` and `other`. -/
def blockText : List Char := "  /* sift: allow(SF001, other) reason=\"block form\" */".toList

theorem allowance_written_blockText :
    Text.lines blockText =
        [writtenLine [' ', ' '] .block [' '] ["SF001", "other"] "block form" [' ']] ∧
      allowance blockText 1 DiscardedResult.default.rule = .allowed (some "block form") ∧
      allowance blockText 2 DiscardedResult.default.rule = .allowed (some "block form") ∧
      allowance blockText 3 DiscardedResult.default.rule = .denied := by
  have hlines : Text.lines blockText =
      [writtenLine [' ', ' '] .block [' '] ["SF001", "other"] "block form" [' ']] := by
    decide +kernel
  have hline := lineAt?_of_lines hlines
  obtain ⟨hallowed, hdenied, -⟩ := allowance_written (by decide) (by decide) (by decide +kernel)
    (by decide +kernel) (by decide) (by decide) (hline 1)
    fun m text hm htext => by rw [hline, if_neg hm] at htext; cases htext
  obtain ⟨hhere, hnext⟩ := hallowed (fun _ => by decide +kernel) DiscardedResult.default.rule
    ⟨"SF001", List.mem_cons_self, .inr (.inr (.inl rfl))⟩
  exact ⟨hlines, hhere, hnext (by decide), hdenied _ 3 (by decide) (by decide)⟩

/-- A directive in block form, with two slashes in its reason, those of `http://`. -/
def linkedText : List Char := "/* sift: allow(SF001) reason=\"see http://example.org\" */".toList

/-- In `linkedText` the two slashes are taken for the opener of the comment, and the directive is
not found. -/
theorem not_all_written_read :
    Text.lines linkedText =
        [writtenLine [] .block [' '] ["SF001"] "see http://example.org" [' ']] ∧
      IsKey "SF001" ∧ DiscardedResult.default.rule.NamedBy "SF001" ∧
      '"' ∉ "see http://example.org".toList ∧
      ¬ ['*', '/'] <:+: "see http://example.org".toList ∧
      allowance linkedText 1 DiscardedResult.default.rule = .denied :=
  ⟨by decide +kernel, by decide +kernel, .inr (.inr (.inl rfl)), by decide +kernel,
    by decide +kernel, by decide +kernel⟩

end TreeLint
