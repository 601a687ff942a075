import Mathlib.Data.List.DropRight
import TreeLint.Text.Search

/-!
# Where a search finds something

- `cutAt?_eq_none_iff`, `length_le_of_cutAt?`: a pattern is found where it stands first.
- `infix_append_cons_iff`: a pattern lies on one side of a character that it does not have.
- `splitOn_append`: the parts of two texts with a separator between them.
- `exists_trim`, `trim_pad`: trimming takes blanks from the ends, and no more.
- `dropEndCopies_append`: a copy at the end goes.
-/

namespace TreeLint.Text

variable {pattern cs front front' back back' text : List Char} {c : Char}

/-! ## Patterns -/

/-- A `pattern` lies on one side of a character `c` that it does not have. -/
theorem infix_append_cons_iff (hc : c ∉ pattern) :
    pattern <:+: front ++ c :: back ↔ pattern <:+: front ∨ pattern <:+: back := by
  constructor
  · rintro ⟨a, b, heq⟩
    rw [List.append_assoc] at heq
    rcases List.append_eq_append_iff.mp heq with ⟨x, hfront, hback⟩ | ⟨x, rfl, hback⟩
    · rcases List.append_eq_append_iff.mp hback with ⟨y, rfl, -⟩ | ⟨y, rfl, hcons⟩
      · exact .inl ⟨a, y, by rw [hfront, List.append_assoc]⟩
      · cases y with
        | nil => exact .inl ⟨a, [], by simp [hfront]⟩
        | cons d y =>
          cases hcons
          simp at hc
    · cases x with
      | nil =>
        cases pattern with
        | nil => exact .inl (List.nil_infix)
        | cons d pattern =>
          cases hback
          simp at hc
      | cons d x =>
        cases hback
        exact .inr ⟨x, b, by simp⟩
  · rintro (⟨a, b, rfl⟩ | ⟨a, b, rfl⟩)
    · exact ⟨a, b ++ c :: back, by simp⟩
    · exact ⟨front ++ c :: a, b, by simp⟩

/-- A character `c` stands in a row at most as often as in the whole of `cs`. -/
theorem not_infix_of_count {n : Nat} (h : cs.count c ≤ n) : ¬ List.replicate (n + 1) c <:+: cs := by
  intro hfound
  have hle := hfound.sublist.count_le c
  rw [List.count_replicate_self] at hle
  omega

theorem cutAt?_eq_none_iff : cutAt? pattern cs = none ↔ ¬ pattern <:+: cs := by
  induction cs with
  | nil =>
    rw [List.infix_nil, cutAt?]
    cases pattern <;> simp [List.isPrefixOf?]
  | cons d cs ih =>
    rw [List.infix_cons_iff, not_or, ← ih, cutAt?]
    cases hstart : pattern.isPrefixOf? (d :: cs) with
    | some rest =>
      have hfound : pattern <+: d :: cs := ⟨rest, List.isPrefixOf?_eq_some_iff_append_eq.mp hstart⟩
      simp [hfound]
    | none =>
      have hnone : ¬ pattern <+: d :: cs := by
        rintro ⟨rest, hrest⟩
        rw [List.isPrefixOf?_eq_some_iff_append_eq.mpr hrest] at hstart
        cases hstart
      simp [hnone]

/-- What is found, behind `front`, is the first occurrence. -/
theorem length_le_of_cutAt?
    (h : cutAt? pattern (front' ++ (pattern ++ back')) = some (front, back)) :
    front.length ≤ front'.length := by
  induction front' generalizing front with
  | nil =>
    have hself : pattern.isPrefixOf? (pattern ++ back') = some back' :=
      List.isPrefixOf?_eq_some_iff_append_eq.mpr rfl
    rw [List.nil_append] at h
    cases hcs : pattern ++ back' with
    | nil =>
      rw [hcs] at h hself
      simp only [cutAt?, hself] at h
      cases h
      exact Nat.le_refl 0
    | cons d cs =>
      rw [hcs] at h hself
      simp only [cutAt?, hself] at h
      cases h
      exact Nat.le_refl 0
  | cons d front' ih =>
    rw [List.cons_append, cutAt?] at h
    split at h
    · cases h
      exact Nat.zero_le _
    · obtain ⟨⟨f, b⟩, hcut, heq⟩ := Option.map_eq_some_iff.mp h
      cases heq
      exact Nat.succ_le_succ (ih hcut)

theorem not_mem_of_cutAt? (h : cutAt? [c] cs = some (front, back)) : c ∉ front := by
  intro hmem
  obtain ⟨before, after, hfront⟩ := List.append_of_mem hmem
  have hcs : cs = before ++ ([c] ++ (after ++ [c] ++ back)) := by
    rw [← append_of_cutAt? h, hfront]
    simp
  have hle := length_le_of_cutAt? (hcs ▸ h)
  rw [hfront, List.length_append, List.length_cons] at hle
  omega

/-- A pattern that begins with `c` is found behind a text `front` without `c`. -/
theorem cutAt?_append_of_not_mem (h : c ∉ front) :
    cutAt? (c :: pattern) (front ++ (c :: pattern ++ back)) = some (front, back) := by
  induction front with
  | nil =>
    have hself : (c :: pattern).isPrefixOf? (c :: (pattern ++ back)) = some back :=
      List.isPrefixOf?_eq_some_iff_append_eq.mpr rfl
    simp only [List.nil_append, List.cons_append, cutAt?, hself]
  | cons d front ih =>
    obtain ⟨hne, hfront⟩ := not_or.mp (mt List.mem_cons.mpr h)
    have hnone : (c :: pattern).isPrefixOf? (d :: (front ++ (c :: pattern ++ back))) = none := by
      simp [List.isPrefixOf?, hne]
    rw [List.cons_append, cutAt?, hnone, ih hfront]
    rfl

theorem cutAt?_of_not_mem (h : c ∉ cs) : cutAt? (c :: pattern) cs = none :=
  cutAt?_eq_none_iff.mpr fun hfound => h (hfound.subset List.mem_cons_self)

/-- In `front` of a character `c` that `pattern` does not have, nothing is found if `pattern` does
not stand there. -/
theorem cutAt?_append_cons (hc : c ∉ pattern) (h : ¬ pattern <:+: front) (cs : List Char) :
    cutAt? pattern (front ++ c :: cs) =
      (cutAt? pattern cs).map fun (before, after) => (front ++ c :: before, after) := by
  have hnone : ∀ text : List Char, ¬ pattern <:+: text →
      pattern.isPrefixOf? (text ++ c :: cs) = none := fun text htext => by
    rw [Option.eq_none_iff_forall_ne_some]
    intro rest hrest
    rcases List.append_eq_append_iff.mp (append_of_isPrefixOf? hrest) with
      ⟨x, rfl, -⟩ | ⟨x, rfl, hx⟩
    · exact htext ⟨[], x, by simp⟩
    · cases x with
      | nil => exact htext (by simp)
      | cons d x =>
        cases hx
        simp at hc
  induction front with
  | nil =>
    have hfirst : pattern.isPrefixOf? (c :: cs) = none := hnone [] h
    simp only [List.nil_append, cutAt?, hfirst]
  | cons d front ih =>
    have hfirst : pattern.isPrefixOf? (d :: (front ++ c :: cs)) = none := hnone (d :: front) h
    have hrest : ¬ pattern <:+: front := fun hfound =>
      h (hfound.trans (List.suffix_cons d front).isInfix)
    rw [List.cons_append, cutAt?, hfirst, ih hrest]
    cases cutAt? pattern cs <;> rfl

/-! ## Parts -/

section

variable {sep : Char}

theorem splitOn_ne_nil (sep : Char) (cs : List Char) : splitOn sep cs ≠ [] := by
  cases cs with
  | nil => simp [splitOn]
  | cons c cs =>
    cases hparts : splitOn sep cs with
    | nil => simp [splitOn, hparts]
    | cons part parts => by_cases hc : c = sep <;> simp [splitOn, hparts, hc]

theorem splitOn_cons_sep (sep : Char) (cs : List Char) :
    splitOn sep (sep :: cs) = [] :: splitOn sep cs := by
  cases hparts : splitOn sep cs with
  | nil => exact absurd hparts (splitOn_ne_nil sep cs)
  | cons part parts => simp [splitOn, hparts]

theorem splitOn_append (sep : Char) (front back : List Char) :
    splitOn sep (front ++ sep :: back) = splitOn sep front ++ splitOn sep back := by
  induction front with
  | nil => exact splitOn_cons_sep sep back
  | cons c front ih =>
    simp only [List.cons_append, splitOn, ih]
    cases hfront : splitOn sep front with
    | nil => exact absurd hfront (splitOn_ne_nil sep front)
    | cons part parts =>
      by_cases hc : c = sep <;> simp [hc]

theorem splitOn_of_not_mem (h : sep ∉ cs) : splitOn sep cs = [cs] := by
  induction cs with
  | nil => rfl
  | cons c cs ih =>
    rw [List.mem_cons, not_or] at h
    simp [splitOn, ih h.2, Ne.symm h.1]

/-- A text `front` without a separator joins the first `part`. -/
theorem splitOn_append_of_not_mem {part : List Char} {parts : List (List Char)} (h : sep ∉ front)
    (hback : splitOn sep back = part :: parts) :
    splitOn sep (front ++ back) = (front ++ part) :: parts := by
  induction front with
  | nil => exact hback
  | cons c front ih =>
    obtain ⟨hne, hfront⟩ := not_or.mp (mt List.mem_cons.mpr h)
    rw [List.cons_append, splitOn, ih hfront]
    simp [Ne.symm hne]

end

/-! ## Blanks -/

/-- The text `cs` has only blanks. -/
def Blank (cs : List Char) : Prop := ∀ c ∈ cs, isBlank c = true

-- Named, since a search can find the instance that goes through all characters.
instance (cs : List Char) : Decidable (Blank cs) := List.decidableBAll _ cs

theorem Blank.append (h : Blank front) (h' : Blank back) : Blank (front ++ back) :=
  List.forall_mem_append.mpr ⟨h, h'⟩

theorem Blank.not_mem (h : Blank cs) (hc : isBlank c = false) : c ∉ cs :=
  fun hmem => Bool.false_ne_true (hc.symm.trans (h c hmem))

/-- The text `cs` neither begins nor ends with a blank. -/
structure Tight (cs : List Char) : Prop where
  head : ∀ c ∈ cs.head?, isBlank c = false
  last : ∀ c ∈ cs.getLast?, isBlank c = false

theorem tight_of_head_last (first last : Char) (hfirst : isBlank first = false)
    (hlast : isBlank last = false) (hhead : cs.head? = some first)
    (hend : cs.getLast? = some last) : Tight cs where
  head _ hc := Option.some.inj (hhead.symm.trans hc) ▸ hfirst
  last _ hc := Option.some.inj (hend.symm.trans hc) ▸ hlast

theorem exists_trim (cs : List Char) :
    ∃ before after, Blank before ∧ Blank after ∧ cs = before ++ trim cs ++ after := by
  have hback : trimFront cs =
      trim cs ++ ((trimFront cs).reverse.takeWhile isBlank).reverse := by
    rw [trim, dropEndWhile, ← List.reverse_append, List.takeWhile_append_dropWhile,
      List.reverse_reverse]
  refine ⟨cs.takeWhile isBlank, ((trimFront cs).reverse.takeWhile isBlank).reverse,
    fun c hc => List.mem_takeWhile_imp hc,
    fun c hc => List.mem_takeWhile_imp (List.mem_reverse.mp hc), ?_⟩
  rw [List.append_assoc, ← hback, trimFront, List.takeWhile_append_dropWhile]

theorem isInfix_trim (cs : List Char) : trim cs <:+: cs := by
  obtain ⟨before, after, -, -, heq⟩ := exists_trim cs
  exact ⟨before, after, heq.symm⟩

theorem trim_blank_append {before : List Char} (h : Blank before) (cs : List Char) :
    trim (before ++ cs) = trim cs := by
  rw [trim, trimFront, List.dropWhile_append_of_pos h, ← trimFront, ← trim]

theorem trim_pad {before after : List Char} (hbefore : Blank before) (hafter : Blank after)
    (h : Tight text) : trim (before ++ text ++ after) = text := by
  rw [List.append_assoc, trim_blank_append hbefore]
  cases text with
  | nil =>
    have hnone : trimFront after = [] := List.dropWhile_eq_nil_iff.mpr hafter
    rw [trim, List.nil_append, hnone]
    rfl
  | cons c text =>
    have hkept : trimFront (c :: text ++ after) = c :: text ++ after :=
      List.dropWhile_cons_of_neg (by simp [h.head c rfl])
    have hdropped : ((c :: text ++ after).reverse).dropWhile isBlank = (c :: text).reverse := by
      rw [List.reverse_append, List.dropWhile_append_of_pos fun d hd =>
        hafter d (List.mem_reverse.mp hd)]
      cases hlast : (c :: text).reverse with
      | nil => rfl
      | cons d rest =>
        have hblank : isBlank d = false := h.last d (by rw [← List.head?_reverse, hlast]; rfl)
        exact List.dropWhile_cons_of_neg (by simp [hblank])
    rw [trim, hkept, dropEndWhile, hdropped, List.reverse_reverse]

theorem trim_of_tight (h : Tight text) : trim text = text := by
  have hpad : trim ([] ++ text ++ []) = text := trim_pad nofun nofun h
  rwa [List.nil_append, List.append_nil] at hpad

/-! ## Copies at the end -/

theorem isSuffix_dropFrontCopies (pattern cs : List Char) (bound : Nat) :
    dropEndCopies.dropFrontCopies pattern cs bound <:+ cs := by
  induction bound generalizing cs with
  | zero => exact List.suffix_rfl
  | succ bound ih =>
    rw [dropEndCopies.dropFrontCopies]
    split
    · rename_i rest hrest
      exact (ih rest).trans ⟨pattern, append_of_isPrefixOf? hrest⟩
    · exact List.suffix_rfl

theorem isPrefix_dropEndCopies (pattern cs : List Char) : dropEndCopies pattern cs <+: cs := by
  have h := List.reverse_prefix.mpr (isSuffix_dropFrontCopies pattern.reverse cs.reverse cs.length)
  rwa [List.reverse_reverse] at h

theorem dropFrontCopies_eq_self (h : ¬ pattern <+: cs) (bound : Nat) :
    dropEndCopies.dropFrontCopies pattern cs bound = cs := by
  cases bound with
  | zero => rfl
  | succ bound =>
    have hnone : pattern.isPrefixOf? cs = none := by
      rw [Option.eq_none_iff_forall_ne_some]
      exact fun rest hrest => h ⟨rest, append_of_isPrefixOf? hrest⟩
    rw [dropEndCopies.dropFrontCopies, hnone]

theorem dropEndCopies_of_not_suffix (h : ¬ pattern <:+ cs) : dropEndCopies pattern cs = cs := by
  rw [dropEndCopies, dropFrontCopies_eq_self (by rwa [List.reverse_prefix]),
    List.reverse_reverse]

theorem dropEndCopies_append (hpattern : pattern ≠ []) (h : ¬ pattern <:+ cs) :
    dropEndCopies pattern (cs ++ pattern) = cs := by
  obtain ⟨bound, hbound⟩ : ∃ bound, (cs ++ pattern).length = bound + 1 :=
    Nat.exists_eq_succ_of_ne_zero (by simp [hpattern])
  have hself : pattern.reverse.isPrefixOf? (pattern.reverse ++ cs.reverse) = some cs.reverse :=
    List.isPrefixOf?_eq_some_iff_append_eq.mpr rfl
  rw [dropEndCopies, hbound, List.reverse_append, dropEndCopies.dropFrontCopies, hself]
  simp only
  rw [dropFrontCopies_eq_self (by rwa [List.reverse_prefix]), List.reverse_reverse]

end TreeLint.Text
