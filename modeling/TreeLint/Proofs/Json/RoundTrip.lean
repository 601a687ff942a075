import TreeLint.Json.Reader
import TreeLint.Proofs.Json.Tokens

/-!
# Reading back what was printed

A value is read back from its text, printed on one line or on many. The text is cut into the tokens
of the value, and the reader makes the value of them, whatever stands around it.

- `Json.tokens`: the tokens of a value. `Json.Plain`: values of which every part has a printed form.
- `Layout.Spaced`: a layout that adds nothing but blanks.
- `ofText?_print`: printing and cutting, in any such layout. `foldlM_tokens`: reading.
- `parse?_print`: both together; `parse?_compact` and `parse?_pretty` are the two layouts in use.
-/

namespace TreeLint

namespace Json

mutual

/-- The tokens of a value: brackets and marks around the `tokens` of its parts. -/
def tokens : Json → List JsonToken
  | null => [.scalar null]
  | bool b => [.scalar (bool b)]
  | number n => [.scalar (number n)]
  | string s => [.scalar (string s)]
  | array [] => [.openArray, .closeArray]
  | array (v :: rest) => .openArray :: tokens v ++ moreItems rest
  | object [] => [.openObject, .closeObject]
  | object ((k, v) :: rest) =>
    .openObject :: .scalar (string k) :: .colon :: tokens v ++ moreMembers rest

/-- The tokens behind an item of an array: those of the items in `rest`, and the bracket. -/
def moreItems : List Json → List JsonToken
  | [] => [.closeArray]
  | v :: rest => .comma :: tokens v ++ moreItems rest

/-- The tokens behind a member of an object: those of the members in `rest`, and the brace. -/
def moreMembers : List (Option String × Json) → List JsonToken
  | [] => [.closeObject]
  | (k, v) :: rest => .comma :: .scalar (string k) :: .colon :: tokens v ++ moreMembers rest

end

mutual

/-- Strings and keys name characters throughout (`isSome`), and numbers are natural. -/
def Plain : Json → Prop
  | null => True
  | bool _ => True
  | number n => n = { whole := n.whole }
  | string s => s.isSome = true
  | array items => PlainItems items
  | object members => PlainMembers members

/-- `Plain` for every item of an array. -/
def PlainItems : List Json → Prop
  | [] => True
  | v :: rest => Plain v ∧ PlainItems rest

/-- `Plain` for every member of an object. -/
def PlainMembers : List (Option String × Json) → Prop
  | [] => True
  | (k, v) :: rest => k.isSome = true ∧ Plain v ∧ PlainMembers rest

end

theorem plainItems_iff {items : List Json} : PlainItems items ↔ ∀ v ∈ items, v.Plain := by
  induction items with
  | nil => simp [PlainItems]
  | cons v items ih => simp [PlainItems, ih]

theorem plain_ofMembers {members : List (String × Json)} (h : ∀ m ∈ members, m.2.Plain) :
    (ofMembers members).Plain := by
  rw [ofMembers, Plain]
  induction members with
  | nil => trivial
  | cons m members ih =>
    obtain ⟨hm, hmembers⟩ := List.forall_mem_cons.mp h
    exact ⟨rfl, hm, ih hmembers⟩

/-! ## Layouts -/

open JsonToken (ofText? first? Ends isBlank)

namespace Layout

/-- The `layout` puts nothing but blanks around the marks of a container. -/
structure Spaced (layout : Layout) : Prop where
  opening : ∀ c ∈ layout.opening, isBlank c = true
  between : ∃ blanks, layout.between = ',' :: blanks ∧ ∀ c ∈ blanks, isBlank c = true
  closing : ∀ c ∈ layout.closing, isBlank c = true
  colon : ∃ blanks, layout.colon = ':' :: blanks ∧ ∀ c ∈ blanks, isBlank c = true

theorem spaced_compact : Spaced .compact where
  opening := by simp [compact]
  between := ⟨[], rfl, by simp⟩
  closing := by simp [compact]
  colon := ⟨[], rfl, by simp⟩

theorem spaced_pretty (level : Nat) : Spaced (.pretty level) := by
  have hline : ∀ depth, ∀ c ∈ '\n' :: List.replicate (2 * depth) ' ', isBlank c = true := by
    intro depth
    rw [List.forall_mem_cons]
    refine ⟨by decide, fun c hc => ?_⟩
    rw [List.eq_of_mem_replicate hc]
    decide
  exact ⟨hline _, ⟨_, rfl, hline _⟩, hline _, ⟨[' '], rfl, List.forall_mem_singleton.mpr rfl⟩⟩

/-- The text behind the first part of a container: the other `parts`, the closing bracket `right`,
and the `rest` that follows it. -/
def behind (layout : Layout) (right : Char) (parts : List (List Char)) (rest : List Char) :
    List Char :=
  parts.flatMap (layout.between ++ ·) ++ (layout.closing ++ right :: rest)

theorem intercalate_between (layout : Layout) (part : List Char) (parts : List (List Char)) :
    layout.between.intercalate (part :: parts) =
      part ++ parts.flatMap (layout.between ++ ·) := by
  induction parts generalizing part with
  | nil => simp
  | cons next parts ih => rw [List.intercalate_cons_cons, ih]; simp

theorem enclose_cons (layout : Layout) (left right : Char) (part : List Char)
    (parts : List (List Char)) (rest : List Char) :
    enclose layout left right (part :: parts) ++ rest =
      left :: (layout.opening ++ (part ++ layout.behind right parts rest)) := by
  simp [enclose, behind, intercalate_between]

theorem behind_cons (layout : Layout) (right : Char) (part : List Char)
    (parts : List (List Char)) (rest : List Char) :
    layout.behind right (part :: parts) rest =
      layout.between ++ (part ++ layout.behind right parts rest) := by
  simp [behind]

/-- A part of a container `Ends` where the next one begins or the container is closed. -/
theorem Spaced.ends_behind {layout : Layout} (hspaced : layout.Spaced) {right : Char}
    (hright : right = ']' ∨ right = '\x7d') (parts : List (List Char)) (rest : List Char) :
    Ends (layout.behind right parts rest) := by
  obtain ⟨blanks, hbetween, -⟩ := hspaced.between
  unfold behind
  cases parts with
  | cons part parts => simp [hbetween, Ends]
  | nil =>
    cases hclosing : layout.closing with
    | nil => rcases hright with rfl | rfl <;> simp [Ends]
    | cons c closing =>
      exact JsonToken.ends_of_isBlank (hspaced.closing c (hclosing ▸ List.mem_cons_self)) _

end Layout

/-! ## Cutting -/

/-- A token `t` of one character `c`, in front of the text `cs`. -/
theorem ofText?_mark {c : Char} {t : JsonToken} {cs : List Char}
    (h : (c, t) ∈ [('[', .openArray), (']', .closeArray), ('\x7b', .openObject),
      ('\x7d', .closeObject), (',', .comma), (':', JsonToken.colon)]) :
    ofText? (c :: cs) = (ofText? cs).map (t :: ·) := by
  simp only [List.mem_cons, Prod.mk.injEq, List.not_mem_nil, or_false] at h
  rcases h with ⟨rfl, rfl⟩ | ⟨rfl, rfl⟩ | ⟨rfl, rfl⟩ | ⟨rfl, rfl⟩ | ⟨rfl, rfl⟩ | ⟨rfl, rfl⟩ <;>
    exact JsonToken.ofText?_of_first? (by decide) rfl

section

variable {layout : Layout} (hspaced : layout.Spaced) (rest : List Char)

include hspaced

theorem ofText?_opening : ofText? (layout.opening ++ rest) = ofText? rest :=
  JsonToken.ofText?_blanks hspaced.opening rest

theorem ofText?_between :
    ofText? (layout.between ++ rest) = (ofText? rest).map (.comma :: ·) := by
  obtain ⟨blanks, hbetween, hblanks⟩ := hspaced.between
  rw [hbetween, List.cons_append, ofText?_mark (t := .comma) (by simp),
    JsonToken.ofText?_blanks hblanks]

theorem ofText?_colon : ofText? (layout.colon ++ rest) = (ofText? rest).map (.colon :: ·) := by
  obtain ⟨blanks, hcolon, hblanks⟩ := hspaced.colon
  rw [hcolon, List.cons_append, ofText?_mark (t := .colon) (by simp),
    JsonToken.ofText?_blanks hblanks]

/-- Behind the last part, the closing bracket `right` comes next. -/
theorem ofText?_behind_nil (right : Char) :
    ofText? (layout.behind right [] rest) = ofText? (right :: rest) := by
  rw [Layout.behind, List.flatMap_nil, List.nil_append]
  exact JsonToken.ofText?_blanks hspaced.closing _

end

theorem ofText?_quote (s : String) (rest : List Char) :
    ofText? (quote s ++ rest) = (ofText? rest).map (.scalar (string (some s)) :: ·) :=
  JsonToken.ofText?_of_first? (by decide) (JsonToken.first?_quote s rest)

theorem ofText?_digits (n : Nat) {rest : List Char} (h : Ends rest) :
    ofText? (Nat.toDigits 10 n ++ rest) = (ofText? rest).map (.scalar (ofNat n) :: ·) := by
  have hread := JsonToken.first?_toDigits n h
  cases hdigits : Nat.toDigits 10 n with
  | nil => exact (Nat.toDigits_ne_nil hdigits).elim
  | cons c cs =>
    rw [hdigits, List.cons_append] at hread
    have hc : c.isDigit = true := Nat.isDigit_of_mem_toDigits (b := 10) (n := n) (by decide)
      (by decide) (hdigits ▸ List.mem_cons_self)
    refine JsonToken.ofText?_of_first? ?_ hread
    refine Bool.eq_false_iff.mpr fun hblank => ?_
    simp only [JsonToken.isBlank, Bool.or_eq_true, beq_iff_eq] at hblank
    rcases hblank with ((rfl | rfl) | rfl) | rfl <;> revert hc <;> decide

section

variable {layout : Nat → Layout} (hspaced : ∀ level, (layout level).Spaced)

include hspaced

mutual

/-- The text of the value `v` is cut into `v.tokens`. -/
theorem ofText?_print (v : Json) (hv : v.Plain) (level : Nat) {rest : List Char} (h : Ends rest) :
    ofText? (print layout level v ++ rest) = (ofText? rest).map (v.tokens ++ ·) := by
  cases v with
  | null => exact JsonToken.ofText?_of_first? (by decide) rfl
  | bool b => cases b <;> exact JsonToken.ofText?_of_first? (by decide) rfl
  | number n =>
    rw [Plain] at hv
    rw [hv, print, tokens]
    simpa [printNumber, ofNat] using ofText?_digits n.whole h
  | string s =>
    obtain ⟨s, rfl⟩ := Option.isSome_iff_exists.mp hv
    exact ofText?_quote s rest
  | array items =>
    cases items with
    | nil =>
      rw [print, printItems, tokens, enclose]
      simp [ofText?_mark, Function.comp_def]
    | cons v items =>
      obtain ⟨hv, hitems⟩ : v.Plain ∧ PlainItems items := hv
      have hends := (hspaced level).ends_behind (.inl rfl)
      rw [print, printItems, Layout.enclose_cons, tokens]
      simp [ofText?_mark, ofText?_opening (hspaced level), ofText?_print v hv _ (hends _ _),
        ofText?_items items hitems, Function.comp_def]
  | object members =>
    cases members with
    | nil =>
      rw [print, printMembers, tokens, enclose]
      simp [ofText?_mark, Function.comp_def]
    | cons member members =>
      obtain ⟨k, v⟩ := member
      obtain ⟨hk, hv, hmembers⟩ : k.isSome = true ∧ v.Plain ∧ PlainMembers members := hv
      obtain ⟨k, rfl⟩ := Option.isSome_iff_exists.mp hk
      have hends := (hspaced level).ends_behind (.inr rfl)
      rw [print, printMembers, Layout.enclose_cons, tokens]
      simp [ofText?_mark, ofText?_opening (hspaced level), ofText?_colon (hspaced level),
        ofText?_quote, ofText?_print v hv _ (hends _ _), ofText?_members members hmembers,
        Function.comp_def]

/-- The text behind an item is cut into the tokens `moreItems` behind it. -/
theorem ofText?_items (items : List Json) (hitems : PlainItems items) (around level : Nat)
    (rest : List Char) :
    ofText? ((layout around).behind ']' (printItems layout level items) rest) =
      (ofText? rest).map (moreItems items ++ ·) := by
  cases items with
  | nil =>
    rw [printItems, ofText?_behind_nil (hspaced around)]
    simp [moreItems, ofText?_mark]
  | cons v items =>
    have hends := (hspaced around).ends_behind (.inl rfl)
    rw [printItems, moreItems, Layout.behind_cons, ofText?_between (hspaced around),
      ofText?_print v hitems.1 _ (hends _ _), ofText?_items items hitems.2]
    simp [Function.comp_def]

/-- The text behind a member is cut into the tokens `moreMembers` behind it. -/
theorem ofText?_members (members : List (Option String × Json)) (hmembers : PlainMembers members)
    (around level : Nat) (rest : List Char) :
    ofText? ((layout around).behind '\x7d' (printMembers layout level members) rest) =
      (ofText? rest).map (moreMembers members ++ ·) := by
  cases members with
  | nil =>
    rw [printMembers, ofText?_behind_nil (hspaced around)]
    simp [moreMembers, ofText?_mark]
  | cons member members =>
    obtain ⟨k, v⟩ := member
    obtain ⟨hk, hv, hmembers⟩ := hmembers
    obtain ⟨k, rfl⟩ := Option.isSome_iff_exists.mp hk
    have hends := (hspaced around).ends_behind (.inr rfl)
    rw [printMembers, moreMembers, Layout.behind_cons, ofText?_between (hspaced around)]
    simp [ofText?_quote, ofText?_colon (hspaced _), ofText?_print v hv _ (hends _ _),
      ofText?_members members hmembers, Function.comp_def]

end

end

/-! ## Reading -/

/-- The tokens of `v` begin with one that begins a value, so not with a closing bracket. -/
theorem exists_tokens_eq (v : Json) : ∃ t ts, v.tokens = t :: ts ∧ t ≠ .closeArray := by
  cases v with
  | array items => cases items <;> exact ⟨_, _, rfl, by simp⟩
  | object members =>
    cases members with
    | nil => exact ⟨_, _, rfl, by simp⟩
    | cons member members => exact ⟨_, _, rfl, by simp⟩
  | _ => exact ⟨_, _, rfl, by simp⟩

/-- The first item `v` of an array is read as any other value is. -/
theorem foldlM_firstItem (v : Json) (stack : List Frame) (rest : List JsonToken) :
    (v.tokens ++ rest).foldlM Reading.step (.firstItem stack) =
      (v.tokens ++ rest).foldlM Reading.step (.value (.array [] :: stack)) := by
  obtain ⟨t, ts, ht, hne⟩ := v.exists_tokens_eq
  rw [ht, List.cons_append, List.foldlM_cons, List.foldlM_cons]
  congr 1
  cases t with
  | closeArray => exact (hne rfl).elim
  | _ => rfl

mutual

/-- Wherever a value is expected, `v.tokens` are read as `v`. -/
theorem foldlM_tokens (v : Json) (stack : List Frame) (rest : List JsonToken) :
    (v.tokens ++ rest).foldlM Reading.step (.value stack) =
      rest.foldlM Reading.step (.behind v stack) := by
  cases v with
  | array items =>
    cases items with
    | nil => rfl
    | cons v items =>
      rw [tokens]
      change (v.tokens ++ moreItems items ++ rest).foldlM Reading.step (.firstItem stack) = _
      rw [List.append_assoc, foldlM_firstItem, foldlM_tokens v, foldlM_items items]
      rfl
  | object members =>
    cases members with
    | nil => rfl
    | cons member members =>
      obtain ⟨k, v⟩ := member
      rw [tokens]
      change (v.tokens ++ moreMembers members ++ rest).foldlM Reading.step
        (.value (.object [] k :: stack)) = _
      rw [List.append_assoc, foldlM_tokens v, foldlM_members members]
      rfl
  | _ => rfl

/-- The tokens `moreItems` behind the item `v` end the array. -/
theorem foldlM_items (items : List Json) (v : Json) (before : List Json) (stack : List Frame)
    (rest : List JsonToken) :
    (moreItems items ++ rest).foldlM Reading.step (.behind v (.array before :: stack)) =
      rest.foldlM Reading.step (.behind (.array (before.reverse ++ v :: items)) stack) := by
  cases items with
  | nil =>
    change rest.foldlM Reading.step (.behind (.array (v :: before).reverse) stack) = _
    rw [List.reverse_cons]
  | cons w items =>
    rw [moreItems]
    change (w.tokens ++ moreItems items ++ rest).foldlM Reading.step
      (.value (.array (v :: before) :: stack)) = _
    rw [List.append_assoc, foldlM_tokens w, foldlM_items items, List.reverse_cons,
      List.append_assoc]
    rfl

/-- The tokens `moreMembers` behind the member `v` end the object. -/
theorem foldlM_members (members : List (Option String × Json)) (k : Option String) (v : Json)
    (before : List (Option String × Json)) (stack : List Frame) (rest : List JsonToken) :
    (moreMembers members ++ rest).foldlM Reading.step (.behind v (.object before k :: stack)) =
      rest.foldlM Reading.step (.behind (.object (before.reverse ++ (k, v) :: members)) stack) := by
  cases members with
  | nil =>
    change rest.foldlM Reading.step (.behind (.object ((k, v) :: before).reverse) stack) = _
    rw [List.reverse_cons]
  | cons member members =>
    obtain ⟨k', w⟩ := member
    rw [moreMembers]
    change (w.tokens ++ moreMembers members ++ rest).foldlM Reading.step
      (.value (.object ((k, v) :: before) k' :: stack)) = _
    rw [List.append_assoc, foldlM_tokens w, foldlM_members members, List.reverse_cons,
      List.append_assoc]
    rfl

end

/-- A `Plain` value `v` is read back from its text in any `layout` of blanks, with `blanks` behind
it or without. -/
theorem parse?_print {layout : Nat → Layout} (hspaced : ∀ level, (layout level).Spaced) {v : Json}
    (hv : v.Plain) (blanks : List Char) (hblanks : ∀ c ∈ blanks, isBlank c = true) :
    parse? (.ofList (print layout 0 v ++ blanks)) = some v := by
  have hends : Ends blanks := by
    cases blanks with
    | nil => simp [Ends]
    | cons c blanks => exact JsonToken.ends_of_isBlank (hblanks c List.mem_cons_self) blanks
  have hnil : ofText? blanks = some [] := by
    have hempty := JsonToken.ofText?_blanks hblanks []
    rwa [List.append_nil, ofText?] at hempty
  have hread := foldlM_tokens v [] []
  rw [List.append_nil] at hread
  rw [parse?, String.toList_ofList, ofText?_print hspaced v hv 0 hends, hnil]
  change ofTokens? (v.tokens ++ []) = some v
  rw [List.append_nil, ofTokens?, hread]
  rfl

theorem parse?_compact {v : Json} (hv : v.Plain) : parse? v.compact = some v := by
  have hread := parse?_print (fun _ => Layout.spaced_compact) hv [] (by simp)
  rwa [List.append_nil] at hread

/-- A `Plain` value `v` is read back from its text on many lines, which may end with a line
break. -/
theorem parse?_pretty {v : Json} (hv : v.Plain) : parse? (v.pretty ++ "\n") = some v := by
  have hread := parse?_print Layout.spaced_pretty hv ['\n'] (List.forall_mem_singleton.mpr rfl)
  rwa [String.ofList_append] at hread

end Json

end TreeLint
