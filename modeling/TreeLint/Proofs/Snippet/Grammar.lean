import TreeLint.Snippet.Parser

/-!
# The grammar of expressions

`Expr.parse` and the readers below it go over tokens from left to right. `Reads` says without that
order which tokens an expression is made of, and the two agree.

- `Reads`: the tokens of an expression, of a chain of members, and of the arguments of a call.
- `reads_of_parse`: what was read is an expression by the grammar, made of the tokens that were
  taken.
- `parse_of_reads`: tokens that make an expression are read as it, unless what follows goes on.
-/

namespace TreeLint.Snippet

/-- The kind of the literal that the token `t` is. -/
def literalKind? (t : SnippetToken) : Option LiteralKind :=
  match t.kind with
  | .string => some .string
  | .number => some .number
  | .name =>
    if t.text = "true" ∨ t.text = "false" then some .boolean
    else if t.text = "null" then some .null
    else none
  | .mark _ => none

/-- What a part of an expression is read as: `expr` is a whole one. -/
inductive Phrase where
  | expr (e : Expr)
  /-- A primary expression with the members selected from it. -/
  | chain (e : Expr)
  /-- The arguments of a call in their brackets. -/
  | arguments (es : List Expr) (stop : Nat)
  /-- The arguments of a call behind the first, up to the closing bracket. -/
  | moreArguments (es : List Expr) (stop : Nat)

/-- The tokens that a `Phrase` is made of. -/
inductive Reads : Phrase → List SnippetToken → Prop
  | literal {t : SnippetToken} {kind : LiteralKind} (h : literalKind? t = some kind) :
      Reads (.chain (.literal kind t.span)) [t]
  | self {t : SnippetToken} (h : t.isKeyword "this" = true) : Reads (.chain (.self t.span)) [t]
  | name {t : SnippetToken} (h : t.isName = true) (hfree : t.text ∉ expressionKeywords) :
      Reads (.chain (.name t.text t.span)) [t]
  | paren {inner : Expr} {opening closing : SnippetToken} {ts : List SnippetToken}
      (ho : opening.isMark '(' = true) (h : Reads (.expr inner) ts)
      (hc : closing.isMark ')' = true) :
      Reads (.chain (.paren inner ⟨opening.span.start, closing.span.stop⟩))
        (opening :: ts ++ [closing])
  | create {word type : SnippetToken} {es : List Expr} {stop : Nat} {ts : List SnippetToken}
      (hw : word.isKeyword "new" = true) (ht : type.isName = true)
      (h : Reads (.arguments es stop) ts) :
      Reads (.chain (.create type.text es ⟨word.span.start, stop⟩)) (word :: type :: ts)
  | callOwn {t : SnippetToken} {es : List Expr} {stop : Nat} {ts : List SnippetToken}
      (ht : t.isName = true) (hfree : t.text ∉ expressionKeywords)
      (h : Reads (.arguments es stop) ts) :
      Reads (.chain (.callOwn t.text t.span es stop)) (t :: ts)
  | select {receiver : Expr} {dot member : SnippetToken} {ts : List SnippetToken}
      (h : Reads (.chain receiver) ts) (hd : dot.isMark '.' = true)
      (hm : member.isName = true) :
      Reads (.chain (.select receiver member.text member.span.stop)) (ts ++ [dot, member])
  | callOn {receiver : Expr} {dot member : SnippetToken} {es : List Expr} {stop : Nat}
      {ts us : List SnippetToken} (h : Reads (.chain receiver) ts) (hd : dot.isMark '.' = true)
      (hm : member.isName = true) (hargs : Reads (.arguments es stop) us) :
      Reads (.chain (.callOn receiver member.text member.span.stop es stop))
        (ts ++ dot :: member :: us)
  | plain {e : Expr} {ts : List SnippetToken} (h : Reads (.chain e) ts) : Reads (.expr e) ts
  | assign {target value : Expr} {equals : SnippetToken} {ts us : List SnippetToken}
      (h : Reads (.chain target) ts) (he : equals.isMark '=' = true)
      (hvalue : Reads (.expr value) us) :
      Reads (.expr (.assign target value)) (ts ++ equals :: us)
  | noArguments {opening closing : SnippetToken} (ho : opening.isMark '(' = true)
      (hc : closing.isMark ')' = true) :
      Reads (.arguments [] closing.span.stop) [opening, closing]
  | someArguments {opening : SnippetToken} {e : Expr} {es : List Expr} {stop : Nat}
      {ts us : List SnippetToken} (ho : opening.isMark '(' = true) (h : Reads (.expr e) ts)
      (hmore : Reads (.moreArguments es stop) us) :
      Reads (.arguments (e :: es) stop) (opening :: ts ++ us)
  | noMore {closing : SnippetToken} (hc : closing.isMark ')' = true) :
      Reads (.moreArguments [] closing.span.stop) [closing]
  | more {comma : SnippetToken} {e : Expr} {es : List Expr} {stop : Nat}
      {ts us : List SnippetToken} (hc : comma.isMark ',' = true) (h : Reads (.expr e) ts)
      (hmore : Reads (.moreArguments es stop) us) :
      Reads (.moreArguments (e :: es) stop) (comma :: ts ++ us)

/-! ## Results of readers -/

section

variable {α β : Type} {tokens rest : List SnippetToken}

theorem exists_of_bind_eq_ok {x : Except SnippetError α} {f : α → Except SnippetError β} {b : β}
    (h : x >>= f = .ok b) : ∃ a, x = .ok a ∧ f a = .ok b := by
  cases x with
  | error e => cases h
  | ok a => exact ⟨a, rfl, h⟩

/-- A reader has read `value` and left `rest`. -/
def Gives (result : Except SnippetError (Parsed tokens α)) (value : α)
    (rest : List SnippetToken) : Prop :=
  ∃ h, result = .ok ⟨value, rest, h⟩

/-- A reader has read `value`, perhaps from nothing, and left `rest`. -/
def Goes (result : Except SnippetError (Continued tokens α)) (value : α)
    (rest : List SnippetToken) : Prop :=
  ∃ h, result = .ok ⟨value, rest, h⟩

theorem mark_cons {c : Char} {t : SnippetToken} (h : t.isMark c = true) :
    Gives (mark c (t :: rest)) t rest := ⟨_, by rw [mark, if_pos h]⟩

theorem name_cons {t : SnippetToken} (h : t.isName = true) : Gives (name (t :: rest)) t rest :=
  ⟨_, by rw [name, if_pos h]⟩

theorem eq_cons_of_mark {c : Char} {p : Parsed tokens SnippetToken} (h : mark c tokens = .ok p) :
    tokens = p.value :: p.rest ∧ p.value.isMark c = true := by
  cases tokens with
  | nil => cases h
  | cons t rest =>
    rw [mark] at h
    split at h
    · rename_i ht
      cases h
      exact ⟨rfl, ht⟩
    · cases h

theorem eq_cons_of_name {p : Parsed tokens SnippetToken} (h : name tokens = .ok p) :
    tokens = p.value :: p.rest ∧ p.value.isName = true := by
  cases tokens with
  | nil => cases h
  | cons t rest =>
    rw [name] at h
    split at h
    · rename_i ht
      cases h
      exact ⟨rfl, ht⟩
    · cases h

theorem eq_cons_of_anyToken {p : Parsed tokens SnippetToken} (h : anyToken tokens = .ok p) :
    tokens = p.value :: p.rest := by
  cases tokens with
  | nil => cases h
  | cons t rest =>
    cases h
    rfl

@[simp] theorem atMark_cons (c : Char) (t : SnippetToken) : atMark c (t :: rest) = t.isMark c := rfl

@[simp] theorem atMark_nil (c : Char) : atMark c [] = false := rfl

/-- A token `t` is one mark at most: if it is `c`, it is not `d`. -/
theorem isMark_of_ne {t : SnippetToken} {c d : Char} (h : t.isMark c = true) (hne : c ≠ d) :
    t.isMark d = false := by
  simp only [SnippetToken.isMark, decide_eq_true_eq, decide_eq_false_iff_not] at h ⊢
  rw [h]
  simpa using hne

theorem isMark_of_isName {t : SnippetToken} {c : Char} (h : t.isName = true) :
    t.isMark c = false := by
  simp only [SnippetToken.isMark, SnippetToken.isName, decide_eq_true_eq,
    decide_eq_false_iff_not] at h ⊢
  simp [h]

theorem isName_of_isMark {t : SnippetToken} {c : Char} (h : t.isMark c = true) :
    t.isName = false := by
  simp only [SnippetToken.isMark, decide_eq_true_eq] at h
  simp [SnippetToken.isName, h]

theorem isKeyword_iff {t : SnippetToken} {word : String} :
    t.isKeyword word = true ↔ t.isName = true ∧ t.text = word := by
  simp [SnippetToken.isKeyword]

theorem isMark_of_isKeyword {t : SnippetToken} {word : String} {c : Char}
    (h : t.isKeyword word = true) : t.isMark c = false := isMark_of_isName (isKeyword_iff.mp h).1

theorem isKeyword_of_isMark {t : SnippetToken} {c : Char} (h : t.isMark c = true) (word : String) :
    t.isKeyword word = false := by
  rw [SnippetToken.isKeyword, isName_of_isMark h, Bool.false_and]

end

/-! ## What was read is an expression -/

mutual

theorem reads_of_parse {tokens : List SnippetToken} {p : Parsed tokens Expr}
    (h : Expr.parse tokens = .ok p) : ∃ ts, tokens = ts ++ p.rest ∧ Reads (.expr p.value) ts := by
  rw [Expr.parse] at h
  obtain ⟨⟨target, rest, hrest⟩, htarget, h⟩ := exists_of_bind_eq_ok h
  obtain ⟨ts, hts, hreads⟩ := reads_of_chain htarget
  simp only at hts hreads h
  split at h
  · obtain ⟨⟨equals, rest₁, h₁⟩, hequals, h⟩ := exists_of_bind_eq_ok h
    obtain ⟨⟨value, rest₂, h₂⟩, hvalue, h⟩ := exists_of_bind_eq_ok h
    obtain ⟨hrest₁, hmark⟩ := eq_cons_of_mark hequals
    obtain ⟨us, hus, hreads'⟩ := reads_of_parse hvalue
    cases h
    simp only at hrest₁ hus
    exact ⟨ts ++ equals :: us, by simp [hts, hrest₁, hus], .assign hreads hmark hreads'⟩
  · cases h
    exact ⟨ts, hts, .plain hreads⟩
termination_by 4 * tokens.length + 3
decreasing_by all_goals omega

theorem reads_of_chain {tokens : List SnippetToken} {p : Parsed tokens Expr}
    (h : chain tokens = .ok p) : ∃ ts, tokens = ts ++ p.rest ∧ Reads (.chain p.value) ts := by
  rw [chain] at h
  obtain ⟨⟨first, rest, hrest⟩, hfirst, h⟩ := exists_of_bind_eq_ok h
  obtain ⟨⟨whole, rest₁, h₁⟩, hwhole, h⟩ := exists_of_bind_eq_ok h
  cases h
  obtain ⟨ts, hts, hreads⟩ := reads_of_primary hfirst
  obtain ⟨us, hus, hreads'⟩ := reads_of_links hwhole hreads
  simp only at hts hus
  exact ⟨ts ++ us, by simp [hts, hus], hreads'⟩
termination_by 4 * tokens.length + 2
decreasing_by all_goals omega

theorem reads_of_links {tokens ts : List SnippetToken} {receiver : Expr} {p : Continued tokens Expr}
    (h : links receiver tokens = .ok p) (hreceiver : Reads (.chain receiver) ts) :
    ∃ us, tokens = us ++ p.rest ∧ Reads (.chain p.value) (ts ++ us) := by
  rw [links] at h
  split at h
  · obtain ⟨⟨dot, rest₁, h₁⟩, hdot, h⟩ := exists_of_bind_eq_ok h
    obtain ⟨⟨member, rest₂, h₂⟩, hmember, h⟩ := exists_of_bind_eq_ok h
    obtain ⟨htokens, hmark⟩ := eq_cons_of_mark hdot
    obtain ⟨hrest₁, hname⟩ := eq_cons_of_name hmember
    simp only at htokens hrest₁ h
    split at h
    · obtain ⟨⟨⟨args, stop⟩, rest₃, h₃⟩, hargs, h⟩ := exists_of_bind_eq_ok h
      obtain ⟨⟨whole, rest₄, h₄⟩, hwhole, h⟩ := exists_of_bind_eq_ok h
      cases h
      obtain ⟨us, hus, hreads⟩ := reads_of_arguments hargs
      obtain ⟨vs, hvs, hreads'⟩ := reads_of_links hwhole (.callOn hreceiver hmark hname hreads)
      simp only at hus hvs
      exact ⟨dot :: member :: us ++ vs, by simp [htokens, hrest₁, hus, hvs],
        by simpa using hreads'⟩
    · obtain ⟨⟨whole, rest₃, h₃⟩, hwhole, h⟩ := exists_of_bind_eq_ok h
      cases h
      obtain ⟨vs, hvs, hreads⟩ := reads_of_links hwhole (.select hreceiver hmark hname)
      simp only at hvs
      exact ⟨dot :: member :: vs, by simp [htokens, hrest₁, hvs], by simpa using hreads⟩
  · cases h
    exact ⟨[], rfl, by simpa using hreceiver⟩
termination_by 4 * tokens.length + 1
decreasing_by all_goals omega

theorem reads_of_arguments {tokens : List SnippetToken} {p : Parsed tokens (List Expr × Nat)}
    (h : arguments tokens = .ok p) :
    ∃ ts, tokens = ts ++ p.rest ∧ Reads (.arguments p.value.1 p.value.2) ts := by
  rw [arguments] at h
  obtain ⟨⟨opening, rest₁, h₁⟩, hopening, h⟩ := exists_of_bind_eq_ok h
  obtain ⟨htokens, hmark⟩ := eq_cons_of_mark hopening
  simp only at htokens h
  split at h
  · obtain ⟨⟨closing, rest₂, h₂⟩, hclosing, h⟩ := exists_of_bind_eq_ok h
    obtain ⟨hrest₁, hmark'⟩ := eq_cons_of_mark hclosing
    cases h
    simp only at hrest₁
    exact ⟨[opening, closing], by simp [htokens, hrest₁], .noArguments hmark hmark'⟩
  · obtain ⟨⟨first, rest₂, h₂⟩, hfirst, h⟩ := exists_of_bind_eq_ok h
    obtain ⟨q, hmore, h⟩ := exists_of_bind_eq_ok h
    obtain ⟨ts, hts, hreads⟩ := reads_of_parse hfirst
    obtain ⟨us, es, hus, hes, hreads'⟩ := reads_of_moreArguments hmore
    cases h
    simp only [Parsed.behind] at hts hus hes ⊢
    refine ⟨opening :: ts ++ us, by simp [htokens, hts, hus], ?_⟩
    rw [hes]
    exact .someArguments hmark hreads hreads'
termination_by 4 * tokens.length
decreasing_by all_goals omega

theorem reads_of_moreArguments {tokens : List SnippetToken} {before : List Expr}
    {p : Parsed tokens (List Expr × Nat)} (h : moreArguments before tokens = .ok p) :
    ∃ ts es, tokens = ts ++ p.rest ∧ p.value.1 = before.reverse ++ es ∧
      Reads (.moreArguments es p.value.2) ts := by
  rw [moreArguments] at h
  split at h
  · obtain ⟨⟨closing, rest₁, h₁⟩, hclosing, h⟩ := exists_of_bind_eq_ok h
    obtain ⟨htokens, hmark⟩ := eq_cons_of_mark hclosing
    cases h
    exact ⟨[closing], [], htokens, by simp, .noMore hmark⟩
  · obtain ⟨⟨comma, rest₁, h₁⟩, hcomma, h⟩ := exists_of_bind_eq_ok h
    obtain ⟨⟨next, rest₂, h₂⟩, hnext, h⟩ := exists_of_bind_eq_ok h
    obtain ⟨q, hmore, h⟩ := exists_of_bind_eq_ok h
    obtain ⟨htokens, hmark⟩ := eq_cons_of_mark hcomma
    obtain ⟨ts, hts, hreads⟩ := reads_of_parse hnext
    obtain ⟨us, es, hus, hes, hreads'⟩ := reads_of_moreArguments hmore
    cases h
    simp only [Parsed.behind] at htokens hts hus hes ⊢
    exact ⟨comma :: ts ++ us, next :: es, by simp [htokens, hts, hus], by simp [hes],
      .more hmark hreads hreads'⟩
termination_by 4 * tokens.length
decreasing_by all_goals omega

theorem reads_of_primary {tokens : List SnippetToken} {p : Parsed tokens Expr}
    (h : primary tokens = .ok p) : ∃ ts, tokens = ts ++ p.rest ∧ Reads (.chain p.value) ts := by
  rw [primary] at h
  -- The reader looks at the kind of the first token, and for a name at its text.
  obtain ⟨⟨first, rest, hrest⟩, hfirst, h⟩ := exists_of_bind_eq_ok h
  have htokens := eq_cons_of_anyToken hfirst
  simp only at htokens h
  split at h
  · rename_i hkind
    cases h
    exact ⟨[first], htokens, .literal (by simp [literalKind?, hkind])⟩
  · rename_i hkind
    cases h
    exact ⟨[first], htokens, .literal (by simp [literalKind?, hkind])⟩
  · rename_i hkind
    obtain ⟨⟨inner, rest₁, h₁⟩, hinner, h⟩ := exists_of_bind_eq_ok h
    obtain ⟨⟨closing, rest₂, h₂⟩, hclosing, h⟩ := exists_of_bind_eq_ok h
    obtain ⟨ts, hts, hreads⟩ := reads_of_parse hinner
    obtain ⟨hrest₁, hmark⟩ := eq_cons_of_mark hclosing
    cases h
    simp only at hts hrest₁
    exact ⟨first :: ts ++ [closing], by simp [htokens, hts, hrest₁],
      .paren (by simp [SnippetToken.isMark, hkind]) hreads hmark⟩
  · cases h
  · rename_i hkind
    have hname : first.isName = true := by simp [SnippetToken.isName, hkind]
    split at h
    · rename_i htext
      cases h
      exact ⟨[first], htokens, .literal (by simp [literalKind?, hkind, htext])⟩
    split at h
    · rename_i hboolean hnull
      cases h
      exact ⟨[first], htokens, .literal (by simp [literalKind?, hkind, hnull])⟩
    split at h
    · rename_i hnew
      obtain ⟨⟨type, rest₁, h₁⟩, htype, h⟩ := exists_of_bind_eq_ok h
      obtain ⟨⟨⟨args, stop⟩, rest₂, h₂⟩, hargs, h⟩ := exists_of_bind_eq_ok h
      obtain ⟨hrest, hname'⟩ := eq_cons_of_name htype
      obtain ⟨ts, hts, hreads⟩ := reads_of_arguments hargs
      cases h
      simp only at hrest hts
      exact ⟨first :: type :: ts, by simp [htokens, hrest, hts],
        .create (by simp [SnippetToken.isKeyword, hname, hnew]) hname' hreads⟩
    split at h
    · rename_i hthis
      cases h
      exact ⟨[first], htokens, .self (by simp [SnippetToken.isKeyword, hname, hthis])⟩
    rename_i hboolean hnull hnew hthis
    have hfree : first.text ∉ expressionKeywords := by
      rw [not_or] at hboolean
      simp [expressionKeywords, hboolean, hnull, hnew, hthis]
    split at h
    · obtain ⟨⟨⟨args, stop⟩, rest₁, h₁⟩, hargs, h⟩ := exists_of_bind_eq_ok h
      obtain ⟨ts, hts, hreads⟩ := reads_of_arguments hargs
      cases h
      simp only at hts
      exact ⟨first :: ts, by simp [htokens, hts], .callOwn hname hfree hreads⟩
    · cases h
      exact ⟨[first], htokens, .name hname hfree⟩
termination_by 4 * tokens.length
decreasing_by all_goals omega

end

/-! ## An expression is read -/

section

variable {α β : Type} {tokens tokens' rest rest' : List SnippetToken}

/-- Reading goes on with `f` behind what was read, `a`. -/
theorem Gives.bind {x : Except SnippetError (Parsed tokens α)} {a : α} {b : β}
    {f : Parsed tokens α → Except SnippetError (Parsed tokens' β)} (h : Gives x a rest)
    (hf : ∀ shorter, Gives (f ⟨a, rest, shorter⟩) b rest') : Gives (x >>= f) b rest' := by
  obtain ⟨shorter, rfl⟩ := h
  exact hf shorter

theorem Goes.bind {x : Except SnippetError (Continued tokens α)} {a : α} {b : β}
    {f : Continued tokens α → Except SnippetError (Parsed tokens' β)} (h : Goes x a rest)
    (hf : ∀ notLonger, Gives (f ⟨a, rest, notLonger⟩) b rest') : Gives (x >>= f) b rest' := by
  obtain ⟨notLonger, rfl⟩ := h
  exact hf notLonger

theorem Gives.bindGoes {x : Except SnippetError (Parsed tokens α)} {a : α} {b : β}
    {f : Parsed tokens α → Except SnippetError (Continued tokens' β)} (h : Gives x a rest)
    (hf : ∀ shorter, Goes (f ⟨a, rest, shorter⟩) b rest') : Goes (x >>= f) b rest' := by
  obtain ⟨shorter, rfl⟩ := h
  exact hf shorter

theorem Goes.bindGoes {x : Except SnippetError (Continued tokens α)} {a : α} {b : β}
    {f : Continued tokens α → Except SnippetError (Continued tokens' β)} (h : Goes x a rest)
    (hf : ∀ notLonger, Goes (f ⟨a, rest, notLonger⟩) b rest') : Goes (x >>= f) b rest' := by
  obtain ⟨notLonger, rfl⟩ := h
  exact hf notLonger

end

/-- The tokens `rest` do not go on with an expression in front of them. -/
structure Stops (rest : List SnippetToken) : Prop where
  noMember : atMark '.' rest = false
  noArguments : atMark '(' rest = false
  noValue : atMark '=' rest = false

theorem Stops.of_isMark {t : SnippetToken} {c : Char} {rest : List SnippetToken}
    (h : t.isMark c = true) (hc : c ∉ ['.', '(', '=']) : Stops (t :: rest) := by
  simp only [List.mem_cons, List.not_mem_nil, not_or] at hc
  exact ⟨isMark_of_ne h hc.1, isMark_of_ne h hc.2.1, isMark_of_ne h hc.2.2.1⟩

/-- An expression begins with a token `t` that is no mark but an opening bracket. -/
theorem Reads.exists_cons {phrase : Phrase} {ts : List SnippetToken} (h : Reads phrase ts) :
    match phrase with
    | .expr _ | .chain _ => ∃ t us, ts = t :: us ∧ ∀ c, c ≠ '(' → t.isMark c = false
    | _ => True := by
  have hname : ∀ {t : SnippetToken}, t.isName = true → ∀ c, c ≠ '(' → t.isMark c = false :=
    fun h c _ => isMark_of_isName h
  have hkeyword : ∀ {t : SnippetToken} {word : String}, t.isKeyword word = true →
      ∀ c, c ≠ '(' → t.isMark c = false := fun h _ _ => isMark_of_isKeyword h
  induction h with
  | @literal t kind h =>
    refine ⟨t, [], rfl, fun c _ => ?_⟩
    unfold literalKind? at h
    cases hkind : t.kind <;> simp [hkind, SnippetToken.isMark] at h ⊢
  | self h => exact ⟨_, _, rfl, hkeyword h⟩
  | name h => exact ⟨_, _, rfl, hname h⟩
  | paren ho => exact ⟨_, _, rfl, fun c hc => isMark_of_ne ho hc.symm⟩
  | create hw => exact ⟨_, _, rfl, hkeyword hw⟩
  | callOwn ht => exact ⟨_, _, rfl, hname ht⟩
  | select h _ _ ih =>
    obtain ⟨t, us, rfl, ht⟩ := ih
    exact ⟨t, _, rfl, ht⟩
  | callOn h _ _ _ ih =>
    obtain ⟨t, us, rfl, ht⟩ := ih
    exact ⟨t, _, rfl, ht⟩
  | plain h ih => exact ih
  | assign h _ _ ih =>
    obtain ⟨t, us, rfl, ht⟩ := ih
    exact ⟨t, _, rfl, ht⟩
  | _ => trivial

/-- Arguments, the tokens `ts`, begin with a bracket. -/
theorem Reads.atMark_append {es : List Expr} {stop : Nat} {ts : List SnippetToken}
    (h : Reads (.arguments es stop) ts) (rest : List SnippetToken) :
    atMark '(' (ts ++ rest) = true := by
  cases h with
  | noArguments ho | someArguments ho => exact ho

/-- An argument ends where the next one or the end of the arguments begins: `ts` stops it. -/
theorem Reads.stops {es : List Expr} {stop : Nat} {ts : List SnippetToken}
    (h : Reads (.moreArguments es stop) ts) (rest : List SnippetToken) : Stops (ts ++ rest) := by
  cases h with
  | noMore hc => exact .of_isMark hc (by decide)
  | more hc => exact .of_isMark hc (by decide)

/-- The phrase is read from the tokens `ts` that it is made of. A chain is read up to where the
reading of its members goes on. -/
def IsRead (ts : List SnippetToken) : Phrase → Prop
  | .expr e => ∀ rest, Stops rest → Gives (Expr.parse (ts ++ rest)) e rest
  | .chain e => ∀ rest whole rest', atMark '(' rest = false → Goes (links e rest) whole rest' →
    Gives (chain (ts ++ rest)) whole rest'
  | .arguments es stop => ∀ rest, Gives (arguments (ts ++ rest)) (es, stop) rest
  | .moreArguments es stop => ∀ before rest,
    Gives (moreArguments before (ts ++ rest)) (before.reverse ++ es, stop) rest

/-- No more members of `e` are read where none is selected. -/
theorem goes_links {e : Expr} {rest : List SnippetToken} (h : atMark '.' rest = false) :
    Goes (links e rest) e rest := ⟨Nat.le_refl _, by rw [links, if_neg (by simp [h])]⟩

/-- A primary expression, `first`, begins a chain. -/
theorem gives_chain {tokens rest rest' : List SnippetToken} {first whole : Expr}
    (h : Gives (primary tokens) first rest) (hlinks : Goes (links first rest) whole rest') :
    Gives (chain tokens) whole rest' := by
  rw [chain]
  refine h.bind fun _ => hlinks.bind fun _ => ⟨_, rfl⟩

/-- A token `t` that begins no other phrase is a primary expression by itself. -/
theorem isRead_of_primary {t : SnippetToken} {e : Expr}
    (h : ∀ rest, atMark '(' rest = false → Gives (primary (t :: rest)) e rest) :
    IsRead [t] (.chain e) :=
  fun rest _ _ hrest hlinks => gives_chain (h rest hrest) hlinks

theorem gives_literal {t : SnippetToken} {kind : LiteralKind} {rest : List SnippetToken}
    (h : literalKind? t = some kind) : Gives (primary (t :: rest)) (.literal kind t.span) rest := by
  unfold literalKind? at h
  rw [primary]
  refine Gives.bind ⟨_, rfl⟩ fun _ => ?_
  cases hkind : t.kind with
  | mark c => simp [hkind] at h
  | name =>
    simp only [hkind] at h ⊢
    split at h
    · rename_i htext
      cases h
      rw [if_pos htext]
      exact ⟨_, rfl⟩
    split at h
    · rename_i htext hnull
      cases h
      rw [if_neg htext, if_pos hnull]
      exact ⟨_, rfl⟩
    · cases h
  | _ =>
    simp only [hkind] at h ⊢
    cases h
    exact ⟨_, rfl⟩

/-! ### What the readers give, phrase by phrase -/

section

variable {first member dot opening closing : SnippetToken} {tokens rest rest' : List SnippetToken}
variable {e receiver whole : Expr} {es before : List Expr} {stop : Nat}

theorem gives_self (h : first.isKeyword "this" = true) :
    Gives (primary (first :: rest)) (.self first.span) rest := by
  simp only [SnippetToken.isKeyword, SnippetToken.isName, Bool.and_eq_true, decide_eq_true_eq,
    beq_iff_eq] at h
  rw [primary]
  refine Gives.bind ⟨_, rfl⟩ fun _ => ?_
  simp only [h.1, h.2]
  exact ⟨_, rfl⟩

theorem gives_name (h : first.isName = true) (hfree : first.text ∉ expressionKeywords)
    (hrest : atMark '(' rest = false) :
    Gives (primary (first :: rest)) (.name first.text first.span) rest := by
  simp only [SnippetToken.isName, decide_eq_true_eq] at h
  simp only [expressionKeywords, List.mem_cons, List.not_mem_nil, or_false, not_or] at hfree
  rw [primary]
  refine Gives.bind ⟨_, rfl⟩ fun _ => ?_
  simp only [h, hfree, hrest]
  exact ⟨_, rfl⟩

theorem gives_paren (ho : opening.isMark '(' = true)
    (h : Gives (Expr.parse tokens) e (closing :: rest)) (hc : closing.isMark ')' = true) :
    Gives (primary (opening :: tokens)) (.paren e ⟨opening.span.start, closing.span.stop⟩)
      rest := by
  simp only [SnippetToken.isMark, decide_eq_true_eq] at ho
  rw [primary]
  refine Gives.bind ⟨_, rfl⟩ fun _ => ?_
  simp only [ho]
  exact h.bind fun _ => (mark_cons hc).bind fun _ => ⟨_, rfl⟩

theorem gives_create {type : SnippetToken} (hw : first.isKeyword "new" = true)
    (ht : type.isName = true) (h : Gives (arguments tokens) (es, stop) rest) :
    Gives (primary (first :: type :: tokens)) (.create type.text es ⟨first.span.start, stop⟩)
      rest := by
  simp only [SnippetToken.isKeyword, SnippetToken.isName, Bool.and_eq_true, decide_eq_true_eq,
    beq_iff_eq] at hw
  rw [primary]
  refine Gives.bind ⟨_, rfl⟩ fun _ => ?_
  simp only [hw.1, hw.2]
  exact (name_cons ht).bind fun _ => h.bind fun _ => ⟨_, rfl⟩

theorem gives_callOwn (ht : first.isName = true) (hfree : first.text ∉ expressionKeywords)
    (hopening : atMark '(' tokens = true) (h : Gives (arguments tokens) (es, stop) rest) :
    Gives (primary (first :: tokens)) (.callOwn first.text first.span es stop) rest := by
  simp only [SnippetToken.isName, decide_eq_true_eq] at ht
  simp only [expressionKeywords, List.mem_cons, List.not_mem_nil, or_false, not_or] at hfree
  rw [primary]
  refine Gives.bind ⟨_, rfl⟩ fun _ => ?_
  simp only [ht, hfree, hopening]
  exact h.bind fun _ => ⟨_, rfl⟩

theorem goes_select (hd : dot.isMark '.' = true) (hm : member.isName = true)
    (hrest : atMark '(' rest = false)
    (h : Goes (links (.select receiver member.text member.span.stop) rest) whole rest') :
    Goes (links receiver (dot :: member :: rest)) whole rest' := by
  rw [links]
  simp only [atMark_cons, hd, if_true]
  refine (mark_cons hd).bindGoes fun _ => (name_cons hm).bindGoes fun _ => ?_
  simp only [hrest]
  exact h.bindGoes fun _ => ⟨_, rfl⟩

theorem goes_callOn (hd : dot.isMark '.' = true) (hm : member.isName = true)
    (hopening : atMark '(' tokens = true) (hargs : Gives (arguments tokens) (es, stop) rest)
    (h : Goes (links (.callOn receiver member.text member.span.stop es stop) rest) whole rest') :
    Goes (links receiver (dot :: member :: tokens)) whole rest' := by
  rw [links]
  simp only [atMark_cons, hd, if_true]
  refine (mark_cons hd).bindGoes fun _ => (name_cons hm).bindGoes fun _ => ?_
  simp only [hopening, if_true]
  exact hargs.bindGoes fun _ => h.bindGoes fun _ => ⟨_, rfl⟩

theorem gives_plain (h : Gives (chain tokens) e rest) (hrest : atMark '=' rest = false) :
    Gives (Expr.parse tokens) e rest := by
  rw [Expr.parse]
  refine h.bind fun _ => ?_
  simp only [hrest]
  exact ⟨_, rfl⟩

theorem gives_assign {equals : SnippetToken} {target value : Expr}
    (h : Gives (chain tokens) target (equals :: rest)) (he : equals.isMark '=' = true)
    (hvalue : Gives (Expr.parse rest) value rest') :
    Gives (Expr.parse tokens) (.assign target value) rest' := by
  rw [Expr.parse]
  refine h.bind fun _ => ?_
  simp only [atMark_cons, he, if_true]
  exact (mark_cons he).bind fun _ => hvalue.bind fun _ => ⟨_, rfl⟩

theorem gives_noArguments (ho : opening.isMark '(' = true) (hc : closing.isMark ')' = true) :
    Gives (arguments (opening :: closing :: rest)) ([], closing.span.stop) rest := by
  rw [arguments]
  refine (mark_cons ho).bind fun _ => ?_
  simp only [atMark_cons, hc, if_true]
  exact (mark_cons hc).bind fun _ => ⟨_, rfl⟩

theorem gives_someArguments (ho : opening.isMark '(' = true) (hclosed : atMark ')' tokens = false)
    (h : Gives (Expr.parse tokens) e rest)
    (hmore : Gives (moreArguments [e] rest) (es, stop) rest') :
    Gives (arguments (opening :: tokens)) (es, stop) rest' := by
  rw [arguments]
  refine (mark_cons ho).bind fun _ => ?_
  simp only [hclosed]
  exact h.bind fun _ => hmore.bind fun _ => ⟨_, rfl⟩

theorem gives_noMore (hc : closing.isMark ')' = true) :
    Gives (moreArguments before (closing :: rest)) (before.reverse, closing.span.stop) rest := by
  rw [moreArguments]
  simp only [atMark_cons, hc, if_true]
  exact (mark_cons hc).bind fun _ => ⟨_, rfl⟩

theorem gives_more {comma : SnippetToken} (hcomma : comma.isMark ',' = true)
    (h : Gives (Expr.parse tokens) e rest)
    (hmore : Gives (moreArguments (e :: before) rest) (es, stop) rest') :
    Gives (moreArguments before (comma :: tokens)) (es, stop) rest' := by
  have hclosed : atMark ')' (comma :: tokens) = false := isMark_of_ne hcomma (by decide)
  rw [moreArguments]
  simp only [hclosed]
  exact (mark_cons hcomma).bind fun _ => h.bind fun _ => hmore.bind fun _ => ⟨_, rfl⟩

end

/-- What `Reads` says of a phrase and its tokens is what the readers do, in front of any tokens with
which the phrase does not go on. -/
theorem Reads.isRead {phrase : Phrase} {ts : List SnippetToken} (h : Reads phrase ts) :
    IsRead ts phrase := by
  -- A chain is read from its first part on, so its members are handed to `links` one by one: each
  -- selected member is taken off the front of what `links` is still to read.
  induction h with
  | literal h => exact isRead_of_primary fun _ _ => gives_literal h
  | self h => exact isRead_of_primary fun _ _ => gives_self h
  | name h hfree => exact isRead_of_primary fun _ => gives_name h hfree
  | paren ho _ hc ih =>
    intro rest whole rest' _ hlinks
    rw [List.append_assoc, List.cons_append]
    exact gives_chain (gives_paren ho (ih _ (.of_isMark hc (by decide))) hc) hlinks
  | create hw ht _ ih =>
    intro rest whole rest' _ hlinks
    exact gives_chain (gives_create hw ht (ih rest)) hlinks
  | callOwn ht hfree h ih =>
    intro rest whole rest' _ hlinks
    exact gives_chain (gives_callOwn ht hfree (h.atMark_append rest) (ih rest)) hlinks
  | @select receiver dot member ts h hd hm ih =>
    intro rest whole rest' hrest hlinks
    have hopen : atMark '(' (dot :: member :: rest) = false := isMark_of_ne hd (by decide)
    rw [List.append_assoc]
    exact ih _ whole rest' hopen (goes_select hd hm hrest hlinks)
  | @callOn receiver dot member es stop ts us h hd hm hargs ih ihargs =>
    intro rest whole rest' _ hlinks
    have hopen : atMark '(' (dot :: member :: (us ++ rest)) = false := isMark_of_ne hd (by decide)
    rw [List.append_assoc]
    exact ih _ whole rest' hopen
      (goes_callOn hd hm (hargs.atMark_append rest) (ihargs rest) hlinks)
  | plain _ ih =>
    intro rest hstops
    exact gives_plain (ih rest _ rest hstops.noArguments (goes_links hstops.noMember))
      hstops.noValue
  | @assign target value equals ts us h he hvalue ih ihvalue =>
    intro rest hstops
    have hopen : atMark '(' (equals :: (us ++ rest)) = false := isMark_of_ne he (by decide)
    have hdot : atMark '.' (equals :: (us ++ rest)) = false := isMark_of_ne he (by decide)
    rw [List.append_assoc, List.cons_append]
    exact gives_assign (ih _ _ _ hopen (goes_links hdot)) he (ihvalue rest hstops)
  | noArguments ho hc => exact fun rest => gives_noArguments ho hc
  | @someArguments opening e es stop ts us ho h hmore ih ihmore =>
    intro rest
    obtain ⟨t, ts, rfl, ht⟩ := h.exists_cons
    have hclosed : atMark ')' (t :: ts ++ (us ++ rest)) = false := ht ')' (by decide)
    rw [List.append_assoc, List.cons_append]
    exact gives_someArguments ho hclosed (ih _ (hmore.stops rest)) (ihmore [e] rest)
  | noMore hc =>
    intro before rest
    rw [List.append_nil]
    exact gives_noMore hc
  | @more comma e es stop ts us hc h hmore ih ihmore =>
    intro before rest
    -- The readers keep the arguments read so far newest first.
    have hgives := ihmore (e :: before) rest
    rw [List.reverse_cons, List.append_assoc] at hgives
    rw [List.append_assoc, List.cons_append]
    exact gives_more hc (ih _ (hmore.stops rest)) hgives

/-- Tokens `ts` that make an expression `e` are read as it when what follows does not go on
(`Stops`). -/
theorem parse_of_reads {e : Expr} {ts rest : List SnippetToken} (h : Reads (.expr e) ts)
    (hrest : Stops rest) : Gives (Expr.parse (ts ++ rest)) e rest :=
  h.isRead rest hrest

end TreeLint.Snippet
