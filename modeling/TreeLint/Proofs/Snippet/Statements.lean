import TreeLint.Proofs.Snippet.Grammar

/-!
# The grammar of statements

The tokens of a snippet are put together in pieces: an expression statement with its semicolon is
one, and any other token is one by itself. `Forms` says which pieces an item is made of, and
`Item.parse` agrees.

- `Item.isOpen`: an item that an `else` behind it would become part of.
- `forms_of_parse`, `forms_of_ofTokens`: what was read is an item by the grammar.
- `Forms.isParsed`, `ofTokens_of_forms`: pieces that make an item are read as it.
-/

namespace TreeLint.Snippet

/-- A piece of a snippet: a `statement`, or a `token` by itself. -/
inductive Piece where
  | token (t : SnippetToken)
  /-- An expression statement: the expression, its tokens and the semicolon. -/
  | statement (value : Expr) (tokens : List SnippetToken) (semicolon : SnippetToken)

/-- The tokens of a piece, with the `semicolon` of a statement. -/
def Piece.tokens : Piece → List SnippetToken
  | token t => [t]
  | statement _ tokens semicolon => tokens ++ [semicolon]

/-- The tokens of `pieces`, one behind the other. -/
def tokensOf (pieces : List Piece) : List SnippetToken := pieces.flatMap Piece.tokens

@[simp] theorem tokensOf_nil : tokensOf [] = [] := rfl

@[simp] theorem tokensOf_cons (piece : Piece) (pieces : List Piece) :
    tokensOf (piece :: pieces) = piece.tokens ++ tokensOf pieces := rfl

@[simp] theorem tokensOf_append (ps qs : List Piece) :
    tokensOf (ps ++ qs) = tokensOf ps ++ tokensOf qs := by
  simp [tokensOf]

@[simp] theorem tokensOf_map_token (ts : List SnippetToken) : tokensOf (ts.map .token) = ts := by
  induction ts with
  | nil => rfl
  | cons t ts ih => simp [ih, Piece.tokens]

/-- An `else` behind the item would belong to it. -/
def Item.isOpen : Item → Bool
  | .branch _ _ _ none => true
  | .branch _ _ _ (some no) => no.isOpen
  | .suppressed _ item => item.isOpen
  | _ => false

/-- The keys that the tokens `body` of a tag give. -/
def keysOf (body : List SnippetToken) : List String :=
  body.flatMap fun t => if t.isMark ',' then [] else [String.ofList (keys.bare t.text.toList)]

/-- What pieces are read as: an `item` or more of them. -/
inductive Passage where
  | item (i : Item)
  /-- The items of a block or of a whole snippet. -/
  | items (is : List Item)

/-- The pieces that a `Passage` is made of. -/
inductive Forms (isType : String → Bool) : Passage → List Piece → Prop
  | suppressed {sign word opening closing : SnippetToken} {body : List SnippetToken} {item : Item}
      {ps : List Piece} (hs : sign.isMark '@' = true) (hw : word.isKeyword "Suppress" = true)
      (ho : opening.isMark '(' = true) (hbody : ∀ t ∈ body, t.isMark ')' = false)
      (hc : closing.isMark ')' = true) (h : Forms isType (.item item) ps) :
      Forms isType (.item (.suppressed (keysOf body) item))
        ((sign :: word :: opening :: body ++ [closing]).map .token ++ ps)
  | block {opening closing : SnippetToken} {items : List Item} {ps : List Piece}
      (ho : opening.isMark '\x7b' = true) (h : Forms isType (.items items) ps)
      (hc : closing.isMark '\x7d' = true) :
      Forms isType (.item (.block items ⟨opening.span.start, closing.span.stop⟩))
        (.token opening :: ps ++ [.token closing])
  | leave {word semicolon : SnippetToken} (hw : word.isKeyword "return" = true)
      (hs : semicolon.isMark ';' = true) :
      Forms isType (.item (.ret none ⟨word.span.start, semicolon.span.stop⟩))
        [.token word, .token semicolon]
  | ret {word semicolon : SnippetToken} {value : Expr} {ts : List SnippetToken}
      (hw : word.isKeyword "return" = true) (h : Reads (.expr value) ts)
      (hs : semicolon.isMark ';' = true) :
      Forms isType (.item (.ret (some value) ⟨word.span.start, semicolon.span.stop⟩))
        ((word :: ts ++ [semicolon]).map .token)
  | branch {word opening closing : SnippetToken} {condition : Expr} {ts : List SnippetToken}
      {yes : Item} {ps : List Piece} (hw : word.isKeyword "if" = true)
      (ho : opening.isMark '(' = true) (h : Reads (.expr condition) ts)
      (hc : closing.isMark ')' = true) (hyes : Forms isType (.item yes) ps) :
      Forms isType (.item (.branch word.span.start condition yes none))
        ((word :: opening :: ts ++ [closing]).map .token ++ ps)
  | branchElse {word opening closing other : SnippetToken} {condition : Expr}
      {ts : List SnippetToken} {yes no : Item} {ps qs : List Piece}
      (hw : word.isKeyword "if" = true) (ho : opening.isMark '(' = true)
      (h : Reads (.expr condition) ts) (hc : closing.isMark ')' = true)
      (hyes : Forms isType (.item yes) ps) (hclosed : yes.isOpen = false)
      (hother : other.isKeyword "else" = true) (hno : Forms isType (.item no) qs) :
      Forms isType (.item (.branch word.span.start condition yes (some no)))
        ((word :: opening :: ts ++ [closing]).map .token ++ ps ++ .token other :: qs)
  | declare {type place semicolon : SnippetToken} (ht : type.isName = true)
      (hfree : type.text ∉ "return" :: "if" :: expressionKeywords) (htype : isType type.text = true)
      (hp : place.isName = true) (hs : semicolon.isMark ';' = true) :
      Forms isType
        (.item (.declare type.text place.text none ⟨type.span.start, semicolon.span.stop⟩))
        ([type, place, semicolon].map .token)
  | declareValue {type place equals semicolon : SnippetToken} {value : Expr}
      {ts : List SnippetToken} (ht : type.isName = true)
      (hfree : type.text ∉ "return" :: "if" :: expressionKeywords) (htype : isType type.text = true)
      (hp : place.isName = true) (he : equals.isMark '=' = true) (h : Reads (.expr value) ts)
      (hs : semicolon.isMark ';' = true) :
      Forms isType
        (.item (.declare type.text place.text (some value)
          ⟨type.span.start, semicolon.span.stop⟩))
        ((type :: place :: equals :: ts ++ [semicolon]).map .token)
  | evaluate {value : Expr} {ts : List SnippetToken} {semicolon : SnippetToken}
      (h : Reads (.expr value) ts) (hreturn : atKeyword "return" ts = false)
      (hif : atKeyword "if" ts = false) (hs : semicolon.isMark ';' = true) :
      Forms isType (.item (.evaluate value semicolon.span.stop)) [.statement value ts semicolon]
  | nil : Forms isType (.items []) []
  | cons {item : Item} {items : List Item} {ps qs : List Piece} (h : Forms isType (.item item) ps)
      (hopen : item.isOpen = true → atKeyword "else" (tokensOf qs) = false)
      (hrest : Forms isType (.items items) qs) :
      Forms isType (.items (item :: items)) (ps ++ qs)

/-! ## Tags -/

section

variable {tokens rest : List SnippetToken}

theorem exists_of_keys {p : Parsed tokens (List String)} (h : keys tokens = .ok p) :
    ∃ body closing, tokens = body ++ closing :: p.rest ∧ (∀ t ∈ body, t.isMark ')' = false) ∧
      closing.isMark ')' = true ∧ p.value = keysOf body := by
  induction tokens with
  | nil => cases h
  | cons t tokens ih =>
    rw [keys] at h
    split at h
    · rename_i ht
      cases h
      exact ⟨[], t, rfl, by simp, ht, rfl⟩
    · rename_i ht
      split at h
      · cases h
      · rename_i q hq
        obtain ⟨body, closing, htokens, hbody, hclosing, hkeys⟩ := ih hq
        cases h
        refine ⟨t :: body, closing, congrArg (t :: ·) htokens, ?_, hclosing, ?_⟩
        · exact List.forall_mem_cons.mpr ⟨by simpa using ht, hbody⟩
        · simp only [hkeys, keysOf, List.flatMap_cons]

theorem gives_keys {body : List SnippetToken} {closing : SnippetToken}
    (hbody : ∀ t ∈ body, t.isMark ')' = false) (hc : closing.isMark ')' = true) :
    Gives (keys (body ++ closing :: rest)) (keysOf body) rest := by
  induction body with
  | nil =>
    rw [List.nil_append, keys, if_pos hc]
    exact ⟨_, rfl⟩
  | cons t body ih =>
    obtain ⟨ht, hbody⟩ := List.forall_mem_cons.mp hbody
    obtain ⟨_, hkeys⟩ := ih hbody
    rw [List.cons_append, keys, if_neg (by simp [ht]), hkeys]
    exact ⟨_, rfl⟩

theorem exists_of_suppressTag {p : Parsed tokens (List String)} (h : suppressTag tokens = .ok p) :
    ∃ sign word opening body closing,
      tokens = sign :: word :: opening :: body ++ closing :: p.rest ∧ sign.isMark '@' = true ∧
      word.isKeyword "Suppress" = true ∧ opening.isMark '(' = true ∧
      (∀ t ∈ body, t.isMark ')' = false) ∧ closing.isMark ')' = true ∧ p.value = keysOf body := by
  rw [suppressTag] at h
  obtain ⟨⟨sign, rest₁, h₁⟩, hsign, h⟩ := exists_of_bind_eq_ok h
  obtain ⟨⟨word, rest₂, h₂⟩, hword, h⟩ := exists_of_bind_eq_ok h
  obtain ⟨htokens, hs⟩ := eq_cons_of_mark hsign
  obtain ⟨hrest₁, hname⟩ := eq_cons_of_name hword
  simp only at htokens hrest₁ h
  split at h
  · cases h
  rename_i htext
  obtain ⟨⟨opening, rest₃, h₃⟩, hopening, h⟩ := exists_of_bind_eq_ok h
  obtain ⟨q, hkeys, h⟩ := exists_of_bind_eq_ok h
  obtain ⟨hrest₂, ho⟩ := eq_cons_of_mark hopening
  obtain ⟨body, closing, hrest₃, hbody, hc, hvalue⟩ := exists_of_keys hkeys
  cases h
  simp only at hrest₂ hrest₃
  refine ⟨sign, word, opening, body, closing, ?_, hs, ?_, ho, hbody, hc, hvalue⟩
  · simp [Parsed.behind, htokens, hrest₁, hrest₂, hrest₃]
  · simpa [SnippetToken.isKeyword, hname] using htext

theorem gives_suppressTag {sign word opening closing : SnippetToken} {body : List SnippetToken}
    (hs : sign.isMark '@' = true) (hw : word.isKeyword "Suppress" = true)
    (ho : opening.isMark '(' = true) (hbody : ∀ t ∈ body, t.isMark ')' = false)
    (hc : closing.isMark ')' = true) :
    Gives (suppressTag (sign :: word :: opening :: (body ++ closing :: rest))) (keysOf body)
      rest := by
  simp only [SnippetToken.isKeyword, Bool.and_eq_true, beq_iff_eq] at hw
  rw [suppressTag]
  refine (mark_cons hs).bind fun _ => (name_cons hw.1).bind fun _ => ?_
  simp only [hw.2]
  exact (mark_cons ho).bind fun _ => (gives_keys hbody hc).bind fun _ => ⟨_, rfl⟩

end

/-! ## What was read is an item -/

section

variable {isType : String → Bool} {tokens : List SnippetToken}

theorem atKeyword_append {word : String} {ts rest : List SnippetToken}
    (h : atKeyword word (ts ++ rest) = false) : atKeyword word ts = false := by
  cases ts with
  | nil => rfl
  | cons t ts => exact h

theorem atKeyword_append_eq_false {word : String} {ts rest : List SnippetToken}
    (h : atKeyword word ts = false) (hrest : atKeyword word rest = false) :
    atKeyword word (ts ++ rest) = false := by
  cases ts with
  | nil => exact hrest
  | cons t ts => exact h

theorem atKeyword_of_isMark {word : String} {c : Char} {t : SnippetToken} {rest : List SnippetToken}
    (h : t.isMark c = true) : atKeyword word (t :: rest) = false := isKeyword_of_isMark h word

theorem forms_of_returnStatement {p : Parsed tokens Item} (h : returnStatement tokens = .ok p)
    (hword : atKeyword "return" tokens = true) :
    ∃ ps, tokens = tokensOf ps ++ p.rest ∧ Forms isType (.item p.value) ps ∧
      p.value.isOpen = false := by
  rw [returnStatement] at h
  obtain ⟨⟨word, rest₁, h₁⟩, hfirst, h⟩ := exists_of_bind_eq_ok h
  have htokens := eq_cons_of_anyToken hfirst
  simp only at htokens h
  rw [htokens] at hword
  split at h
  · obtain ⟨⟨semicolon, rest₂, h₂⟩, hsemicolon, h⟩ := exists_of_bind_eq_ok h
    obtain ⟨hrest₁, hs⟩ := eq_cons_of_mark hsemicolon
    cases h
    simp only at hrest₁
    exact ⟨_, by simp [htokens, hrest₁, Piece.tokens], .leave hword hs, rfl⟩
  · obtain ⟨⟨value, rest₂, h₂⟩, hvalue, h⟩ := exists_of_bind_eq_ok h
    obtain ⟨⟨semicolon, rest₃, h₃⟩, hsemicolon, h⟩ := exists_of_bind_eq_ok h
    obtain ⟨ts, hts, hreads⟩ := reads_of_parse hvalue
    obtain ⟨hrest₂, hs⟩ := eq_cons_of_mark hsemicolon
    cases h
    simp only at hts hrest₂
    exact ⟨_, by rw [tokensOf_map_token]; simp [htokens, hts, hrest₂], .ret hword hreads hs, rfl⟩

theorem forms_of_declaration {p : Parsed tokens Item} (h : declaration isType tokens = .ok p)
    (hat : atDeclaration tokens = true) (hreturn : atKeyword "return" tokens = false)
    (hif : atKeyword "if" tokens = false) :
    ∃ ps, tokens = tokensOf ps ++ p.rest ∧ Forms isType (.item p.value) ps ∧
      p.value.isOpen = false := by
  rw [declaration] at h
  obtain ⟨⟨type, rest₁, h₁⟩, htype, h⟩ := exists_of_bind_eq_ok h
  obtain ⟨htokens, ht⟩ := eq_cons_of_name htype
  simp only at htokens h
  split at h
  · cases h
  rename_i hknown
  obtain ⟨⟨place, rest₂, h₂⟩, hplace, h⟩ := exists_of_bind_eq_ok h
  obtain ⟨hrest₁, hp⟩ := eq_cons_of_name hplace
  simp only at hrest₁ h
  have hfree : type.text ∉ "return" :: "if" :: expressionKeywords := by
    rw [htokens] at hreturn hif hat
    rw [hrest₁] at hat
    simp_all [atKeyword, SnippetToken.isKeyword, atDeclaration]
  have hknown' : isType type.text = true := by simpa using hknown
  split at h
  · obtain ⟨⟨equals, rest₃, h₃⟩, hequals, h⟩ := exists_of_bind_eq_ok h
    obtain ⟨⟨value, rest₄, h₄⟩, hvalue, h⟩ := exists_of_bind_eq_ok h
    obtain ⟨⟨semicolon, rest₅, h₅⟩, hsemicolon, h⟩ := exists_of_bind_eq_ok h
    obtain ⟨hrest₂, he⟩ := eq_cons_of_mark hequals
    obtain ⟨ts, hts, hreads⟩ := reads_of_parse hvalue
    obtain ⟨hrest₄, hs⟩ := eq_cons_of_mark hsemicolon
    cases h
    simp only at hrest₂ hts hrest₄
    exact ⟨_, by rw [tokensOf_map_token]; simp [htokens, hrest₁, hrest₂, hts, hrest₄],
      .declareValue ht hfree hknown' hp he hreads hs, rfl⟩
  · obtain ⟨⟨semicolon, rest₃, h₃⟩, hsemicolon, h⟩ := exists_of_bind_eq_ok h
    obtain ⟨hrest₂, hs⟩ := eq_cons_of_mark hsemicolon
    cases h
    simp only at hrest₂
    exact ⟨_, by rw [tokensOf_map_token]; simp [htokens, hrest₁, hrest₂],
      .declare ht hfree hknown' hp hs, rfl⟩

theorem forms_of_expressionStatement {p : Parsed tokens Item}
    (h : expressionStatement tokens = .ok p) (hreturn : atKeyword "return" tokens = false)
    (hif : atKeyword "if" tokens = false) :
    ∃ ps, tokens = tokensOf ps ++ p.rest ∧ Forms isType (.item p.value) ps ∧
      p.value.isOpen = false := by
  rw [expressionStatement] at h
  obtain ⟨⟨value, rest₁, h₁⟩, hvalue, h⟩ := exists_of_bind_eq_ok h
  obtain ⟨⟨semicolon, rest₂, h₂⟩, hsemicolon, h⟩ := exists_of_bind_eq_ok h
  obtain ⟨ts, hts, hreads⟩ := reads_of_parse hvalue
  obtain ⟨hrest₁, hs⟩ := eq_cons_of_mark hsemicolon
  cases h
  simp only at hts hrest₁
  rw [hts] at hreturn hif
  exact ⟨_, by simp [hts, hrest₁, Piece.tokens],
    .evaluate hreads (atKeyword_append hreturn) (atKeyword_append hif) hs, rfl⟩

end

mutual

theorem forms_of_parse {isType : String → Bool} {tokens : List SnippetToken} {p : Parsed tokens Item}
    (h : Item.parse isType tokens = .ok p) :
    ∃ ps, tokens = tokensOf ps ++ p.rest ∧ Forms isType (.item p.value) ps ∧
      (p.value.isOpen = true → atKeyword "else" p.rest = false) := by
  rw [Item.parse] at h
  -- One case for each branch of the reader: a tag, a block, `return`, `if`, a declaration, and any
  -- other item is an expression statement.
  split at h
  · obtain ⟨⟨found, rest₁, h₁⟩, htag, h⟩ := exists_of_bind_eq_ok h
    obtain ⟨⟨item, rest₂, h₂⟩, hitem, h⟩ := exists_of_bind_eq_ok h
    obtain ⟨sign, word, opening, body, closing, htokens, hs, hw, ho, hbody, hc, rfl⟩ :=
      exists_of_suppressTag htag
    obtain ⟨ps, hps, hforms, hopen⟩ := forms_of_parse hitem
    cases h
    simp only at htokens hps
    exact ⟨_, by rw [tokensOf_append, tokensOf_map_token]; simp [htokens, hps],
      .suppressed hs hw ho hbody hc hforms, hopen⟩
  split at h
  · obtain ⟨⟨opening, rest₁, h₁⟩, hopening, h⟩ := exists_of_bind_eq_ok h
    obtain ⟨⟨⟨items, stop⟩, rest₂, h₂⟩, hitems, h⟩ := exists_of_bind_eq_ok h
    obtain ⟨htokens, ho⟩ := eq_cons_of_mark hopening
    obtain ⟨ps, closing, items', hrest₁, hc, hvalue, hforms⟩ := forms_of_blockRest hitems
    cases h
    simp only [List.reverse_nil, List.nil_append, Prod.mk.injEq] at htokens hrest₁ hvalue
    obtain ⟨rfl, rfl⟩ := hvalue
    exact ⟨_, by simp [htokens, hrest₁, Piece.tokens], .block ho hforms hc, by simp [Item.isOpen]⟩
  split at h
  · rename_i hword
    obtain ⟨ps, hps, hforms, hclosed⟩ := forms_of_returnStatement h hword
    exact ⟨ps, hps, hforms, by simp [hclosed]⟩
  split at h
  · rename_i hreturn hword
    obtain ⟨⟨word, rest₁, h₁⟩, hfirst, h⟩ := exists_of_bind_eq_ok h
    obtain ⟨⟨opening, rest₂, h₂⟩, hopening, h⟩ := exists_of_bind_eq_ok h
    obtain ⟨⟨condition, rest₃, h₃⟩, hcondition, h⟩ := exists_of_bind_eq_ok h
    obtain ⟨⟨closing, rest₄, h₄⟩, hclosing, h⟩ := exists_of_bind_eq_ok h
    obtain ⟨⟨yes, rest₅, h₅⟩, hyes, h⟩ := exists_of_bind_eq_ok h
    have htokens := eq_cons_of_anyToken hfirst
    obtain ⟨hrest₁, ho⟩ := eq_cons_of_mark hopening
    obtain ⟨ts, hts, hreads⟩ := reads_of_parse hcondition
    obtain ⟨hrest₃, hc⟩ := eq_cons_of_mark hclosing
    obtain ⟨ps, hps, hforms, hopen⟩ := forms_of_parse hyes
    simp only at htokens hrest₁ hts hrest₃ hps hforms hopen h
    have hw : word.isKeyword "if" = true := by rwa [htokens] at hword
    split at h
    · rename_i hother
      obtain ⟨⟨other, rest₆, h₆⟩, helse, h⟩ := exists_of_bind_eq_ok h
      obtain ⟨⟨no, rest₇, h₇⟩, hno, h⟩ := exists_of_bind_eq_ok h
      have hrest₅ := eq_cons_of_anyToken helse
      obtain ⟨qs, hqs, hforms', hopen'⟩ := forms_of_parse hno
      cases h
      simp only at hrest₅ hqs
      have hclosed : yes.isOpen = false :=
        Bool.eq_false_iff.mpr fun hyes => by simp [hopen hyes] at hother
      refine ⟨_, ?_, .branchElse hw ho hreads hc hforms hclosed (by rwa [hrest₅] at hother) hforms',
        hopen'⟩
      rw [tokensOf_append, tokensOf_append, tokensOf_map_token, tokensOf_cons]
      simp [htokens, hrest₁, hts, hrest₃, hps, hrest₅, hqs, Piece.tokens]
    · rename_i hother
      cases h
      refine ⟨_, ?_, .branch hw ho hreads hc hforms, fun _ => by simpa using hother⟩
      rw [tokensOf_append, tokensOf_map_token]
      simp [htokens, hrest₁, hts, hrest₃, hps]
  split at h
  · rename_i hreturn hif hat
    obtain ⟨ps, hps, hforms, hclosed⟩ :=
      forms_of_declaration h hat (by simpa using hreturn) (by simpa using hif)
    exact ⟨ps, hps, hforms, by simp [hclosed]⟩
  · rename_i hreturn hif hat
    obtain ⟨ps, hps, hforms, hclosed⟩ :=
      forms_of_expressionStatement h (by simpa using hreturn) (by simpa using hif)
    exact ⟨ps, hps, hforms, by simp [hclosed]⟩
termination_by 2 * tokens.length
decreasing_by all_goals omega

theorem forms_of_blockRest {isType : String → Bool} {tokens : List SnippetToken}
    {before : List Item} {p : Parsed tokens (List Item × Nat)}
    (h : blockRest isType before tokens = .ok p) :
    ∃ ps closing items, tokens = tokensOf ps ++ closing :: p.rest ∧
      closing.isMark '}' = true ∧ p.value = (before.reverse ++ items, closing.span.stop) ∧
      Forms isType (.items items) ps := by
  rw [blockRest] at h
  split at h
  · obtain ⟨⟨closing, rest₁, h₁⟩, hclosing, h⟩ := exists_of_bind_eq_ok h
    obtain ⟨htokens, hc⟩ := eq_cons_of_mark hclosing
    cases h
    exact ⟨[], closing, [], htokens, hc, by simp, .nil⟩
  · obtain ⟨⟨item, rest₁, h₁⟩, hitem, h⟩ := exists_of_bind_eq_ok h
    obtain ⟨q, hrest, h⟩ := exists_of_bind_eq_ok h
    obtain ⟨ps, hps, hforms, hopen⟩ := forms_of_parse hitem
    obtain ⟨qs, closing, items, hqs, hc, hvalue, hforms'⟩ := forms_of_blockRest hrest
    cases h
    simp only at hps hforms hopen
    refine ⟨ps ++ qs, closing, item :: items, by simp [Parsed.behind, hps, hqs], hc,
      by simp [Parsed.behind, hvalue], .cons hforms (fun h => ?_) hforms'⟩
    have helse := hopen h
    rw [hqs] at helse
    exact atKeyword_append helse
termination_by 2 * tokens.length + 1
decreasing_by all_goals omega

end

/-- What was read as a whole snippet is a list of `items`, made of pieces `ps`. -/
theorem forms_of_ofTokens {isType : String → Bool} {tokens : List SnippetToken}
    {items : List Item} (h : Item.ofTokens isType tokens = .ok items) :
    ∃ ps, tokensOf ps = tokens ∧ Forms isType (.items items) ps := by
  rw [Item.ofTokens] at h
  split at h
  · rename_i hempty
    cases h
    exact ⟨[], (List.isEmpty_iff.mp hempty).symm, .nil⟩
  · obtain ⟨⟨item, rest, hrest⟩, hitem, h⟩ := exists_of_bind_eq_ok h
    obtain ⟨items', hitems, h⟩ := exists_of_bind_eq_ok h
    cases h
    obtain ⟨ps, hps, hforms, hopen⟩ := forms_of_parse hitem
    obtain ⟨qs, hqs, hforms'⟩ := forms_of_ofTokens hitems
    simp only at hps hforms hopen
    exact ⟨ps ++ qs, by simp [hps, hqs], .cons hforms (hqs ▸ hopen) hforms'⟩
termination_by tokens.length

/-! ## An item is read -/

/-- Whether the next one of `tokens` is a name. -/
def atName (tokens : List SnippetToken) : Bool := tokens.head?.any SnippetToken.isName

/-- Two names in a row begin no expression: the tokens `ts` of one, and what is behind them, are at
no declaration. -/
theorem Reads.atDeclaration_append {phrase : Phrase} {ts : List SnippetToken}
    (h : Reads phrase ts) :
    match phrase with
    | .expr _ | .chain _ => ∀ rest, atName rest = false → atDeclaration (ts ++ rest) = false
    | _ => True := by
  have hmark : ∀ {t : SnippetToken} {c : Char} {rest : List SnippetToken}, t.isMark c = true →
      atName (t :: rest) = false := fun h => isName_of_isMark h
  have hfirst : ∀ {t : SnippetToken} {rest : List SnippetToken}, t.isName = false →
      atDeclaration (t :: rest) = false := by
    intro t rest h
    cases rest <;> simp [atDeclaration, h]
  have hsecond : ∀ {t : SnippetToken} {rest : List SnippetToken}, atName rest = false →
      atDeclaration (t :: rest) = false := by
    intro t rest h
    cases rest with
    | nil => rfl
    | cons u rest =>
      have hu : u.isName = false := h
      simp [atDeclaration, hu]
  induction h with
  | literal | self | name => exact fun rest h => hsecond h
  | paren ho => exact fun rest _ => hfirst (isName_of_isMark ho)
  | create hw =>
    intro rest _
    simp only [SnippetToken.isKeyword, Bool.and_eq_true, beq_iff_eq] at hw
    simp [atDeclaration, expressionKeywords, hw]
  | callOwn _ _ hargs =>
    intro rest _
    refine hsecond ?_
    cases hargs with
    | noArguments ho | someArguments ho => exact hmark ho
  | select _ hd _ ih | callOn _ hd _ _ ih =>
    intro rest _
    rw [List.append_assoc]
    exact ih _ (hmark hd)
  | plain _ ih => exact ih
  | assign _ he _ ih =>
    intro rest _
    rw [List.append_assoc]
    exact ih _ (hmark he)
  | _ => trivial

/-- An `item` begins with a token `t`, which is no closing brace. -/
theorem Forms.exists_cons {isType : String → Bool} {item : Item} {ps : List Piece}
    (h : Forms isType (.item item) ps) :
    ∃ t ts, tokensOf ps = t :: ts ∧ t.isMark '\x7d' = false := by
  cases h with
  | suppressed hs => exact ⟨_, _, rfl, isMark_of_ne hs (by decide)⟩
  | block ho => exact ⟨_, _, rfl, isMark_of_ne ho (by decide)⟩
  | leave hw | ret hw | branch hw | branchElse hw => exact ⟨_, _, rfl, isMark_of_isKeyword hw⟩
  | declare ht | declareValue ht => exact ⟨_, _, rfl, isMark_of_isName ht⟩
  | evaluate h =>
    obtain ⟨t, us, rfl, ht⟩ := h.exists_cons
    exact ⟨t, _, rfl, ht _ (by decide)⟩

/-! ### How an item is told by its first token -/

section

variable {isType : String → Bool} {first : SnippetToken} {tokens rest : List SnippetToken}

theorem parse_eq_returnStatement (h : first.isKeyword "return" = true) :
    Item.parse isType (first :: tokens) = returnStatement (first :: tokens) := by
  have hmark : ∀ c, atMark c (first :: tokens) = false :=
    fun c => isMark_of_isKeyword h
  have hword : atKeyword "return" (first :: tokens) = true := h
  rw [Item.parse]
  simp only [hmark, hword, if_true]
  rfl

theorem gives_branch {opening closing : SnippetToken} {condition : Expr}
    {ts : List SnippetToken} {yes : Item} (hw : first.isKeyword "if" = true)
    (ho : opening.isMark '(' = true) (h : Reads (.expr condition) ts)
    (hc : closing.isMark ')' = true) (hyes : Gives (Item.parse isType tokens) yes rest) :
    (atKeyword "else" rest = false →
      Gives (Item.parse isType (first :: opening :: (ts ++ closing :: tokens)))
        (.branch first.span.start condition yes none) rest) ∧
    ∀ other rest' no rest'', rest = other :: rest' → other.isKeyword "else" = true →
      Gives (Item.parse isType rest') no rest'' →
      Gives (Item.parse isType (first :: opening :: (ts ++ closing :: tokens)))
        (.branch first.span.start condition yes (some no)) rest'' := by
  have hmark : ∀ c tokens, atMark c (first :: tokens) = false :=
    fun c _ => isMark_of_isKeyword hw
  have hreturn : ∀ tokens, atKeyword "return" (first :: tokens) = false := fun _ => by
    simp [atKeyword, SnippetToken.isKeyword, (isKeyword_iff.mp hw).2]
  have hif : ∀ tokens, atKeyword "if" (first :: tokens) = true := fun _ => hw
  have hread : Gives (Expr.parse (ts ++ closing :: tokens)) condition (closing :: tokens) :=
    parse_of_reads h (.of_isMark hc (by decide))
  constructor
  · intro hother
    rw [Item.parse]
    simp only [hmark, hreturn, hif, if_true]
    refine Gives.bind ⟨_, rfl⟩ fun _ => (mark_cons ho).bind fun _ => hread.bind fun _ => ?_
    refine (mark_cons hc).bind fun _ => hyes.bind fun _ => ?_
    simp only [hother]
    exact ⟨_, rfl⟩
  · rintro other rest' no rest'' rfl hother hno
    have helse : atKeyword "else" (other :: rest') = true := hother
    rw [Item.parse]
    simp only [hmark, hreturn, hif, if_true]
    refine Gives.bind ⟨_, rfl⟩ fun _ => (mark_cons ho).bind fun _ => hread.bind fun _ => ?_
    refine (mark_cons hc).bind fun _ => hyes.bind fun _ => ?_
    simp only [helse, if_true]
    exact Gives.bind ⟨_, rfl⟩ fun _ => hno.bind fun _ => ⟨_, rfl⟩

theorem parse_eq_declaration {second : SnippetToken} (ht : first.isName = true)
    (hfree : first.text ∉ "return" :: "if" :: expressionKeywords) (hp : second.isName = true) :
    Item.parse isType (first :: second :: tokens) =
      declaration isType (first :: second :: tokens) := by
  have hmark : ∀ c, atMark c (first :: second :: tokens) = false := fun c => isMark_of_isName ht
  simp only [List.mem_cons, not_or] at hfree
  have hreturn : atKeyword "return" (first :: second :: tokens) = false := by
    simp [atKeyword, SnippetToken.isKeyword, hfree.1]
  have hif : atKeyword "if" (first :: second :: tokens) = false := by
    simp [atKeyword, SnippetToken.isKeyword, hfree.2.1]
  have hat : atDeclaration (first :: second :: tokens) = true := by
    simp [atDeclaration, ht, hp, hfree]
  rw [Item.parse]
  simp only [hmark, hreturn, hif, hat, if_true]
  rfl

theorem parse_eq_expressionStatement {value : Expr} {ts : List SnippetToken}
    (h : Reads (.expr value) ts) (hreturn : atKeyword "return" ts = false)
    (hif : atKeyword "if" ts = false) (hrest : atName rest = false) :
    Item.parse isType (ts ++ rest) = expressionStatement (ts ++ rest) := by
  have hat := h.atDeclaration_append rest hrest
  obtain ⟨t, us, rfl, ht⟩ := h.exists_cons
  have hsign : atMark '@' (t :: us ++ rest) = false := ht _ (by decide)
  have hbrace : atMark '\x7b' (t :: us ++ rest) = false := ht _ (by decide)
  have hreturn' : atKeyword "return" (t :: us ++ rest) = false := hreturn
  have hif' : atKeyword "if" (t :: us ++ rest) = false := hif
  rw [Item.parse]
  simp only [hsign, hbrace, hreturn', hif', hat]
  rfl

end

/-! ### What the readers give, item by item -/

section

variable {isType : String → Bool} {word semicolon opening closing : SnippetToken}
variable {tokens rest rest' ts : List SnippetToken} {value : Expr} {item : Item}
variable {before items : List Item} {stop : Nat}

theorem gives_suppressed {sign : SnippetToken} {body : List SnippetToken}
    (hs : sign.isMark '@' = true) (hw : word.isKeyword "Suppress" = true)
    (ho : opening.isMark '(' = true) (hbody : ∀ t ∈ body, t.isMark ')' = false)
    (hc : closing.isMark ')' = true) (h : Gives (Item.parse isType tokens) item rest) :
    Gives (Item.parse isType (sign :: word :: opening :: (body ++ closing :: tokens)))
      (.suppressed (keysOf body) item) rest := by
  rw [Item.parse]
  simp only [atMark_cons, hs, if_true]
  exact (gives_suppressTag hs hw ho hbody hc).bind fun _ => h.bind fun _ => ⟨_, rfl⟩

theorem gives_block (ho : opening.isMark '\x7b' = true)
    (h : Gives (blockRest isType [] tokens) (items, stop) rest) :
    Gives (Item.parse isType (opening :: tokens)) (.block items ⟨opening.span.start, stop⟩)
      rest := by
  have hsign : opening.isMark '@' = false := isMark_of_ne ho (by decide)
  rw [Item.parse]
  simp only [atMark_cons, hsign, ho, if_true]
  exact (mark_cons ho).bind fun _ => h.bind fun _ => ⟨_, rfl⟩

theorem gives_leave (hw : word.isKeyword "return" = true) (hs : semicolon.isMark ';' = true) :
    Gives (Item.parse isType (word :: semicolon :: rest))
      (.ret none ⟨word.span.start, semicolon.span.stop⟩) rest := by
  have hsemicolon : atMark ';' (semicolon :: rest) = true := hs
  rw [parse_eq_returnStatement hw, returnStatement]
  refine Gives.bind ⟨_, rfl⟩ fun _ => ?_
  simp only [hsemicolon, if_true]
  exact (mark_cons hs).bind fun _ => ⟨_, rfl⟩

theorem gives_ret (hw : word.isKeyword "return" = true) (h : Reads (.expr value) ts)
    (hs : semicolon.isMark ';' = true) :
    Gives (Item.parse isType (word :: (ts ++ semicolon :: rest)))
      (.ret (some value) ⟨word.span.start, semicolon.span.stop⟩) rest := by
  have hsemicolon : atMark ';' (ts ++ semicolon :: rest) = false := by
    obtain ⟨t, us, rfl, ht⟩ := h.exists_cons
    exact ht _ (by decide)
  rw [parse_eq_returnStatement hw, returnStatement]
  refine Gives.bind ⟨_, rfl⟩ fun _ => ?_
  simp only [hsemicolon]
  refine (parse_of_reads h (.of_isMark hs (by decide))).bind fun _ => ?_
  exact (mark_cons hs).bind fun _ => ⟨_, rfl⟩

theorem gives_declare {type place : SnippetToken} (ht : type.isName = true)
    (hfree : type.text ∉ "return" :: "if" :: expressionKeywords) (htype : isType type.text = true)
    (hp : place.isName = true) (hs : semicolon.isMark ';' = true) :
    Gives (Item.parse isType (type :: place :: semicolon :: rest))
      (.declare type.text place.text none ⟨type.span.start, semicolon.span.stop⟩) rest := by
  have hequals : atMark '=' (semicolon :: rest) = false := isMark_of_ne hs (by decide)
  rw [parse_eq_declaration ht hfree hp, declaration]
  refine (name_cons ht).bind fun _ => ?_
  simp only [htype]
  refine (name_cons hp).bind fun _ => ?_
  simp only [hequals]
  exact (mark_cons hs).bind fun _ => ⟨_, rfl⟩

theorem gives_declareValue {type place equals : SnippetToken} (ht : type.isName = true)
    (hfree : type.text ∉ "return" :: "if" :: expressionKeywords) (htype : isType type.text = true)
    (hp : place.isName = true) (he : equals.isMark '=' = true) (h : Reads (.expr value) ts)
    (hs : semicolon.isMark ';' = true) :
    Gives (Item.parse isType (type :: place :: equals :: (ts ++ semicolon :: rest)))
      (.declare type.text place.text (some value) ⟨type.span.start, semicolon.span.stop⟩)
      rest := by
  have hequals : atMark '=' (equals :: (ts ++ semicolon :: rest)) = true := he
  rw [parse_eq_declaration ht hfree hp, declaration]
  refine (name_cons ht).bind fun _ => ?_
  simp only [htype]
  refine (name_cons hp).bind fun _ => ?_
  simp only [hequals, if_true]
  refine (mark_cons he).bind fun _ => ?_
  refine (parse_of_reads h (.of_isMark hs (by decide))).bind fun _ => ?_
  exact (mark_cons hs).bind fun _ => ⟨_, rfl⟩

theorem gives_evaluate (h : Reads (.expr value) ts) (hreturn : atKeyword "return" ts = false)
    (hif : atKeyword "if" ts = false) (hs : semicolon.isMark ';' = true) :
    Gives (Item.parse isType (ts ++ semicolon :: rest)) (.evaluate value semicolon.span.stop)
      rest := by
  have hname : atName (semicolon :: rest) = false := isName_of_isMark hs
  rw [parse_eq_expressionStatement h hreturn hif hname, expressionStatement]
  refine (parse_of_reads h (.of_isMark hs (by decide))).bind fun _ => ?_
  exact (mark_cons hs).bind fun _ => ⟨_, rfl⟩

theorem gives_noItem (hc : closing.isMark '\x7d' = true) :
    Gives (blockRest isType before (closing :: rest)) (before.reverse, closing.span.stop) rest := by
  rw [blockRest]
  simp only [atMark_cons, hc, if_true]
  exact (mark_cons hc).bind fun _ => ⟨_, rfl⟩

theorem gives_moreItems (hbrace : atMark '\x7d' tokens = false)
    (h : Gives (Item.parse isType tokens) item rest)
    (hrest : Gives (blockRest isType (item :: before) rest) (items, stop) rest') :
    Gives (blockRest isType before tokens) (items, stop) rest' := by
  rw [blockRest]
  simp only [hbrace]
  exact h.bind fun _ => hrest.bind fun _ => ⟨_, rfl⟩

theorem ofTokens_eq_cons (hsome : tokens.isEmpty = false)
    (h : Gives (Item.parse isType tokens) item rest)
    (hrest : Item.ofTokens isType rest = .ok items) :
    Item.ofTokens isType tokens = .ok (item :: items) := by
  obtain ⟨_, hitem⟩ := h
  rw [Item.ofTokens, if_neg (by simp [hsome]), hitem]
  simp only [bind, Except.bind, hrest]

end

/-- The passage is read from the pieces `ps` that it is made of. -/
def IsParsed (isType : String → Bool) (ps : List Piece) : Passage → Prop
  | .item i => ∀ rest, (i.isOpen = true → atKeyword "else" rest = false) →
    Gives (Item.parse isType (tokensOf ps ++ rest)) i rest
  | .items is =>
    (∀ before closing rest, closing.isMark '\x7d' = true →
      Gives (blockRest isType before (tokensOf ps ++ closing :: rest))
        (before.reverse ++ is, closing.span.stop) rest) ∧
    Item.ofTokens isType (tokensOf ps) = .ok is

/-- What `Forms` says of a passage and its pieces is what the readers do, in front of any tokens with
which the passage does not go on. -/
theorem Forms.isParsed {isType : String → Bool} {passage : Passage} {ps : List Piece}
    (h : Forms isType passage ps) : IsParsed isType ps passage := by
  -- One rule of `Forms` for each branch of `Item.parse` and of `blockRest`. An item that an `else`
  -- would continue is read in front of tokens that do not begin with one.
  induction h with
  | suppressed hs hw ho hbody hc _ ih =>
    intro rest hopen
    rw [tokensOf_append, tokensOf_map_token, List.append_assoc, List.append_assoc]
    exact gives_suppressed hs hw ho hbody hc (ih rest hopen)
  | @block opening closing items ps ho h hc ih =>
    intro rest _
    have happend : tokensOf (.token opening :: ps ++ [.token closing]) ++ rest =
        opening :: (tokensOf ps ++ closing :: rest) := by
      simp [Piece.tokens]
    rw [happend]
    exact gives_block ho (ih.1 [] closing rest hc)
  | leave hw hs => exact fun rest _ => gives_leave hw hs
  | ret hw h hs =>
    intro rest _
    rw [tokensOf_map_token, List.append_assoc]
    exact gives_ret hw h hs
  | branch hw ho h hc _ ih =>
    intro rest hopen
    have hother := hopen rfl
    rw [tokensOf_append, tokensOf_map_token, List.append_assoc, List.append_assoc]
    exact (gives_branch hw ho h hc (ih rest fun _ => hother)).1 hother
  | @branchElse word opening closing other condition ts yes no ps qs hw ho h hc hyes hclosed hother
      hno ih ihno =>
    intro rest hopen
    rw [tokensOf_append, tokensOf_append, tokensOf_map_token, List.append_assoc, List.append_assoc,
      List.append_assoc]
    exact (gives_branch hw ho h hc (ih _ (by simp [hclosed]))).2 other _ no rest rfl hother
      (ihno rest hopen)
  | declare ht hfree htype hp hs => exact fun rest _ => gives_declare ht hfree htype hp hs
  | declareValue ht hfree htype hp he h hs =>
    intro rest _
    rw [tokensOf_map_token, List.append_assoc]
    exact gives_declareValue ht hfree htype hp he h hs
  | @evaluate value ts semicolon h hreturn hif hs =>
    intro rest _
    have happend : tokensOf [.statement value ts semicolon] ++ rest = ts ++ semicolon :: rest := by
      simp [Piece.tokens]
    rw [happend]
    exact gives_evaluate h hreturn hif hs
  | nil =>
    refine ⟨fun before closing rest hc => ?_, by simp [Item.ofTokens]⟩
    rw [List.append_nil]
    exact gives_noItem hc
  | @cons item items ps qs h hopen hrest ih ihrest =>
    obtain ⟨ihblock, ihwhole⟩ := ihrest
    obtain ⟨t, ts, htokens, ht⟩ := h.exists_cons
    rw [IsParsed, tokensOf_append]
    constructor
    · intro before closing rest hc
      have hbrace : atMark '\x7d' (tokensOf ps ++ (tokensOf qs ++ closing :: rest)) = false := by
        rw [htokens]
        exact ht
      have helse : item.isOpen = true →
          atKeyword "else" (tokensOf qs ++ closing :: rest) = false :=
        fun hitem => atKeyword_append_eq_false (hopen hitem) (atKeyword_of_isMark hc)
      -- The readers keep the items read so far newest first.
      have hgives := ihblock (item :: before) closing rest hc
      rw [List.reverse_cons, List.append_assoc] at hgives
      rw [List.append_assoc]
      exact gives_moreItems hbrace (ih _ helse) hgives
    · exact ofTokens_eq_cons (by simp [htokens]) (ih (tokensOf qs) hopen) ihwhole

/-- Pieces `ps` that make up `items` are read as them. -/
theorem ofTokens_of_forms {isType : String → Bool} {items : List Item} {ps : List Piece}
    (h : Forms isType (.items items) ps) : Item.ofTokens isType (tokensOf ps) = .ok items :=
  h.isParsed.2

end TreeLint.Snippet
