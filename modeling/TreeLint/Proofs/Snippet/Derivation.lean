import TreeLint.Proofs.Snippet.Building
import TreeLint.Proofs.Snippet.Faults
import TreeLint.Proofs.Snippet.Places

/-!
# Which snippets are parsed

The language of snippets is given by a grammar over tokens. A text is parsed exactly when it is cut
into tokens that the grammar derives; nothing behind the readers ever refuses a snippet.

- `Produces`: the rules for expressions. `Derives`: the rules for statements, which look at the
  tokens behind, since an `else` belongs to the `if` nearest in front of it.
- `produces_iff`, `derives_iff`: what the rules derive is what `Reads` and `Forms` read.
- `exists_parse_iff_derives`: the texts that are parsed.
-/

namespace TreeLint.Snippet

/-! ## Rules -/

/-- The symbols for parts of expressions: `expr` is the whole one. -/
inductive ExprSymbol where
  | expr
  /-- A primary expression with the members selected from it. -/
  | chain
  /-- Members selected one after the other. -/
  | links
  | primary
  /-- The arguments of a call between the brackets. -/
  | arguments
  /-- The arguments behind the first. -/
  | moreArguments

/-- The token `t` is one of the keywords that are literals. -/
def IsLiteralWord (t : SnippetToken) : Prop :=
  t.isKeyword "true" = true ∨ t.isKeyword "false" = true ∨ t.isKeyword "null" = true

/-- The rules for expressions: the symbol derives the tokens. -/
inductive Produces : ExprSymbol → List SnippetToken → Prop
  | chain {ts : List SnippetToken} (h : Produces .chain ts) : Produces .expr ts
  | assign {equals : SnippetToken} {ts us : List SnippetToken} (h : Produces .chain ts)
      (he : equals.isMark '=' = true) (hvalue : Produces .expr us) :
      Produces .expr (ts ++ equals :: us)
  | primary {ts us : List SnippetToken} (h : Produces .primary ts) (hlinks : Produces .links us) :
      Produces .chain (ts ++ us)
  | noLink : Produces .links []
  | select {dot member : SnippetToken} {us : List SnippetToken} (hd : dot.isMark '.' = true)
      (hm : member.isName = true) (hlinks : Produces .links us) :
      Produces .links (dot :: member :: us)
  | callOn {dot member opening closing : SnippetToken} {ts us : List SnippetToken}
      (hd : dot.isMark '.' = true) (hm : member.isName = true) (ho : opening.isMark '(' = true)
      (h : Produces .arguments ts) (hc : closing.isMark ')' = true)
      (hlinks : Produces .links us) :
      Produces .links (dot :: member :: opening :: ts ++ closing :: us)
  | string {t : SnippetToken} (h : t.kind = .string) : Produces .primary [t]
  | number {t : SnippetToken} (h : t.kind = .number) : Produces .primary [t]
  | word {t : SnippetToken} (h : IsLiteralWord t) : Produces .primary [t]
  | self {t : SnippetToken} (h : t.isKeyword "this" = true) : Produces .primary [t]
  | paren {opening closing : SnippetToken} {ts : List SnippetToken}
      (ho : opening.isMark '(' = true) (h : Produces .expr ts) (hc : closing.isMark ')' = true) :
      Produces .primary (opening :: ts ++ [closing])
  | create {word type opening closing : SnippetToken} {ts : List SnippetToken}
      (hw : word.isKeyword "new" = true) (ht : type.isName = true) (ho : opening.isMark '(' = true)
      (h : Produces .arguments ts) (hc : closing.isMark ')' = true) :
      Produces .primary (word :: type :: opening :: ts ++ [closing])
  | callOwn {t opening closing : SnippetToken} {ts : List SnippetToken} (ht : t.isName = true)
      (hfree : t.text ∉ expressionKeywords) (ho : opening.isMark '(' = true)
      (h : Produces .arguments ts) (hc : closing.isMark ')' = true) :
      Produces .primary (t :: opening :: ts ++ [closing])
  | name {t : SnippetToken} (h : t.isName = true) (hfree : t.text ∉ expressionKeywords) :
      Produces .primary [t]
  | noArgument : Produces .arguments []
  | argument {ts us : List SnippetToken} (h : Produces .expr ts)
      (hmore : Produces .moreArguments us) : Produces .arguments (ts ++ us)
  | noMore : Produces .moreArguments []
  | more {comma : SnippetToken} {ts us : List SnippetToken} (hc : comma.isMark ',' = true)
      (h : Produces .expr ts) (hmore : Produces .moreArguments us) :
      Produces .moreArguments (comma :: ts ++ us)

/-- The symbols for statements: `items` is a whole snippet. -/
inductive Symbol where
  /-- The items of a block or of a whole snippet. -/
  | items
  | item
  | statement

/-- The rules for statements. `Derives isType symbol ts rest` derives `ts` in front of `rest`; the
names of types are those for which `isType` holds. -/
inductive Derives (isType : String → Bool) :
    Symbol → (ts rest : List SnippetToken) → Prop
  | nil {rest : List SnippetToken} : Derives isType .items [] rest
  | cons {ts us rest : List SnippetToken} (h : Derives isType .item ts (us ++ rest))
      (hrest : Derives isType .items us rest) : Derives isType .items (ts ++ us) rest
  | suppressed {sign word opening closing : SnippetToken} {body ts rest : List SnippetToken}
      (hs : sign.isMark '@' = true) (hw : word.isKeyword "Suppress" = true)
      (ho : opening.isMark '(' = true) (hbody : ∀ t ∈ body, t.isMark ')' = false)
      (hc : closing.isMark ')' = true) (h : Derives isType .item ts rest) :
      Derives isType .item (sign :: word :: opening :: body ++ closing :: ts) rest
  | block {opening closing : SnippetToken} {ts rest : List SnippetToken}
      (ho : opening.isMark '\x7b' = true) (h : Derives isType .items ts (closing :: rest))
      (hc : closing.isMark '\x7d' = true) :
      Derives isType .item (opening :: ts ++ [closing]) rest
  | statement {ts rest : List SnippetToken} (h : Derives isType .statement ts rest) :
      Derives isType .item ts rest
  | leave {word semicolon : SnippetToken} {rest : List SnippetToken}
      (hw : word.isKeyword "return" = true) (hs : semicolon.isMark ';' = true) :
      Derives isType .statement [word, semicolon] rest
  | ret {word semicolon : SnippetToken} {ts rest : List SnippetToken}
      (hw : word.isKeyword "return" = true) (h : Produces .expr ts)
      (hs : semicolon.isMark ';' = true) :
      Derives isType .statement (word :: ts ++ [semicolon]) rest
  | branch {word opening closing : SnippetToken} {ts us rest : List SnippetToken}
      (hw : word.isKeyword "if" = true) (ho : opening.isMark '(' = true) (h : Produces .expr ts)
      (hc : closing.isMark ')' = true) (hyes : Derives isType .item us rest)
      (hother : atKeyword "else" rest = false) :
      Derives isType .statement (word :: opening :: ts ++ closing :: us) rest
  | branchElse {word opening closing other : SnippetToken} {ts us vs rest : List SnippetToken}
      (hw : word.isKeyword "if" = true) (ho : opening.isMark '(' = true) (h : Produces .expr ts)
      (hc : closing.isMark ')' = true) (hyes : Derives isType .item us (other :: vs ++ rest))
      (hother : other.isKeyword "else" = true) (hno : Derives isType .item vs rest) :
      Derives isType .statement (word :: opening :: ts ++ closing :: us ++ other :: vs) rest
  | declare {type place semicolon : SnippetToken} {rest : List SnippetToken}
      (ht : type.isName = true) (hfree : type.text ∉ "return" :: "if" :: expressionKeywords)
      (htype : isType type.text = true) (hp : place.isName = true)
      (hs : semicolon.isMark ';' = true) :
      Derives isType .statement [type, place, semicolon] rest
  | declareValue {type place equals semicolon : SnippetToken} {ts rest : List SnippetToken}
      (ht : type.isName = true) (hfree : type.text ∉ "return" :: "if" :: expressionKeywords)
      (htype : isType type.text = true) (hp : place.isName = true)
      (he : equals.isMark '=' = true) (h : Produces .expr ts) (hs : semicolon.isMark ';' = true) :
      Derives isType .statement (type :: place :: equals :: ts ++ [semicolon]) rest
  | evaluate {semicolon : SnippetToken} {ts rest : List SnippetToken} (h : Produces .expr ts)
      (hreturn : atKeyword "return" ts = false) (hif : atKeyword "if" ts = false)
      (hs : semicolon.isMark ';' = true) :
      Derives isType .statement (ts ++ [semicolon]) rest

/-! ## Expressions -/

/-- Members `us` behind members `ts` are members. -/
theorem Produces.links_append {symbol : ExprSymbol} {ts us : List SnippetToken}
    (h : Produces symbol ts) (hsymbol : symbol = .links) (hus : Produces .links us) :
    Produces .links (ts ++ us) := by
  induction h with
  | noLink => exact hus
  | select hd hm _ ih => exact .select hd hm (ih hsymbol)
  | @callOn dot member opening closing ts' us' hd hm ho h hc _ _ ih =>
    simpa using Produces.callOn hd hm ho h hc (ih hsymbol)
  | _ => cases hsymbol

theorem Produces.chain_append {ts us : List SnippetToken} (h : Produces .chain ts)
    (hus : Produces .links us) : Produces .chain (ts ++ us) := by
  cases h with
  | primary hfirst hlinks =>
    rw [List.append_assoc]
    exact .primary hfirst (hlinks.links_append rfl hus)

theorem Produces.chain_of_primary {ts : List SnippetToken} (h : Produces .primary ts) :
    Produces .chain ts := by
  simpa using Produces.primary h .noLink

theorem produces_of_literalKind? {t : SnippetToken} {kind : LiteralKind}
    (h : literalKind? t = some kind) : Produces .primary [t] := by
  unfold literalKind? at h
  split at h
  · exact .string ‹_›
  · exact .number ‹_›
  · rename_i hkind
    have hname : t.isName = true := by simp [SnippetToken.isName, hkind]
    refine .word ?_
    simp only [IsLiteralWord, SnippetToken.isKeyword, hname, Bool.true_and, beq_iff_eq]
    grind
  · cases h

/-- What a phrase made of `ts` is to the grammar. -/
def Phrase.Produced (ts : List SnippetToken) : Phrase → Prop
  | .expr _ => Produces .expr ts
  | .chain _ => Produces .chain ts
  | .arguments _ _ => ∃ opening us closing, ts = opening :: us ++ [closing] ∧
      opening.isMark '(' = true ∧ Produces .arguments us ∧ closing.isMark ')' = true
  | .moreArguments _ _ => ∃ us closing, ts = us ++ [closing] ∧ Produces .moreArguments us ∧
      closing.isMark ')' = true

/-- What is read as `phrase` is derived. -/
theorem Reads.produced {phrase : Phrase} {ts : List SnippetToken} (h : Reads phrase ts) :
    phrase.Produced ts := by
  induction h with
  | literal h => exact (produces_of_literalKind? h).chain_of_primary
  | self h => exact (Produces.self h).chain_of_primary
  | name h hfree => exact (Produces.name h hfree).chain_of_primary
  | paren ho _ hc ih => exact (Produces.paren ho ih hc).chain_of_primary
  | create hw ht _ ih =>
    obtain ⟨opening, us, closing, rfl, ho, hargs, hc⟩ := ih
    exact (Produces.create hw ht ho hargs hc).chain_of_primary
  | callOwn ht hfree _ ih =>
    obtain ⟨opening, us, closing, rfl, ho, hargs, hc⟩ := ih
    exact (Produces.callOwn ht hfree ho hargs hc).chain_of_primary
  | select _ hd hm ih => exact ih.chain_append (.select hd hm .noLink)
  | callOn _ hd hm _ ih ihargs =>
    obtain ⟨opening, us, closing, rfl, ho, hargs, hc⟩ := ihargs
    exact ih.chain_append (.callOn hd hm ho hargs hc .noLink)
  | plain _ ih => exact .chain ih
  | assign _ he _ ih ihvalue => exact .assign ih he ihvalue
  | noArguments ho hc => exact ⟨_, [], _, rfl, ho, .noArgument, hc⟩
  | someArguments ho _ _ ih ihmore =>
    obtain ⟨us, closing, rfl, hmore, hc⟩ := ihmore
    exact ⟨_, _, closing, by simp, ho, .argument ih hmore, hc⟩
  | noMore hc => exact ⟨[], _, rfl, .noMore, hc⟩
  | more hcomma _ _ ih ihmore =>
    obtain ⟨us, closing, rfl, hmore, hc⟩ := ihmore
    exact ⟨_, closing, by simp, .more hcomma ih hmore, hc⟩

theorem exists_literalKind? {t : SnippetToken} (h : IsLiteralWord t) :
    ∃ kind, literalKind? t = some kind := by
  simp only [IsLiteralWord, SnippetToken.isKeyword, SnippetToken.isName, Bool.and_eq_true,
    decide_eq_true_eq, beq_iff_eq] at h
  rcases h with ⟨hkind, htext⟩ | ⟨hkind, htext⟩ | ⟨hkind, htext⟩ <;>
    simp [literalKind?, hkind, htext]

/-- What a symbol that derives `ts` is to the readers. Members are read behind any `receiver`, and
arguments between any brackets `opening` and `closing`. -/
def ExprSymbol.Read (ts : List SnippetToken) : ExprSymbol → Prop
  | .expr => ∃ e, Reads (.expr e) ts
  | .chain | .primary => ∃ e, Reads (.chain e) ts
  | .links => ∀ us receiver, Reads (.chain receiver) us → ∃ e, Reads (.chain e) (us ++ ts)
  | .arguments => ∀ opening closing, opening.isMark '(' = true → closing.isMark ')' = true →
      ∃ es stop, Reads (.arguments es stop) (opening :: ts ++ [closing])
  | .moreArguments => ∀ closing, closing.isMark ')' = true →
      ∃ es stop, Reads (.moreArguments es stop) (ts ++ [closing])

/-- What `symbol` derives is read. -/
theorem Produces.read {symbol : ExprSymbol} {ts : List SnippetToken} (h : Produces symbol ts) :
    symbol.Read ts := by
  -- Links are read behind whatever chain is in front of them, and arguments between any two brackets,
  -- so `Read` is about all of these and the hypotheses are used at the ones met.
  induction h with
  | chain _ ih =>
    obtain ⟨e, hreads⟩ := ih
    exact ⟨e, .plain hreads⟩
  | assign _ he _ ih ihvalue =>
    obtain ⟨target, htarget⟩ := ih
    obtain ⟨value, hvalue⟩ := ihvalue
    exact ⟨_, .assign htarget he hvalue⟩
  | primary _ _ ih ihlinks =>
    obtain ⟨first, hfirst⟩ := ih
    exact ihlinks _ first hfirst
  | noLink =>
    intro us receiver hreceiver
    exact ⟨receiver, by simpa using hreceiver⟩
  | select hd hm _ ih =>
    intro us receiver hreceiver
    obtain ⟨e, he⟩ := ih _ _ (.select hreceiver hd hm)
    exact ⟨e, by simpa using he⟩
  | callOn hd hm ho _ hc _ ih ihlinks =>
    intro us receiver hreceiver
    obtain ⟨es, stop, hargs⟩ := ih _ _ ho hc
    obtain ⟨e, he⟩ := ihlinks _ _ (.callOn hreceiver hd hm hargs)
    exact ⟨e, by simpa using he⟩
  | string h => exact ⟨.literal .string _, .literal (by simp [literalKind?, h])⟩
  | number h => exact ⟨.literal .number _, .literal (by simp [literalKind?, h])⟩
  | word h =>
    obtain ⟨kind, hkind⟩ := exists_literalKind? h
    exact ⟨_, .literal hkind⟩
  | self h => exact ⟨_, .self h⟩
  | paren ho _ hc ih =>
    obtain ⟨inner, hinner⟩ := ih
    exact ⟨_, .paren ho hinner hc⟩
  | create hw ht ho _ hc ih =>
    obtain ⟨es, stop, hargs⟩ := ih _ _ ho hc
    exact ⟨_, .create hw ht hargs⟩
  | callOwn ht hfree ho _ hc ih =>
    obtain ⟨es, stop, hargs⟩ := ih _ _ ho hc
    exact ⟨_, .callOwn ht hfree hargs⟩
  | name h hfree => exact ⟨_, .name h hfree⟩
  | noArgument => exact fun opening closing ho hc => ⟨_, _, .noArguments ho hc⟩
  | argument _ _ ih ihmore =>
    intro opening closing ho hc
    obtain ⟨e, he⟩ := ih
    obtain ⟨es, stop, hmore⟩ := ihmore closing hc
    exact ⟨_, stop, by simpa using Reads.someArguments ho he hmore⟩
  | noMore => exact fun closing hc => ⟨_, _, .noMore hc⟩
  | more hcomma _ _ ih ihmore =>
    intro closing hc
    obtain ⟨e, he⟩ := ih
    obtain ⟨es, stop, hmore⟩ := ihmore closing hc
    exact ⟨_, stop, by simpa using Reads.more hcomma he hmore⟩

/-- The tokens of expressions are those that the rules derive from `.expr`. -/
theorem produces_iff {ts : List SnippetToken} : Produces .expr ts ↔ ∃ e, Reads (.expr e) ts :=
  ⟨fun h => h.read, fun ⟨_, h⟩ => h.produced⟩

/-! ## Statements -/

variable {isType : String → Bool}

/-- A passage is derived in front of tokens `rest` that do not go on with it. -/
def Passage.Derived (isType : String → Bool) (ts : List SnippetToken) : Passage → Prop
  | .item i => ∀ rest, (i.isOpen = true → atKeyword "else" rest = false) →
      Derives isType .item ts rest
  | .items _ => ∀ rest, atKeyword "else" rest = false → Derives isType .items ts rest

/-- What is read as `passage` is derived. -/
theorem Forms.derived {passage : Passage} {ps : List Piece} (h : Forms isType passage ps) :
    passage.Derived isType (tokensOf ps) := by
  induction h with
  | suppressed hs hw ho hbody hc _ ih =>
    intro rest hrest
    rw [tokensOf_append, tokensOf_map_token]
    simpa using Derives.suppressed hs hw ho hbody hc (ih rest hrest)
  | block ho _ hc ih =>
    intro rest _
    simpa [Piece.tokens] using
      Derives.block ho (ih (_ :: rest) (atKeyword_of_isMark hc)) hc
  | leave hw hs => exact fun rest _ => .statement (.leave hw hs)
  | ret hw h hs =>
    intro rest _
    rw [tokensOf_map_token]
    exact .statement (.ret hw h.produced hs)
  | branch hw ho h hc _ ih =>
    intro rest hrest
    have hother : atKeyword "else" rest = false := hrest rfl
    rw [tokensOf_append, tokensOf_map_token]
    simpa using Derives.statement (.branch hw ho h.produced hc (ih rest fun _ => hother) hother)
  | @branchElse word opening closing other condition ts yes no ps qs hw ho h hc _ hclosed hother _
      ih ihno =>
    intro rest hrest
    have hyes := ih (other :: tokensOf qs ++ rest) fun hopen => by simp [hclosed] at hopen
    rw [tokensOf_append, tokensOf_append, tokensOf_map_token, tokensOf_cons]
    simpa [Piece.tokens] using
      Derives.statement (.branchElse hw ho h.produced hc hyes hother (ihno rest hrest))
  | declare ht hfree htype hp hs =>
    intro rest _
    rw [tokensOf_map_token]
    exact .statement (.declare ht hfree htype hp hs)
  | declareValue ht hfree htype hp he h hs =>
    intro rest _
    rw [tokensOf_map_token]
    exact .statement (.declareValue ht hfree htype hp he h.produced hs)
  | evaluate h hreturn hif hs =>
    intro rest _
    simpa [Piece.tokens] using Derives.statement (.evaluate h.produced hreturn hif hs)
  | nil => exact fun rest _ => .nil
  | cons _ hopen _ ih ihrest =>
    intro rest hrest
    rw [tokensOf_append]
    exact .cons (ih _ fun h => atKeyword_append_eq_false (hopen h) hrest) (ihrest rest hrest)

/-- What a symbol that derives `ts` in front of `rest` is to the readers. -/
def Symbol.Read (isType : String → Bool) (ts rest : List SnippetToken) : Symbol → Prop
  | .items => ∃ is ps, tokensOf ps = ts ∧ Forms isType (.items is) ps
  | .item | .statement => ∃ i ps, tokensOf ps = ts ∧ Forms isType (.item i) ps ∧
      (i.isOpen = true → atKeyword "else" rest = false)

/-- What `symbol` derives is read. -/
theorem Derives.read {symbol : Symbol} {ts rest : List SnippetToken}
    (h : Derives isType symbol ts rest) : symbol.Read isType ts rest := by
  induction h with
  | nil => exact ⟨_, [], rfl, .nil⟩
  | cons _ _ ih ihrest =>
    obtain ⟨item, ps, rfl, hforms, hopen⟩ := ih
    obtain ⟨items, qs, rfl, hforms'⟩ := ihrest
    exact ⟨_, ps ++ qs, tokensOf_append ps qs,
      .cons hforms (fun h => atKeyword_append (hopen h)) hforms'⟩
  | suppressed hs hw ho hbody hc _ ih =>
    obtain ⟨item, ps, rfl, hforms, hopen⟩ := ih
    refine ⟨_, _, ?_, .suppressed hs hw ho hbody hc hforms, hopen⟩
    rw [tokensOf_append, tokensOf_map_token]
    simp
  | block ho _ hc ih =>
    obtain ⟨items, ps, rfl, hforms⟩ := ih
    exact ⟨_, _, by simp [Piece.tokens], .block ho hforms hc, by simp [Item.isOpen]⟩
  | statement _ ih => exact ih
  | leave hw hs => exact ⟨_, _, rfl, .leave hw hs, by simp [Item.isOpen]⟩
  | ret hw h hs =>
    obtain ⟨value, hvalue⟩ := produces_iff.mp h
    exact ⟨_, _, tokensOf_map_token _, .ret hw hvalue hs, by simp [Item.isOpen]⟩
  | branch hw ho h hc _ hother ih =>
    obtain ⟨condition, hcondition⟩ := produces_iff.mp h
    obtain ⟨yes, ps, rfl, hforms, -⟩ := ih
    refine ⟨_, _, ?_, .branch hw ho hcondition hc hforms, fun _ => hother⟩
    rw [tokensOf_append, tokensOf_map_token]
    simp
  | @branchElse word opening closing other ts us vs rest hw ho h hc _ hother _ ih ihno =>
    obtain ⟨condition, hcondition⟩ := produces_iff.mp h
    obtain ⟨yes, ps, rfl, hforms, hopen⟩ := ih
    obtain ⟨no, qs, rfl, hforms', hopen'⟩ := ihno
    -- Were the first branch open, this `else` would have become part of it.
    have hclosed : yes.isOpen = false := Bool.eq_false_iff.mpr fun hyes => by
      have helse := hopen hyes
      simp [atKeyword, hother] at helse
    refine ⟨_, _, ?_, .branchElse hw ho hcondition hc hforms hclosed hother hforms', hopen'⟩
    rw [tokensOf_append, tokensOf_append, tokensOf_map_token, tokensOf_cons]
    simp [Piece.tokens]
  | declare ht hfree htype hp hs =>
    exact ⟨_, _, tokensOf_map_token _, .declare ht hfree htype hp hs, by simp [Item.isOpen]⟩
  | declareValue ht hfree htype hp he h hs =>
    obtain ⟨value, hvalue⟩ := produces_iff.mp h
    exact ⟨_, _, tokensOf_map_token _, .declareValue ht hfree htype hp he hvalue hs,
      by simp [Item.isOpen]⟩
  | evaluate h hreturn hif hs =>
    obtain ⟨value, hvalue⟩ := produces_iff.mp h
    exact ⟨_, _, by simp [Piece.tokens], .evaluate hvalue hreturn hif hs, by simp [Item.isOpen]⟩

/-- The `tokens` that are read as items up to their end are those that the rules derive from
`.items`. -/
theorem derives_iff {tokens : List SnippetToken} :
    Derives isType .items tokens [] ↔ ∃ items, Item.ofTokens isType tokens = .ok items := by
  constructor
  · intro h
    obtain ⟨items, ps, rfl, hforms⟩ := h.read
    exact ⟨items, ofTokens_of_forms hforms⟩
  · rintro ⟨items, hitems⟩
    obtain ⟨ps, rfl, hforms⟩ := forms_of_ofTokens hitems
    exact hforms.derived [] rfl

/-! ## Snippets -/

/-- The text of a token stands in `text` at the place that the token gives. -/
def StandsIn (text : String) (t : SnippetToken) : Prop :=
  ∃ front back, text.toList = front ++ t.text.toList ++ back ∧
    t.span = ⟨Text.byteSize front, Text.byteSize front + Text.byteSize t.text.toList⟩

theorem standsIn_of_ofText {text : String} {tokens : List SnippetToken}
    (h : SnippetToken.ofText text = .ok tokens) {t : SnippetToken} (ht : t ∈ tokens) :
    StandsIn text t := by
  obtain ⟨ls, htext, -, rfl⟩ := SnippetToken.scan_eq_ok_iff.mp h
  obtain ⟨front, back, hcut, hstart, hstop⟩ := exists_text_of_mem_tokensAt ht
  rw [Nat.zero_add] at hstart
  refine ⟨front, back, htext ▸ hcut, ?_⟩
  rw [← hstart, ← hstop]

/-- **The language.** A `text` is parsed exactly when it is cut into `tokens` that the rules derive
(`Derives`), and no tree is refused (`badTree`) that a snippet makes. Every token can be cut out of
the text (`StandsIn`), and whatever the `items` are, elaboration names only nodes that it has added
(`admits`), before it checks the tree below the last of them, `root`. -/
theorem exists_parse_iff_derives {scope : Scope} (hscope : scope.Declared) (text : String) :
    ((∃ tree types, parse scope text = .ok (tree, types)) ↔
      ∃ tokens, SnippetToken.ofText text = .ok tokens ∧ Derives scope.isType .items tokens []) ∧
    (∀ e, parse scope text ≠ .error (.badTree e)) ∧
    (∀ tokens, SnippetToken.ofText text = .ok tokens → ∀ t ∈ tokens, StandsIn text t) ∧
    ∀ items, ∃ calls root types, (Builder.start scope.path text).admits calls = true ∧
      ((Builder.start scope.path text).performAll calls).contains root = true ∧
      elaborate scope text items =
        match ((Builder.start scope.path text).performAll calls).finish root with
        | .ok tree => .ok (tree, types)
        | .error e => .error (.badTree e) := by
  have hparse : ∀ tokens items, SnippetToken.ofText text = .ok tokens →
      Item.ofTokens scope.isType tokens = .ok items → ∃ tree types,
        parse scope text = .ok (tree, types) := fun tokens items htokens hitems => by
    obtain ⟨tree, types, hparse, -⟩ := exists_parse hscope.bindings_eq htokens hitems
    exact ⟨tree, types, hparse⟩
  refine ⟨⟨?_, ?_⟩, ?_, fun tokens htokens t ht => standsIn_of_ofText htokens ht,
    exists_calls_elaborate scope text⟩
  · rintro ⟨tree, types, h⟩
    obtain ⟨tokens, items, htokens, hitems⟩ := exists_items_of_parse h
    exact ⟨tokens, htokens, derives_iff.mpr ⟨items, hitems⟩⟩
  · rintro ⟨tokens, htokens, hderives⟩
    obtain ⟨items, hitems⟩ := derives_iff.mp hderives
    exact hparse tokens items htokens hitems
  · -- An error that is not a reader's would be one behind items that were read.
    intro e he
    cases htokens : SnippetToken.ofText text with
    | error e' =>
      simp only [parse, htokens, bind, Except.bind] at he
      cases he
      exact faultless_ofText text e htokens
    | ok tokens =>
      cases hitems : Item.ofTokens scope.isType tokens with
      | error e' =>
        simp only [parse, htokens, hitems, bind, Except.bind] at he
        cases he
        exact faultless_ofTokens scope.isType tokens e hitems
      | ok items =>
        obtain ⟨tree, types, hparse⟩ := hparse tokens items htokens hitems
        rw [hparse] at he
        cases he

/-- An `else` behind two conditions. -/
def nestedText : String := "if (a) if (b) return; else return;"

/-- The tokens of `nestedText`. -/
def nestedTokens : List SnippetToken :=
  [⟨.name, ⟨0, 2⟩, "if"⟩, ⟨.mark '(', ⟨3, 4⟩, "("⟩, ⟨.name, ⟨4, 5⟩, "a"⟩, ⟨.mark ')', ⟨5, 6⟩, ")"⟩,
    ⟨.name, ⟨7, 9⟩, "if"⟩, ⟨.mark '(', ⟨10, 11⟩, "("⟩, ⟨.name, ⟨11, 12⟩, "b"⟩,
    ⟨.mark ')', ⟨12, 13⟩, ")"⟩, ⟨.name, ⟨14, 20⟩, "return"⟩, ⟨.mark ';', ⟨20, 21⟩, ";"⟩,
    ⟨.name, ⟨22, 26⟩, "else"⟩, ⟨.name, ⟨27, 33⟩, "return"⟩, ⟨.mark ';', ⟨33, 34⟩, ";"⟩]

/-- The `else` belongs to the inner `if`. -/
theorem derives_nestedTokens (isType : String → Bool) :
    Derives isType .items nestedTokens [] := by
  have hname : ∀ t : SnippetToken, t.isName = true → t.text ∉ expressionKeywords →
      Produces .expr [t] := fun t ht hfree => .chain (.chain_of_primary (.name ht hfree))
  have hinner : Derives isType .statement (nestedTokens.drop 4) [] :=
    @Derives.branchElse isType _ _ _ _ [⟨.name, ⟨11, 12⟩, "b"⟩] ((nestedTokens.drop 8).take 2)
      (nestedTokens.drop 11) [] rfl rfl (hname _ rfl (by decide)) rfl
      (.statement (.leave rfl rfl)) rfl (.statement (.leave rfl rfl))
  have houter : Derives isType .statement nestedTokens [] :=
    @Derives.branch isType _ _ _ [⟨.name, ⟨4, 5⟩, "a"⟩] (nestedTokens.drop 4) [] rfl rfl
      (hname _ rfl (by decide)) rfl (.statement hinner) rfl
  exact .cons (.statement houter) .nil

theorem exists_parse_iff_derives_nestedText :
    ∃ tree types, parse .java nestedText = .ok (tree, types) :=
  (exists_parse_iff_derives Scope.declared_java nestedText).1.mpr
    ⟨nestedTokens, by decide +kernel, derives_nestedTokens _⟩

end TreeLint.Snippet
