import TreeLint.Proofs.Snippet.Moves

/-!
# Revised snippets

A fix takes an expression statement away, or assigns its result to the variable at the start of it.
`Revision` says what becomes of each statement and where everything else goes; a revised snippet is
made of the revised pieces.

- `Piece.revise`, `Item.revise`: what becomes of a piece and of an item.
- `Item.Stays`: nothing goes that an item cannot do without.
- `Forms.revise`: the revised pieces are read as the revised items, unless an `else` comes to stand
  behind an open `if`.
-/

namespace TreeLint

namespace Snippet

/-- What becomes of an expression statement: `keep` it as it is, `assign` its result, or `drop`
it. -/
inductive Fate where
  | keep
  /-- Its result is assigned to the variable at the start of its chain, `plainRoot?`. -/
  | assign
  | drop
  deriving DecidableEq, Repr

/-- What becomes of the expression statements, told by where they begin (`fate`), and where all goes
(`motion`). -/
structure Revision where
  fate : Nat → Fate
  motion : Motion

namespace Revision

variable (r : Revision)

/-- Where the copy of a variable `root` goes that is put in front of it, with an equals sign between
blanks behind. -/
def copy (root : Expr) : Motion :=
  let place (p : Nat) := r.motion.start root.span.start - (root.span.length + 3) +
    (p - root.span.start)
  ⟨place, place⟩

/-- The equals sign behind the copy of a variable `root`. -/
def equals (root : Expr) : SnippetToken :=
  ⟨.mark '=', ⟨r.motion.start root.span.start - 2, r.motion.start root.span.start - 1⟩, "="⟩

/-- The variable to which the result of the expression `e` is assigned. -/
def assigned? (e : Expr) : Option Expr :=
  if r.fate e.span.start = .assign then e.plainRoot? else none

end Revision

variable (r : Revision)

/-- The expression `e` of a statement after the revision `r`. -/
def Expr.revise (e : Expr) : Expr :=
  match r.assigned? e with
  | some root => .assign (root.move (r.copy root)) (e.move r.motion)
  | none => e.move r.motion

/-- Whether an item is a statement that `r` takes away. -/
def Item.isDropped : Item → Bool
  | .evaluate value _ => r.fate value.span.start = .drop
  | _ => false

mutual

/-- The item after the revision `r`. -/
def Item.revise : Item → Item
  | .block items span => .block (Item.reviseAll items) (span.move r.motion)
  | .suppressed keys item => .suppressed keys item.revise
  | .ret value span => .ret (value.map (Expr.move r.motion)) (span.move r.motion)
  | .branch start condition yes none =>
    .branch (r.motion.start start) (condition.move r.motion) yes.revise none
  | .branch start condition yes (some no) =>
    .branch (r.motion.start start) (condition.move r.motion) yes.revise (some no.revise)
  | .declare type name value span =>
    .declare type name (value.map (Expr.move r.motion)) (span.move r.motion)
  | .evaluate value stop => .evaluate (value.revise r) (r.motion.stop stop)

/-- The items after the revision `r`, without those that are taken away. -/
def Item.reviseAll : List Item → List Item
  | [] => []
  | item :: rest =>
    if item.isDropped r then Item.reviseAll rest else item.revise :: Item.reviseAll rest

end

mutual

/-- The item is not taken away by `r`, nor is a statement in it that is a branch or has a tag. -/
def Item.Stays : Item → Prop
  | .block items _ => Item.AllStay items
  | .suppressed _ item => item.Stays
  | .branch _ _ yes none => yes.Stays
  | .branch _ _ yes (some no) => yes.Stays ∧ no.Stays
  | .evaluate value _ => r.fate value.span.start ≠ .drop
  | .ret _ _ | .declare _ _ _ _ => True

/-- Each of the items is taken away as a whole (`isDropped`), or `Stays`. -/
def Item.AllStay : List Item → Prop
  | [] => True
  | item :: rest => (item.isDropped r = true ∨ item.Stays) ∧ Item.AllStay rest

end

/-- The tokens `ts` of an expression statement after the revision, without the semicolon. -/
def Revision.tokens (value : Expr) (ts : List SnippetToken) : List SnippetToken :=
  match r.assigned? value with
  | some root =>
    (ts.take root.width).map (.move (r.copy root)) ++ r.equals root :: ts.map (.move r.motion)
  | none => ts.map (.move r.motion)

/-- The pieces that a piece becomes in the revision `r`. -/
def Piece.revise : Piece → List Piece
  | .token t => [.token (t.move r.motion)]
  | .statement value ts semicolon =>
    if r.fate value.span.start = .drop then []
    else [.statement (value.revise r) (r.tokens value ts) (semicolon.move r.motion)]

/-- The pieces that `ps` become in the revision `r`. -/
def revisePieces (ps : List Piece) : List Piece := ps.flatMap (Piece.revise r)

variable {r}

@[simp] theorem revisePieces_nil : revisePieces r [] = [] := rfl

@[simp] theorem revisePieces_cons (p : Piece) (ps : List Piece) :
    revisePieces r (p :: ps) = p.revise r ++ revisePieces r ps := rfl

@[simp] theorem revisePieces_append (ps qs : List Piece) :
    revisePieces r (ps ++ qs) = revisePieces r ps ++ revisePieces r qs := List.flatMap_append

@[simp] theorem revisePieces_map_token (ts : List SnippetToken) :
    revisePieces r (ts.map .token) = (ts.map (.move r.motion)).map .token := by
  induction ts with
  | nil => rfl
  | cons t ts ih => simp [ih, Piece.revise]

/-- What `r` takes away is an expression statement. -/
theorem Item.exists_of_isDropped {item : Item} (h : item.isDropped r = true) :
    ∃ value stop, item = .evaluate value stop ∧ r.fate value.span.start = .drop := by
  cases item with
  | evaluate value stop => exact ⟨value, stop, rfl, by simpa [Item.isDropped] using h⟩
  | _ => cases h

/-! ## Statements -/

/-- An expression `e` with a variable `root` at the start of its chain is no assignment. -/
theorem Reads.chain_of_variable {e root : Expr} {ts : List SnippetToken} (h : Reads (.expr e) ts)
    (hroot : e.plainRoot? = some root) : Reads (.chain e) ts := by
  cases h with
  | plain h => exact h
  | assign => simp [Expr.plainRoot?, Expr.root?] at hroot

/-- The revised tokens of a statement `e` are read as the revised expression, and begin with the
same `word`. -/
theorem Reads.revise {e : Expr} {ts : List SnippetToken} (h : Reads (.expr e) ts) :
    Reads (.expr (e.revise r)) (r.tokens e ts) ∧
      ∀ word, atKeyword word (r.tokens e ts) = atKeyword word ts := by
  obtain ⟨t, us, rfl, -⟩ := h.exists_first
  unfold Expr.revise Revision.tokens
  cases hassigned : r.assigned? e with
  | none => exact ⟨h.move r.motion, fun word => rfl⟩
  | some root =>
    have hroot : e.plainRoot? = some root := by
      unfold Revision.assigned? at hassigned
      split at hassigned
      · exact hassigned
      · cases hassigned
    obtain ⟨front, back, hts, hreads, hlength⟩ := (h.chain_of_variable hroot).exists_variable hroot
    obtain ⟨t', front, rfl, -⟩ := hreads.exists_first
    obtain ⟨rfl, rfl⟩ := List.cons.inj hts
    have htake : (t :: (front ++ back)).take root.width = t :: front := by
      rw [← hlength, ← List.cons_append, List.take_left]
    simp only [List.append_eq] at htake ⊢
    rw [htake]
    exact ⟨.assign (hreads.move _) rfl (h.move r.motion), fun word => rfl⟩

/-! ## Words that say `else` -/

/-- Number of tokens that say `else`. -/
def elsesIn (ts : List SnippetToken) : Nat := ts.countP (·.isKeyword "else")

mutual

/-- Number of branches behind an `else`. -/
def Item.elses : Item → Nat
  | .block items _ => Item.elsesAll items
  | .suppressed _ item => item.elses
  | .branch _ _ yes none => yes.elses
  | .branch _ _ yes (some no) => yes.elses + no.elses + 1
  | .ret _ _ | .declare _ _ _ _ | .evaluate _ _ => 0

/-- Number of branches behind an `else` in items. -/
def Item.elsesAll : List Item → Nat
  | [] => 0
  | item :: rest => item.elses + Item.elsesAll rest

end

/-- Number of branches behind an `else` in a passage. -/
def Passage.elses : Passage → Nat
  | .item i => i.elses
  | .items is => Item.elsesAll is

variable {isType : String → Bool}

@[simp] theorem elsesIn_append (ts us : List SnippetToken) :
    elsesIn (ts ++ us) = elsesIn ts + elsesIn us := List.countP_append

theorem elsesIn_cons_of_else {t : SnippetToken} {ts : List SnippetToken}
    (h : t.isKeyword "else" = true) : elsesIn (t :: ts) = elsesIn ts + 1 :=
  List.countP_cons_of_pos h

theorem elsesIn_pos {ts : List SnippetToken} (h : atKeyword "else" ts = true) : 0 < elsesIn ts := by
  cases ts with
  | nil => cases h
  | cons t ts =>
    rw [elsesIn_cons_of_else h]
    exact Nat.succ_pos _

/-- Every branch behind an `else` has such a token. -/
theorem Forms.elses_le {passage : Passage} {ps : List Piece} (h : Forms isType passage ps) :
    passage.elses ≤ elsesIn (tokensOf ps) := by
  induction h with
  | suppressed _ _ _ _ _ _ ih =>
    rw [tokensOf_append, elsesIn_append]
    exact Nat.le_trans ih (Nat.le_add_left _ _)
  | block _ _ _ ih =>
    rw [List.cons_append, tokensOf_cons, tokensOf_append, elsesIn_append, elsesIn_append]
    have : _ ≤ _ := ih
    simp only [Passage.elses, Item.elses] at this ⊢
    omega
  | branch _ _ _ _ _ ih =>
    rw [tokensOf_append, elsesIn_append]
    exact Nat.le_trans ih (Nat.le_add_left _ _)
  | branchElse _ _ _ _ _ _ hother _ ih ihno =>
    rw [tokensOf_append, tokensOf_append, tokensOf_cons, Piece.tokens, List.singleton_append,
      elsesIn_append, elsesIn_append, elsesIn_cons_of_else hother]
    simp only [Passage.elses, Item.elses] at ih ihno ⊢
    omega
  | cons _ _ _ ih ihrest =>
    rw [tokensOf_append, elsesIn_append]
    exact Nat.add_le_add ih ihrest
  | _ => exact Nat.zero_le _

theorem isKeyword_of_ne {t : SnippetToken} {word word' : String} (h : t.isKeyword word = true)
    (hne : word ≠ word') : t.isKeyword word' = false := by
  obtain ⟨hname, htext⟩ := isKeyword_iff.mp h
  simp [SnippetToken.isKeyword, htext, hne]

/-- No item begins with an `else` if none is there but between two branches. -/
theorem Forms.atKeyword_else {item : Item} {ps : List Piece} (h : Forms isType (.item item) ps)
    (hle : elsesIn (tokensOf ps) ≤ item.elses) (rest : List SnippetToken) :
    atKeyword "else" (tokensOf ps ++ rest) = false := by
  cases h with
  | suppressed hs => exact isKeyword_of_isMark hs _
  | block ho => exact isKeyword_of_isMark ho _
  | leave hw => exact isKeyword_of_ne hw (by decide)
  | ret hw => exact isKeyword_of_ne hw (by decide)
  | branch hw => exact isKeyword_of_ne hw (by decide)
  | branchElse hw => exact isKeyword_of_ne hw (by decide)
  | declare ht =>
    refine Bool.eq_false_iff.mpr fun helse => ?_
    rw [tokensOf_map_token] at hle
    exact Nat.not_lt.mpr hle (elsesIn_pos helse)
  | declareValue ht =>
    refine Bool.eq_false_iff.mpr fun helse => ?_
    rw [tokensOf_map_token] at hle
    exact Nat.not_lt.mpr hle (elsesIn_pos helse)
  | evaluate h =>
    obtain ⟨t, us, rfl, -⟩ := h.exists_first
    refine Bool.eq_false_iff.mpr fun helse => ?_
    simp only [tokensOf_cons, tokensOf_nil, Piece.tokens, List.append_nil] at hle
    exact Nat.not_lt.mpr hle (elsesIn_pos helse)

/-! ## Revised items -/

@[simp] theorem Item.isOpen_revise : ∀ item : Item, (item.revise r).isOpen = item.isOpen
  | .suppressed _ item => by simp [Item.revise, Item.isOpen, item.isOpen_revise]
  | .branch _ _ _ (some no) => by simp [Item.revise, Item.isOpen, no.isOpen_revise]
  | .branch _ _ _ none | .block _ _ | .ret _ _ | .declare _ _ _ _ | .evaluate _ _ => rfl

/-- The passage after the revision `r`. -/
def Passage.revise (r : Revision) : Passage → Passage
  | .item i => .item (i.revise r)
  | .items is => .items (Item.reviseAll r is)

/-- The passage can be revised by `r`. -/
def Passage.Stays (r : Revision) : Passage → Prop
  | .item i => i.Stays r
  | .items is => Item.AllStay r is

/-- The pieces `ps` of an `item` that is taken away go with it. -/
theorem Forms.revisePieces_of_isDropped {item : Item} {ps : List Piece}
    (h : Forms isType (.item item) ps) (hdropped : item.isDropped r = true) :
    revisePieces r ps = [] := by
  obtain ⟨value, stop, rfl, hfate⟩ := Item.exists_of_isDropped hdropped
  cases h with
  | evaluate => simp [Piece.revise, hfate]

/-- An `item` that is not taken away begins with the same `word`. -/
theorem Forms.atKeyword_revise {item : Item} {ps : List Piece} (h : Forms isType (.item item) ps)
    (hstays : item.isDropped r = false) (word : String) (rest rest' : List SnippetToken) :
    atKeyword word (tokensOf (revisePieces r ps) ++ rest) = atKeyword word (tokensOf ps ++ rest') := by
  cases h with
  | @evaluate value ts semicolon h =>
    have hkept : r.fate value.span.start ≠ .drop := by simpa [Item.isDropped] using hstays
    have hreads := h.revise (r := r)
    obtain ⟨t, us, hts, -⟩ := hreads.1.exists_first
    obtain ⟨t', us', rfl, -⟩ := h.exists_first
    have hword := hreads.2 word
    simp only [revisePieces_cons, revisePieces_nil, Piece.revise, if_neg hkept, tokensOf_cons,
      tokensOf_nil, Piece.tokens, List.append_nil, hts] at hword ⊢
    exact hword
  | _ => rfl

/-- No `else` comes to stand behind an open item: nothing is taken away, or every `else` is between
two branches. -/
def Passage.Closed (r : Revision) (passage : Passage) (ps : List Piece) : Prop :=
  (∀ p, r.fate p ≠ .drop) ∨ elsesIn (tokensOf ps) ≤ passage.elses

/-- The part `ps` behind the tokens `ts` in front of a passage is closed as the passage is. -/
theorem Passage.Closed.tail {passage passage' : Passage} {ts : List SnippetToken} {ps : List Piece}
    (h : passage.Closed r (ts.map .token ++ ps)) (hle : passage.elses ≤ passage'.elses) :
    passage'.Closed r ps := by
  refine h.imp_right fun hcount => ?_
  rw [tokensOf_append, tokensOf_map_token, elsesIn_append] at hcount
  omega

/-- The two parts of a passage are closed when it is, and has no more branches behind an `else` than
they have. -/
theorem Passage.Closed.both {passage front back : Passage} {ps qs : List Piece}
    (h : passage.Closed r (ps ++ qs)) (hfront : Forms isType front ps)
    (hback : Forms isType back qs) (hle : passage.elses ≤ front.elses + back.elses) :
    front.Closed r ps ∧ back.Closed r qs := by
  have hp := hfront.elses_le
  have hq := hback.elses_le
  rcases h with hkept | hcount
  · exact ⟨.inl hkept, .inl hkept⟩
  · rw [tokensOf_append, elsesIn_append] at hcount
    exact ⟨.inr (by omega), .inr (by omega)⟩

/-- The two branches of a condition are closed when it is. Neither has fewer tokens `else` than it
needs, and together they have no more, so each has just its own. -/
theorem Passage.Closed.branches {condition : Expr} {start : Nat} {yes no : Item}
    {ts : List SnippetToken} {other : SnippetToken} {ps qs : List Piece}
    (h : (Passage.item (.branch start condition yes (some no))).Closed r
      (ts.map .token ++ ps ++ .token other :: qs))
    (hother : other.isKeyword "else" = true) (hyes : Forms isType (.item yes) ps)
    (hno : Forms isType (.item no) qs) :
    (Passage.item yes).Closed r ps ∧ (Passage.item no).Closed r qs := by
  have hle := hyes.elses_le
  have hle' := hno.elses_le
  rcases h with hkept | hcount
  · exact ⟨.inl hkept, .inl hkept⟩
  · rw [tokensOf_append, tokensOf_append, tokensOf_cons, Piece.tokens, List.singleton_append,
      elsesIn_append, elsesIn_append, elsesIn_cons_of_else hother] at hcount
    simp only [Passage.elses, Item.elses] at hcount hle hle'
    exact ⟨.inr (by simp only [Passage.elses]; omega), .inr (by simp only [Passage.elses]; omega)⟩

/-- No items begin with an `else` if none is there but between two branches. -/
theorem Forms.atKeyword_else_items {items : List Item} {ps : List Piece}
    (h : Forms isType (.items items) ps) (hle : elsesIn (tokensOf ps) ≤ Item.elsesAll items) :
    atKeyword "else" (tokensOf ps) = false := by
  cases h with
  | nil => rfl
  | cons h _ hrest =>
    have hcount := hrest.elses_le
    rw [tokensOf_append] at hle ⊢
    rw [elsesIn_append] at hle
    simp only [Item.elsesAll, Passage.elses] at hle hcount
    exact h.atKeyword_else (by omega) _

/-- No `else` comes to stand in front of revised items. -/
theorem Forms.atKeyword_else_revise {items : List Item} {ps : List Piece}
    (h : Forms isType (.items items) ps) (hclosed : (Passage.items items).Closed r ps)
    (helse : atKeyword "else" (tokensOf ps) = false) :
    atKeyword "else" (tokensOf (revisePieces r ps)) = false := by
  generalize hpassage : Passage.items items = passage at h
  induction h generalizing items with
  | nil => rfl
  | @cons item rest ps qs h hopen hrest ih ihrest =>
    cases hpassage
    obtain ⟨hfirst, hsecond⟩ := hclosed.both h hrest (Nat.le_refl _)
    rw [revisePieces_append, tokensOf_append]
    cases hdropped : item.isDropped r with
    | false =>
      rw [h.atKeyword_revise hdropped "else" _ (tokensOf qs), ← tokensOf_append]
      exact helse
    | true =>
      obtain ⟨value, stop, -, hfate⟩ := Item.exists_of_isDropped hdropped
      rw [h.revisePieces_of_isDropped hdropped, tokensOf_nil, List.nil_append]
      exact ihrest hsecond (hrest.atKeyword_else_items (hsecond.resolve_left fun hkept =>
        hkept _ hfate)) rfl
  | _ => cases hpassage

/-- Tokens that are moved name the same keys. -/
theorem keysOf_map_move (m : Motion) (ts : List SnippetToken) :
    keysOf (ts.map (.move m)) = keysOf ts := by
  rw [keysOf, List.flatMap_map]
  rfl

/-- The revised pieces of `ps` are read as the revised passage. -/
theorem Forms.revise {passage : Passage} {ps : List Piece} (h : Forms isType passage ps)
    (hstays : passage.Stays r) (hclosed : passage.Closed r ps) :
    Forms isType (passage.revise r) (revisePieces r ps) := by
  induction h with
  | @suppressed sign word opening closing body item ps hs hw ho hbody hc h ih =>
    have hforms := @Forms.suppressed _ (sign.move r.motion) (word.move r.motion)
      (opening.move r.motion) (closing.move r.motion) (body.map (.move r.motion)) _ _ hs hw ho
      (by simpa using hbody) hc (ih hstays (hclosed.tail (Nat.le_refl _)))
    rw [keysOf_map_move] at hforms
    rw [revisePieces_append, revisePieces_map_token]
    simpa [Passage.revise, Item.revise] using hforms
  | @block opening closing items ps ho h hc ih =>
    rw [List.cons_append, revisePieces_cons, revisePieces_append, revisePieces_cons]
    refine @Forms.block _ (opening.move r.motion) (closing.move r.motion) _ _ ho
      (ih hstays (hclosed.imp_right fun hle => ?_)) hc
    rw [List.cons_append, tokensOf_cons, tokensOf_append, elsesIn_append, elsesIn_append] at hle
    simp only [Passage.elses, Item.elses] at hle ⊢
    omega
  | @leave word semicolon hw hs =>
    exact @Forms.leave _ (word.move r.motion) (semicolon.move r.motion) hw hs
  | @ret word semicolon value ts hw h hs =>
    rw [revisePieces_map_token, List.cons_append, List.map_cons, List.map_append]
    exact @Forms.ret _ (word.move r.motion) (semicolon.move r.motion) _ _ hw (h.move r.motion) hs
  | @branch word opening closing condition ts yes ps hw ho h hc hyes ih =>
    rw [revisePieces_append, revisePieces_map_token]
    have hforms := @Forms.branch _ (word.move r.motion) (opening.move r.motion)
      (closing.move r.motion) _ _ _ _ hw ho (h.move r.motion) hc
      (ih hstays (hclosed.tail (Nat.le_refl _)))
    simpa [Passage.revise, Item.revise] using hforms
  | @branchElse word opening closing other condition ts yes no ps qs hw ho h hc hyes hopen hother
      hno ih ihno =>
    rw [revisePieces_append, revisePieces_append, revisePieces_map_token]
    have hbranches := hclosed.branches hother hyes hno
    have hforms := @Forms.branchElse _ (word.move r.motion) (opening.move r.motion)
      (closing.move r.motion) (other.move r.motion) _ _ _ _ _ _ hw ho (h.move r.motion) hc
      (ih hstays.1 hbranches.1) (by rwa [Item.isOpen_revise]) hother (ihno hstays.2 hbranches.2)
    simpa [Passage.revise, Item.revise, Piece.revise] using hforms
  | @declare type place semicolon ht hfree htype hp hs =>
    exact @Forms.declare _ (type.move r.motion) (place.move r.motion) (semicolon.move r.motion) ht
      hfree htype hp hs
  | @declareValue type place equals semicolon value ts ht hfree htype hp he h hs =>
    rw [revisePieces_map_token]
    have hforms := @Forms.declareValue _ (type.move r.motion) (place.move r.motion)
      (equals.move r.motion) (semicolon.move r.motion) _ _ ht hfree htype hp he (h.move r.motion) hs
    simpa [Passage.revise, Item.revise] using hforms
  | @evaluate value ts semicolon h hreturn hif hs =>
    have hreads := h.revise (r := r)
    have hkept : r.fate value.span.start ≠ .drop := hstays
    rw [revisePieces_cons, revisePieces_nil, List.append_nil, Piece.revise, if_neg hkept]
    exact @Forms.evaluate _ _ _ (semicolon.move r.motion) hreads.1 ((hreads.2 _).trans hreturn)
      ((hreads.2 _).trans hif) hs
  | nil => exact .nil
  | @cons item items ps qs h hopen hrest ih ihrest =>
    obtain ⟨hfirst, hsecond⟩ := hclosed.both h hrest (Nat.le_refl _)
    rw [revisePieces_append]
    -- Only here does an item go.
    cases hdropped : item.isDropped r with
    | true =>
      rw [h.revisePieces_of_isDropped hdropped, List.nil_append, Passage.revise, Item.reviseAll,
        if_pos hdropped]
      exact ihrest hstays.2 hsecond
    | false =>
      have hstay : item.Stays r := hstays.1.resolve_left (by simp [hdropped])
      simp only [Passage.revise, Item.reviseAll, hdropped, Bool.false_eq_true, if_false]
      refine .cons (ih hstay hfirst) (fun hisOpen => ?_) (ihrest hstays.2 hsecond)
      rw [Item.isOpen_revise] at hisOpen
      exact hrest.atKeyword_else_revise hsecond (hopen hisOpen)

end Snippet

end TreeLint
