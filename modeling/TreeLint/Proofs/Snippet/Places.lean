import TreeLint.Proofs.Snippet.Lexemes
import TreeLint.Proofs.Snippet.Standing
import TreeLint.Proofs.Snippet.Statements
import TreeLint.Proofs.Text.Boundary

/-!
# Snippets make trees

The spans of what was read come from tokens, and tokens stand one behind the other between
characters. So the outline of a snippet is placed in its source, and elaboration does not fail.

- `Reads.lies`, `Forms.lies`: the outline of what was read lies where its tokens do.
- `Shows`: the tree and the types of a snippet show its outline.
- `Scope.Declared`: the scopes that declarations make.
- `exists_parse`, `exists_items_of_parse`: a snippet is parsed exactly when its tokens form items.
-/

namespace TreeLint

namespace Snippet

open Outline

variable {source : List Char} {scope : Scope}

theorem Expr.span_outline (scope : Scope) (e : Expr) : (e.outline scope).label.span = e.span := by
  cases e with
  | literal kind span => cases kind <;> rfl
  | _ => rfl

theorem Item.span_outline (scope : Scope) : ∀ item : Item,
    (item.outline scope).label.span = item.span
  | .block _ _ | .ret _ _ | .declare _ _ _ _ | .evaluate _ _ => rfl
  | .suppressed keys item => by
    have h := item.span_outline scope
    rw [Item.outline, Item.span, ← h]
    cases item.outline scope
    rfl
  | .branch _ _ _ none | .branch _ _ _ (some _) => rfl

theorem Outline.PlacedAll.mono {start start' stop stop' : Nat} {os : List Outline}
    (h : PlacedAll source start os stop) (hstart : start' ≤ start) (hstop : stop ≤ stop') :
    PlacedAll source start' os stop' := by
  induction os generalizing start start' with
  | nil => exact Nat.le_trans hstart (Nat.le_trans h hstop)
  | cons o os ih => exact ⟨Nat.le_trans hstart h.1, h.2.1, ih h.2.2 (Nat.le_refl _)⟩

theorem Outline.placed_suppress {o : Outline} {keys : List String} (h : o.Placed source) :
    (o.suppress keys).Placed source := by
  obtain ⟨label, children⟩ := o
  exact h

/-! ## Expressions -/

/-- What was read as `phrase` begins where its first token `t` does. -/
theorem Reads.exists_first {phrase : Phrase} {ts : List SnippetToken} (h : Reads phrase ts) :
    match phrase with
    | .expr e | .chain e => ∃ t us, ts = t :: us ∧ e.span.start = t.span.start
    | _ => True := by
  induction h with
  | literal | self | name => exact ⟨_, [], rfl, rfl⟩
  | paren | create | callOwn => exact ⟨_, _, rfl, rfl⟩
  | select _ _ _ ih =>
    obtain ⟨t, us, rfl, hstart⟩ := ih
    exact ⟨t, _, rfl, hstart⟩
  | callOn _ _ _ _ ih =>
    obtain ⟨t, us, rfl, hstart⟩ := ih
    exact ⟨t, _, rfl, hstart⟩
  | plain _ ih => exact ih
  | assign _ _ _ ih =>
    obtain ⟨t, us, rfl, hstart⟩ := ih
    exact ⟨t, _, rfl, hstart⟩
  | _ => trivial

/-- The outline of a phrase lies between two places of the source, `start` and `stop`. -/
def Phrase.Lies (source : List Char) (scope : Scope) (start stop : Nat) : Phrase → Prop
  | .expr e | .chain e =>
    start ≤ e.span.start ∧ (e.outline scope).Placed source ∧ e.span.stop ≤ stop
  | .arguments es close | .moreArguments es close =>
    PlacedAll source start (Expr.outlines scope es) close ∧
      Text.isBoundary source close = true ∧ close ≤ stop

theorem fits_of_boundary {start stop : Nat} (hle : start ≤ stop)
    (hstart : Text.isBoundary source start = true) (hstop : Text.isBoundary source stop = true) :
    (⟨start, stop⟩ : Span).fits source = true := by
  simp [Span.fits, hle, hstart, hstop]

theorem boundary_of_fits {span : Span} (h : span.fits source = true) :
    Text.isBoundary source span.start = true ∧ Text.isBoundary source span.stop = true := by
  simp only [Span.fits, Bool.and_eq_true] at h
  exact ⟨h.1.2, h.2⟩

/-- From where one span, `a`, starts to where another, `b`, stops. -/
theorem fits_across {a b : Span} (ha : a.fits source = true) (hb : b.fits source = true)
    (hle : a.start ≤ b.stop) : (⟨a.start, b.stop⟩ : Span).fits source = true :=
  fits_of_boundary hle (boundary_of_fits ha).1 (boundary_of_fits hb).2

theorem Expr.fits_of_placed {e : Expr} (h : (e.outline scope).Placed source) :
    e.span.fits source = true ∧ e.span.start ≤ e.span.stop := by
  have hle := h.start_le_stop
  have hfits := h.fits.1
  rw [Expr.span_outline] at hle hfits
  exact ⟨hfits, hle⟩

theorem Item.fits_of_placed {item : Item} (h : (item.outline scope).Placed source) :
    item.span.fits source = true ∧ item.span.start ≤ item.span.stop := by
  have hle := h.start_le_stop
  have hfits := h.fits.1
  rw [Item.span_outline] at hle hfits
  exact ⟨hfits, hle⟩

/-! ### Expressions whose parts are placed -/

section

variable {e inner receiver target value : Expr} {es : List Expr} {start stop close : Nat}
variable {opening closing place member : Span}

theorem placedAll_singleton (hstart : start ≤ e.span.start) (h : (e.outline scope).Placed source)
    (hstop : e.span.stop ≤ stop) : PlacedAll source start [e.outline scope] stop := by
  simp only [PlacedAll, Expr.span_outline]
  exact ⟨hstart, h, hstop⟩

theorem placed_paren (hopening : opening.fits source = true) (hclosing : closing.fits source = true)
    (hstart : opening.start ≤ inner.span.start) (h : (inner.outline scope).Placed source)
    (hstop : inner.span.stop ≤ closing.stop) :
    ((Expr.paren inner ⟨opening.start, closing.stop⟩).outline scope).Placed source := by
  obtain ⟨-, hle⟩ := Expr.fits_of_placed h
  exact ⟨fits_across hopening hclosing (by omega), placedAll_singleton hstart h hstop⟩

theorem placed_create {type : String} (hopening : opening.fits source = true)
    (hstart : opening.start ≤ start) (hargs : PlacedAll source start (Expr.outlines scope es) close)
    (hclose : Text.isBoundary source close = true) :
    ((Expr.create type es ⟨opening.start, close⟩).outline scope).Placed source := by
  have := hargs.le
  exact ⟨fits_of_boundary (by omega) (boundary_of_fits hopening).1 hclose,
    hargs.mono hstart (Nat.le_refl _)⟩

theorem placed_callOwn {method : String} (hplace : place.fits source = true)
    (hargs : PlacedAll source place.stop (Expr.outlines scope es) close)
    (hclose : Text.isBoundary source close = true) :
    ((Expr.callOwn method place es close).outline scope).Placed source := by
  have hle : place.start ≤ place.stop := (Span.fits_iff.mp hplace).1
  have := hargs.le
  refine ⟨fits_of_boundary (by omega) (boundary_of_fits hplace).1 hclose, ?_⟩
  exact ⟨Nat.le_refl _, ⟨hplace, hle⟩, hargs⟩

theorem placed_select {name : String} (h : (receiver.outline scope).Placed source)
    (hmember : member.fits source = true) (hle : receiver.span.stop ≤ member.stop) :
    ((Expr.select receiver name member.stop).outline scope).Placed source := by
  obtain ⟨hfits, hspan⟩ := Expr.fits_of_placed h
  exact ⟨fits_across hfits hmember (by omega), placedAll_singleton (Nat.le_refl _) h hle⟩

theorem placed_callOn {method : String} (h : (receiver.outline scope).Placed source)
    (hmember : member.fits source = true) (hle : receiver.span.stop ≤ member.stop)
    (hargs : PlacedAll source member.stop (Expr.outlines scope es) close)
    (hclose : Text.isBoundary source close = true) :
    ((Expr.callOn receiver method member.stop es close).outline scope).Placed source := by
  obtain ⟨hfits, hspan⟩ := Expr.fits_of_placed h
  have := hargs.le
  refine ⟨fits_of_boundary (by omega) (boundary_of_fits hfits).1 hclose, Nat.le_refl _, ?_, hargs⟩
  exact ⟨fits_across hfits hmember (by omega), placedAll_singleton (Nat.le_refl _) h hle⟩

theorem placed_assign (h : (target.outline scope).Placed source)
    (hvalue : (value.outline scope).Placed source) (hle : target.span.stop ≤ value.span.start) :
    ((Expr.assign target value).outline scope).Placed source := by
  obtain ⟨hfits, hspan⟩ := Expr.fits_of_placed h
  obtain ⟨hfits', hspan'⟩ := Expr.fits_of_placed hvalue
  refine ⟨fits_across hfits hfits' (by omega), ?_⟩
  simp only [PlacedAll, Expr.span_outline]
  exact ⟨Nat.le_refl _, h, hle, hvalue, Nat.le_refl _⟩

end

/-- The outline of what was read from `ts` lies where `ts` do, if each of `ts` stands between
characters of `source`. -/
theorem Reads.lies (scope : Scope) {phrase : Phrase} {ts : List SnippetToken} (h : Reads phrase ts)
    (hfits : ∀ t ∈ ts, t.span.fits source = true) {start stop : Nat}
    (hlaid : Laid start ts stop) : phrase.Lies source scope start stop := by
  -- Each case cuts `hlaid` where the parts of the phrase meet; the parts lie between the cuts.
  induction h generalizing start stop with
  | @literal t kind h =>
    have ht := hfits t (by simp)
    refine ⟨hlaid.1, ?_, hlaid.2.2⟩
    cases kind <;> exact ⟨ht, hlaid.2.1.le⟩
  | @self t h =>
    have ht := hfits t (by simp)
    exact ⟨hlaid.1, ⟨ht, hlaid.2.1.le⟩, hlaid.2.2⟩
  | @name t h hfree =>
    have ht := hfits t (by simp)
    exact ⟨hlaid.1, ⟨ht, hlaid.2.1.le⟩, hlaid.2.2⟩
  | @paren inner opening closing ts ho h hc ih =>
    obtain ⟨hstart, hopening, hlaid⟩ := hlaid
    obtain ⟨middle, hts, hclosing, hle, hstop⟩ := laid_append.mp hlaid
    obtain ⟨hinner, hplaced, hend⟩ := ih (fun t ht => hfits t (by simp [ht])) hts
    exact ⟨hstart, placed_paren (hfits opening (by simp)) (hfits closing (by simp)) (by omega)
      hplaced (by omega), hstop⟩
  | @create word type es close ts hw ht h ih =>
    obtain ⟨hstart, hword, htype, hlt, hts⟩ := hlaid
    obtain ⟨hargs, hclose, hle⟩ := ih (fun t ht => hfits t (by simp [ht])) hts
    exact ⟨hstart, placed_create (hfits word (by simp)) (by omega) hargs hclose, hle⟩
  | @callOwn t es close ts ht hfree h ih =>
    obtain ⟨hstart, hlt, hts⟩ := hlaid
    obtain ⟨hargs, hclose, hle⟩ := ih (fun t ht => hfits t (by simp [ht])) hts
    exact ⟨hstart, placed_callOwn (hfits t (by simp)) hargs hclose, hle⟩
  | @select receiver dot member ts h hd hm ih =>
    obtain ⟨middle, hts, hdot, hltdot, hmember, hlt, hle⟩ := laid_append.mp hlaid
    obtain ⟨hstart, hplaced, hend⟩ := ih (fun t ht => hfits t (by simp [ht])) hts
    exact ⟨hstart, placed_select hplaced (hfits member (by simp)) (by omega), hle⟩
  | @callOn receiver dot member es close ts us h hd hm hargs ih ihargs =>
    obtain ⟨middle, hts, hdot, hltdot, hmember, hlt, hus⟩ := laid_append.mp hlaid
    obtain ⟨hstart, hplaced, hend⟩ := ih (fun t ht => hfits t (by simp [ht])) hts
    obtain ⟨hargs, hclose, hle⟩ := ihargs (fun t ht => hfits t (by simp [ht])) hus
    exact ⟨hstart, placed_callOn hplaced (hfits member (by simp)) (by omega) hargs hclose, hle⟩
  | plain _ ih => exact ih hfits hlaid
  | @assign target value equals ts us h he hvalue ih ihvalue =>
    obtain ⟨middle, hts, hequals, hlt, hus⟩ := laid_append.mp hlaid
    obtain ⟨hstart, hplaced, hend⟩ := ih (fun t ht => hfits t (by simp [ht])) hts
    obtain ⟨hstart', hplaced', hend'⟩ := ihvalue (fun t ht => hfits t (by simp [ht])) hus
    exact ⟨hstart, placed_assign hplaced hplaced' (by omega), hend'⟩
  | @noArguments opening closing ho hc =>
    obtain ⟨hstart, hlt, hclosing, hlt', hle⟩ := hlaid
    exact ⟨by simp only [Expr.outlines, PlacedAll]; omega,
      (boundary_of_fits (hfits closing (by simp))).2, hle⟩
  | @someArguments opening e es close ts us ho h hmore ih ihmore =>
    obtain ⟨hstart, hlt, hlaid⟩ := hlaid
    obtain ⟨middle, hts, hus⟩ := laid_append.mp hlaid
    obtain ⟨hstart', hplaced, hend⟩ := ih (fun t ht => hfits t (by simp [ht])) hts
    obtain ⟨hargs, hclose, hle⟩ := ihmore (fun t ht => hfits t (by simp [ht])) hus
    refine ⟨⟨?_, hplaced, hargs.mono ?_ (Nat.le_refl _)⟩, hclose, hle⟩ <;>
      rw [Expr.span_outline] <;> omega
  | @noMore closing hc =>
    obtain ⟨hstart, hlt, hle⟩ := hlaid
    exact ⟨by simp only [Expr.outlines, PlacedAll]; omega,
      (boundary_of_fits (hfits closing (by simp))).2, hle⟩
  | @more comma e es close ts us hc h hmore ih ihmore =>
    obtain ⟨hstart, hlt, hlaid⟩ := hlaid
    obtain ⟨middle, hts, hus⟩ := laid_append.mp hlaid
    obtain ⟨hstart', hplaced, hend⟩ := ih (fun t ht => hfits t (by simp [ht])) hts
    obtain ⟨hargs, hclose, hle⟩ := ihmore (fun t ht => hfits t (by simp [ht])) hus
    refine ⟨⟨?_, hplaced, hargs.mono ?_ (Nat.le_refl _)⟩, hclose, hle⟩ <;>
      rw [Expr.span_outline] <;> omega

/-! ## Items -/

/-- The outline of a passage lies between two places of the source, `start` and `stop`, in any
scope. -/
def Passage.Lies (source : List Char) (start stop : Nat) : Passage → Prop
  | .item i => ∀ scope, start ≤ i.span.start ∧ (i.outline scope).Placed source ∧ i.span.stop ≤ stop
  | .items is => ∀ scope, PlacedAll source start (Item.outlines scope is) stop

/-! ### Items whose parts are placed -/

section

variable {value condition : Expr} {yes no : Item} {items : List Item} {start stop : Nat}
variable {word opening closing semicolon : Span}

theorem placed_block (hopening : opening.fits source = true) (hclosing : closing.fits source = true)
    (hstart : opening.start ≤ start) (h : PlacedAll source start (Item.outlines scope items) stop)
    (hstop : stop ≤ closing.stop) :
    ((Item.block items ⟨opening.start, closing.stop⟩).outline scope).Placed source := by
  have := h.le
  exact ⟨fits_across hopening hclosing (by omega), h.mono hstart hstop⟩

theorem placed_leave (hword : word.fits source = true) (hsemicolon : semicolon.fits source = true)
    (hle : word.start ≤ semicolon.stop) :
    ((Item.ret none ⟨word.start, semicolon.stop⟩).outline scope).Placed source :=
  ⟨fits_across hword hsemicolon hle, hle⟩

theorem placed_ret (hword : word.fits source = true) (hsemicolon : semicolon.fits source = true)
    (hstart : word.start ≤ value.span.start) (h : (value.outline scope).Placed source)
    (hstop : value.span.stop ≤ semicolon.stop) :
    ((Item.ret (some value) ⟨word.start, semicolon.stop⟩).outline scope).Placed source := by
  obtain ⟨-, hle⟩ := Expr.fits_of_placed h
  exact ⟨fits_across hword hsemicolon (by omega), placedAll_singleton hstart h hstop⟩

theorem placed_branch (hword : word.fits source = true) (hstart : word.start ≤ condition.span.start)
    (h : (condition.outline scope).Placed source) (hthen : condition.span.stop ≤ yes.span.start)
    (hyes : (yes.outline scope).Placed source) :
    ((Item.branch word.start condition yes none).outline scope).Placed source := by
  obtain ⟨-, hle⟩ := Expr.fits_of_placed h
  obtain ⟨hfits, hle'⟩ := Item.fits_of_placed hyes
  refine ⟨fits_across hword hfits (by omega), ?_⟩
  simp only [PlacedAll, Expr.span_outline, Item.span_outline]
  exact ⟨hstart, h, hthen, hyes, Nat.le_refl _⟩

theorem placed_branchElse (hword : word.fits source = true)
    (hstart : word.start ≤ condition.span.start) (h : (condition.outline scope).Placed source)
    (hthen : condition.span.stop ≤ yes.span.start) (hyes : (yes.outline scope).Placed source)
    (helse : yes.span.stop ≤ no.span.start)
    (hno : (no.outline (yes.after scope)).Placed source) :
    ((Item.branch word.start condition yes (some no)).outline scope).Placed source := by
  obtain ⟨-, hle⟩ := Expr.fits_of_placed h
  obtain ⟨-, hle'⟩ := Item.fits_of_placed hyes
  obtain ⟨hfits, hle''⟩ := Item.fits_of_placed hno
  refine ⟨fits_across hword hfits (by omega), ?_⟩
  simp only [PlacedAll, Expr.span_outline, Item.span_outline]
  exact ⟨hstart, h, hthen, hyes, helse, hno, Nat.le_refl _⟩

theorem placed_declare {type name : String} (hword : word.fits source = true)
    (hsemicolon : semicolon.fits source = true) (hle : word.start ≤ semicolon.stop) :
    ((Item.declare type name none ⟨word.start, semicolon.stop⟩).outline scope).Placed source :=
  ⟨fits_across hword hsemicolon hle, hle⟩

theorem placed_declareValue {type name : String} (hword : word.fits source = true)
    (hsemicolon : semicolon.fits source = true) (hstart : word.start ≤ value.span.start)
    (h : (value.outline scope).Placed source) (hstop : value.span.stop ≤ semicolon.stop) :
    ((Item.declare type name (some value) ⟨word.start, semicolon.stop⟩).outline scope).Placed
      source := by
  obtain ⟨-, hle⟩ := Expr.fits_of_placed h
  exact ⟨fits_across hword hsemicolon (by omega), placedAll_singleton hstart h hstop⟩

theorem placed_evaluate (h : (value.outline scope).Placed source)
    (hsemicolon : semicolon.fits source = true) (hstop : value.span.stop ≤ semicolon.stop) :
    ((Item.evaluate value semicolon.stop).outline scope).Placed source := by
  obtain ⟨hfits, hle⟩ := Expr.fits_of_placed h
  exact ⟨fits_across hfits hsemicolon (by omega), placedAll_singleton (Nat.le_refl _) h hstop⟩

end

/-- The `condition` in brackets behind `word` lies between that word and the branches. -/
theorem Reads.lies_head {word opening closing : SnippetToken} {condition : Expr}
    {ts : List SnippetToken} (h : Reads (.expr condition) ts) (scope : Scope)
    (hfits : ∀ t ∈ word :: opening :: ts ++ [closing], t.span.fits source = true)
    {start stop : Nat} (hlaid : Laid start (word :: opening :: ts ++ [closing]) stop) :
    start ≤ word.span.start ∧ word.span.start ≤ condition.span.start ∧
      (condition.outline scope).Placed source ∧ condition.span.stop ≤ stop := by
  obtain ⟨hstart, hlt, hopening, hlt', hlaid⟩ := hlaid
  obtain ⟨middle, hts, hclosing, hlt'', hle⟩ := laid_append.mp hlaid
  have hle : closing.span.stop ≤ stop := hle
  obtain ⟨hcondition, hplaced, hend⟩ := h.lies scope (fun t ht => hfits t (by simp [ht])) hts
  exact ⟨hstart, by omega, hplaced, by omega⟩

/-- The outline of what was read from the tokens of `ps` lies where they do, if each of them stands
between characters of `source`. -/
theorem Forms.lies {isType : String → Bool} {passage : Passage} {ps : List Piece}
    (h : Forms isType passage ps) (hfits : ∀ t ∈ tokensOf ps, t.span.fits source = true)
    {start stop : Nat} (hlaid : Laid start (tokensOf ps) stop) : passage.Lies source start stop := by
  -- As for phrases: `hlaid` is cut where the parts meet. The scope of a part is that behind the part
  -- in front of it, so the claim is for all scopes.
  induction h generalizing start stop with
  | @suppressed sign word opening closing body item ps hs hw ho hbody hc h ih =>
    intro scope
    rw [tokensOf_append, tokensOf_map_token] at hlaid hfits
    obtain ⟨middle, hsign, hps⟩ := laid_append.mp hlaid
    obtain ⟨hstart, hplaced, hstop⟩ :=
      ih (fun t ht => hfits t (List.mem_append_right _ ht)) hps scope
    exact ⟨Nat.le_trans hsign.le hstart, placed_suppress hplaced, hstop⟩
  | @block opening closing items ps ho h hc ih =>
    intro scope
    simp only [List.cons_append, tokensOf_cons, tokensOf_append, tokensOf_nil, Piece.tokens,
      List.nil_append] at hlaid hfits
    obtain ⟨hstart, hlt, hlaid⟩ := hlaid
    obtain ⟨middle, hps, hclosing, hlt', hle⟩ := laid_append.mp hlaid
    have hitems := ih (fun t ht => hfits t (by simp [ht])) hps scope
    exact ⟨hstart, placed_block (hfits opening (by simp)) (hfits closing (by simp)) (by omega)
      hitems (by omega), hle⟩
  | @leave word semicolon hw hs =>
    intro scope
    obtain ⟨hstart, hlt, hsemi, hlt', hle⟩ := hlaid
    exact ⟨hstart, placed_leave (hfits word (by simp [Piece.tokens]))
      (hfits semicolon (by simp [Piece.tokens])) (by omega), hle⟩
  | @ret word semicolon value ts hw h hs =>
    intro scope
    rw [tokensOf_map_token] at hlaid hfits
    obtain ⟨hstart, hlt, hlaid⟩ := hlaid
    obtain ⟨middle, hts, hsemi, hlt', hle⟩ := laid_append.mp hlaid
    obtain ⟨hvalue, hplaced, hend⟩ := h.lies scope (fun t ht => hfits t (by simp [ht])) hts
    exact ⟨hstart, placed_ret (hfits word (by simp)) (hfits semicolon (by simp)) (by omega) hplaced
      (by omega), hle⟩
  | @branch word opening closing condition ts yes ps hw ho h hc hyes ih =>
    intro scope
    rw [tokensOf_append, tokensOf_map_token] at hlaid hfits
    obtain ⟨middle, hhead, hps⟩ := laid_append.mp hlaid
    obtain ⟨hstart, hcondition, hplaced, hend⟩ :=
      h.lies_head scope (fun t ht => hfits t (List.mem_append_left _ ht)) hhead
    obtain ⟨hstart', hplaced', hstop⟩ :=
      ih (fun t ht => hfits t (List.mem_append_right _ ht)) hps scope
    exact ⟨hstart, placed_branch (hfits word (by simp)) hcondition hplaced (by omega) hplaced',
      hstop⟩
  | @branchElse word opening closing other condition ts yes no ps qs hw ho h hc hyes hclosed hother
      hno ih ihno =>
    intro scope
    rw [tokensOf_append, tokensOf_append, tokensOf_map_token, tokensOf_cons] at hlaid hfits
    obtain ⟨middle, hfront, hother, hlt, hqs⟩ := laid_append.mp hlaid
    obtain ⟨middle', hhead, hps⟩ := laid_append.mp hfront
    obtain ⟨hstart, hcondition, hplaced, hend⟩ := h.lies_head scope
      (fun t ht => hfits t (List.mem_append_left _ (List.mem_append_left _ ht))) hhead
    obtain ⟨hstart', hplaced', hstop⟩ := ih (fun t ht => hfits t (by simp [ht])) hps scope
    obtain ⟨hstart'', hplaced'', hstop'⟩ :=
      ihno (fun t ht => hfits t (by simp [ht])) hqs (yes.after scope)
    exact ⟨hstart, placed_branchElse (hfits word (by simp)) hcondition hplaced (by omega) hplaced'
      (by omega) hplaced'', hstop'⟩
  | @declare type place semicolon ht hfree htype hp hs =>
    intro scope
    rw [tokensOf_map_token] at hlaid hfits
    obtain ⟨hstart, hlt, hplace, hlt', hsemi, hlt'', hle⟩ := hlaid
    exact ⟨hstart, placed_declare (hfits type (by simp)) (hfits semicolon (by simp)) (by omega), hle⟩
  | @declareValue type place equals semicolon value ts ht hfree htype hp he h hs =>
    intro scope
    rw [tokensOf_map_token] at hlaid hfits
    obtain ⟨hstart, hlt, hplace, hlt', hequals, hlt'', hlaid⟩ := hlaid
    obtain ⟨middle, hts, hsemi, hlt₃, hle⟩ := laid_append.mp hlaid
    obtain ⟨hvalue, hplaced, hend⟩ := h.lies scope (fun t ht => hfits t (by simp [ht])) hts
    exact ⟨hstart, placed_declareValue (hfits type (by simp)) (hfits semicolon (by simp)) (by omega)
      hplaced (by omega), hle⟩
  | @evaluate value ts semicolon h hreturn hif hs =>
    intro scope
    simp only [tokensOf_cons, tokensOf_nil, Piece.tokens, List.append_nil] at hlaid hfits
    obtain ⟨middle, hts, hsemi, hlt, hle⟩ := laid_append.mp hlaid
    obtain ⟨hvalue, hplaced, hend⟩ := h.lies scope (fun t ht => hfits t (by simp [ht])) hts
    exact ⟨hvalue, placed_evaluate hplaced (hfits semicolon (by simp)) (by omega), hle⟩
  | nil => exact fun scope => hlaid
  | @cons item items ps qs h hopen hrest ih ihrest =>
    intro scope
    rw [tokensOf_append] at hlaid hfits
    obtain ⟨middle, hps, hqs⟩ := laid_append.mp hlaid
    obtain ⟨hstart, hplaced, hstop⟩ := ih (fun t ht => hfits t (by simp [ht])) hps scope
    have hitems := ihrest (fun t ht => hfits t (by simp [ht])) hqs (item.after scope)
    refine ⟨?_, hplaced, hitems.mono ?_ (Nat.le_refl _)⟩ <;> rw [Item.span_outline]
    · exact hstart
    · exact hstop

/-! ## Parsing -/

/-- The `tree` with its `types` shows the outline `o`. -/
structure Shows (tree : Tree) (types : TypeTable) (o : Outline) : Prop where
  stands : o.Stands tree.nodes types none 0
  root : tree.root = o.place 0
  size : tree.nodes.size = o.size
  sound : tree.Sound

/-- A token `t` stands between characters of the text. -/
theorem fits_of_mem_tokensAt {ls : List Lexeme} {t : SnippetToken} (ht : t ∈ tokensAt 0 ls) :
    t.span.fits (textOf ls) = true := by
  obtain ⟨front, back, htext, hstart, hstop⟩ := exists_text_of_mem_tokensAt ht
  refine Span.fits_iff.mpr ⟨by omega, ?_, ⟨front, t.text.toList ++ back, by simp [htext], by omega⟩,
    ⟨front ++ t.text.toList, back, htext, by simp; omega⟩⟩
  rw [htext]
  simp
  omega

/-! ## Declared scopes -/

/-- A scope that declarations make, from `basic` on. -/
inductive Scope.Declared : Scope → Prop where
  | basic : Declared .basic
  | path {scope : Scope} (path : String) (h : Declared scope) : Declared { scope with path }
  | subtype {scope : Scope} (sub super : String) (h : Declared scope) :
    Declared (scope.subtype sub super)
  | method {scope : Scope} (owner name returns : String) (h : Declared scope) :
    Declared (scope.method owner name returns)
  | addLocal {scope : Scope} (name type : String) (h : Declared scope) :
    Declared (scope.addLocal name type)
  | field {scope : Scope} (name type : String) (h : Declared scope) :
    Declared (scope.field name type)
  | withSelf {scope : Scope} (name : String) (h : Declared scope) :
    Declared (scope.withSelf name)

namespace Scope

theorem declared_java : Scope.java.Declared := by
  unfold java
  refine List.foldlRecOn _ _ ?_ fun scope h entry _ => ?_
  · exact List.foldlRecOn _ _ .basic fun scope h entry _ => .subtype entry.1 entry.2 h
  · exact List.foldlRecOn _ _ h fun scope h name _ => .method entry.1 name entry.2.2 h

theorem bindings_intern (types : TypeTable) (name : String) :
    (types.intern name).2.bindings = types.bindings := by
  unfold TypeTable.intern
  split <;> rfl

/-- Declarations bind no node of `scope`. -/
theorem Declared.bindings_eq {scope : Scope} (h : scope.Declared) : scope.types.bindings = [] := by
  induction h with
  | basic =>
    exact List.foldlRecOn (motive := fun types : TypeTable => types.bindings = []) _ _
      (bindings_intern {} _) fun types h name _ => (bindings_intern types name).trans h
  | path path _ ih => exact ih
  | subtype sub super _ ih => simpa [Scope.subtype, TypeTable.addSupertype, bindings_intern] using ih
  | method owner name returns _ ih => simpa [Scope.method, bindings_intern] using ih
  | addLocal name type _ ih => simpa [Scope.addLocal, bindings_intern] using ih
  | field name type _ ih => simpa [Scope.field, bindings_intern] using ih
  | withSelf name _ ih => simpa [Scope.withSelf, bindings_intern] using ih

end Scope

variable {text : String} {tokens : List SnippetToken} {items : List Item}

/-- The outline of a snippet is placed in its source `text`. -/
theorem placed_unitOutline (htokens : SnippetToken.ofText text = .ok tokens)
    (hitems : Item.ofTokens scope.isType tokens = .ok items) :
    (unitOutline scope text items).Placed text.toList := by
  obtain ⟨ls, htext, hlexes, rfl⟩ := SnippetToken.scan_eq_ok_iff.mp htokens
  obtain ⟨ps, hps, hforms⟩ := forms_of_ofTokens hitems
  have hlaid := hlexes.laid 0
  rw [Nat.zero_add, bytesOf, htext] at hlaid
  have hfits : ∀ t ∈ tokensAt 0 ls, t.span.fits text.toList = true := fun t ht => by
    rw [← htext]
    exact fits_of_mem_tokensAt ht
  rw [← hps] at hlaid hfits
  refine ⟨Span.fits_iff.mpr ⟨Nat.zero_le _, Nat.le_refl _, ⟨[], _, rfl, rfl⟩,
    ⟨_, [], (List.append_nil _).symm, rfl⟩⟩, hforms.lies hfits hlaid scope⟩

/-- A `text` is parsed when its `tokens` make `items`, and then the tree shows their outline. -/
theorem exists_parse (hunbound : scope.types.bindings = [])
    (htokens : SnippetToken.ofText text = .ok tokens)
    (hitems : Item.ofTokens scope.isType tokens = .ok items) :
    ∃ tree types, parse scope text = .ok (tree, types) ∧ tree.path = scope.path ∧
      tree.source = text ∧ types.types = scope.types.types ∧
      Shows tree types (unitOutline scope text items) := by
  have hstart : (Draft.start scope text).Unbound := fun id _ => by
    simp [Draft.start, TypeTable.binding?, hunbound, Assoc.get?]
  obtain ⟨hid, hgrown, -, hstands⟩ := Draft.plant_spec hstart (unitOutline scope text items)
  have htypes := congrArg (fun s : Scope => s.types.types)
    (Draft.bare_plant (Draft.start scope text) (unitOutline scope text items))
  have hsize := hgrown.size
  rw [show (Draft.start scope text).builder.nodes.size = 0 from rfl] at hid hstands hsize
  rw [Nat.zero_add] at hsize
  have hplaced := placed_unitOutline htokens hitems
  have helaborate := elaborate_eq scope text items
  generalize (Draft.start scope text).plant (unitOutline scope text items) = planted at *
  obtain ⟨root, d⟩ := planted
  have hsource : d.builder.source = text := hgrown.source
  obtain ⟨hfinish, hsound⟩ := finish_of_stands hstands hsize (by rwa [hsource])
  simp only at hid
  simp only [hid, hfinish] at helaborate
  have hparse : parse scope text = .ok (⟨d.builder.path, d.builder.source, d.builder.nodes,
      (unitOutline scope text items).place 0⟩, d.scope.types) := by
    unfold parse
    simp only [htokens, hitems, bind, Except.bind, helaborate]
  exact ⟨_, _, hparse, hgrown.path, hsource, htypes, hstands, rfl, hsize, hsound⟩

/-- A `text` that was parsed has `tokens` that make `items`. -/
theorem exists_items_of_parse {tree : Tree} {types : TypeTable}
    (h : parse scope text = .ok (tree, types)) :
    ∃ tokens items, SnippetToken.ofText text = .ok tokens ∧
      Item.ofTokens scope.isType tokens = .ok items := by
  obtain ⟨tokens, htokens, h⟩ := exists_of_bind_eq_ok h
  obtain ⟨items, hitems, -⟩ := exists_of_bind_eq_ok h
  exact ⟨tokens, items, htokens, hitems⟩

end Snippet

end TreeLint
