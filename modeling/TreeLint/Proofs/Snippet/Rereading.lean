import Mathlib.Data.List.Pairwise
import TreeLint.Proofs.Edit.Order
import TreeLint.Proofs.Snippet.Splicing

/-!
# Reading a snippet again

The edits of a revision can be made in the text of a snippet, and the new text is read as the revised
items.

- `Cut`: a text with its lexemes and pieces.
- `Statement.Lies`: where a statement stands in the text; statements stand one behind the other
  (`Cut.ordered`).
- `editsFor`: the edits that give the statements of a snippet their fates.
- `Cut.exists_reread`: the new text, and what it is read as.
- `Item.direct`: the statements that stand directly in a block; `allStay_of_direct` says that they can
  be taken away.
-/

namespace TreeLint

namespace Snippet

/-- The text `source` is read as `items`, with its lexemes `ls` and the pieces `ps` of its
tokens. -/
structure Cut (isType : String → Bool) (source : String) (items : List Item) (ls : List Lexeme)
    (ps : List Piece) : Prop where
  text : textOf ls = source.toList
  lexes : Lexes ls []
  tokens : tokensAt 0 ls = tokensOf ps
  forms : Forms isType (.items items) ps

variable {isType : String → Bool} {source : String} {items : List Item} {ls : List Lexeme}
  {ps : List Piece}

theorem exists_cut {tokens : List SnippetToken} (htokens : SnippetToken.ofText source = .ok tokens)
    (hitems : Item.ofTokens isType tokens = .ok items) :
    ∃ ls ps, Cut isType source items ls ps ∧ tokensOf ps = tokens := by
  obtain ⟨ls, htext, hlexes, rfl⟩ := SnippetToken.scan_eq_ok_iff.mp htokens
  obtain ⟨ps, hps, hforms⟩ := forms_of_ofTokens hitems
  exact ⟨ls, ps, ⟨htext, hlexes, hps.symm, hforms⟩, hps⟩

theorem Cut.laid (h : Cut isType source items ls ps) :
    Laid 0 (tokensOf ps) (Text.byteSize source.toList) := by
  have hlaid := h.lexes.laid 0
  rwa [Nat.zero_add, bytesOf, h.text, h.tokens] at hlaid

theorem Cut.ofText (h : Cut isType source items ls ps) :
    SnippetToken.ofText source = .ok (tokensOf ps) :=
  SnippetToken.scan_eq_ok_iff.mpr ⟨ls, h.text, h.lexes, h.tokens⟩

theorem Cut.ofTokens (h : Cut isType source items ls ps) :
    Item.ofTokens isType (tokensOf ps) = .ok items :=
  ofTokens_of_forms h.forms

/-! ## Where statements stand -/

theorem mem_filterMap_statement? {value : Expr} {stop : Nat} :
    (value, stop) ∈ ps.filterMap Piece.statement? ↔
      ∃ ts semicolon, .statement value ts semicolon ∈ ps ∧ semicolon.span.stop = stop := by
  rw [List.mem_filterMap]
  constructor
  · rintro ⟨p, hp, heq⟩
    cases p with
    | token t => cases heq
    | statement value' ts semicolon =>
      obtain ⟨rfl, rfl⟩ := Prod.mk.inj (Option.some.inj heq)
      exact ⟨ts, semicolon, hp, rfl⟩
  · rintro ⟨ts, semicolon, hp, rfl⟩
    exact ⟨_, hp, rfl⟩

/-- The tokens of a piece `p` stand among those of all pieces `ps`. -/
theorem exists_laid_of_mem {offset stop : Nat} (hlaid : Laid offset (tokensOf ps) stop) {p : Piece}
    (hp : p ∈ ps) : ∃ start end', offset ≤ start ∧ Laid start p.tokens end' ∧ end' ≤ stop := by
  obtain ⟨front, back, rfl⟩ := List.append_of_mem hp
  rw [tokensOf_append, tokensOf_cons] at hlaid
  obtain ⟨start, hfront, hlaid⟩ := laid_append.mp hlaid
  obtain ⟨end', hp, hback⟩ := laid_append.mp hlaid
  exact ⟨start, end', hfront.le, hp, hback.le⟩

/-- The statements among the pieces `ps` stand one behind the other. -/
theorem pairwise_of_laid {offset stop : Nat} (hreads : ∀ p ∈ ps, p.Read)
    (hlaid : Laid offset (tokensOf ps) stop) :
    (ps.filterMap Piece.statement?).Pairwise fun a b => a.2 ≤ b.1.span.start := by
  induction ps generalizing offset with
  | nil => exact .nil
  | cons p ps ih =>
    have hrest : ∀ q ∈ ps, q.Read := fun q hq => hreads q (List.mem_cons_of_mem p hq)
    rw [tokensOf_cons] at hlaid
    obtain ⟨middle, hp, hps⟩ := laid_append.mp hlaid
    cases p with
    | token t => exact ih hrest hps
    | statement value ts semicolon =>
      refine List.pairwise_cons.mpr ⟨?_, ih hrest hps⟩
      rintro ⟨value', stop'⟩ hmem
      obtain ⟨ts', semicolon', hq, -⟩ := mem_filterMap_statement?.mp hmem
      obtain ⟨t, us, rfl, hstart⟩ := (hrest _ hq).1.exists_first
      obtain ⟨start, end', hle, hlaid', -⟩ := exists_laid_of_mem hps hq
      have hsemicolon := hp.mem (List.mem_append_right ts (List.mem_singleton_self semicolon))
      have hfirst := hlaid'.mem (List.mem_append_left _ List.mem_cons_self)
      simp only [hstart]
      omega

/-- The statement `s` stands in the text: so do its expression and what is at the start of its
chain, `root`. -/
structure Statement.Lies (source : String) (s : Statement) : Prop where
  fits : s.span.fits source.toList = true
  call_fits : s.value.span.fits source.toList = true
  start_lt : s.value.span.start < s.stop
  call_le : s.value.span.stop ≤ s.stop
  stop_le : s.stop ≤ Text.byteSize source.toList
  root : ∀ root, s.value.root? = some root →
    root.span.fits source.toList = true ∧ root.span.stop ≤ s.stop

/-- What is at the start of a chain, `root`, stands where the chain does. -/
theorem Expr.placed_root? {scope : Scope} {text : List Char} : ∀ {e root : Expr},
    e.root? = some root → (e.outline scope).Placed text →
      (root.outline scope).Placed text ∧ root.span.stop ≤ e.span.stop
  | .callOn receiver _ nameStop _ stop, root, hroot, hplaced => by
    obtain ⟨-, -, ⟨-, -, hreceiver, hle⟩, harguments⟩ := hplaced
    have hle' : nameStop ≤ stop := harguments.le
    rw [Expr.span_outline] at hle
    have hle : receiver.span.stop ≤ nameStop := hle
    simp only [Expr.span]
    rw [Expr.root?] at hroot
    cases hcall : receiver.isCall with
    | true =>
      rw [hcall, if_pos rfl] at hroot
      obtain ⟨hplaced, hstop⟩ := Expr.placed_root? hroot hreceiver
      exact ⟨hplaced, by omega⟩
    | false =>
      rw [hcall, if_neg (by decide)] at hroot
      cases hroot
      exact ⟨hreceiver, by omega⟩
  | .literal _ _, _, h, _ | .self _, _, h, _ | .name _ _, _, h, _ | .paren _ _, _, h, _
  | .create _ _ _, _, h, _ | .callOwn _ _ _ _, _, h, _ | .select _ _ _, _, h, _
  | .assign _ _, _, h, _ => by cases h

section

variable {scope : Scope} (h : Cut isType source items ls ps)

include h

theorem Cut.ordered : (Item.statementsAll scope items).Pairwise fun s t =>
    s.stop ≤ t.value.span.start := by
  have hpairwise := pairwise_of_laid h.forms.read h.laid
  rw [← h.forms.statements_eq scope, List.pairwise_map] at hpairwise
  exact hpairwise

theorem Cut.exists_piece {s : Statement} (hs : s ∈ Item.statementsAll scope items) :
    ∃ ts semicolon, .statement s.value ts semicolon ∈ ps ∧ semicolon.span.stop = s.stop := by
  refine mem_filterMap_statement?.mp ?_
  rw [← h.forms.statements_eq scope]
  exact List.mem_map_of_mem hs

theorem Cut.lies {s : Statement} (hs : s ∈ Item.statementsAll scope items) : s.Lies source := by
  obtain ⟨ts, semicolon, hp, hstop⟩ := h.exists_piece hs
  obtain ⟨start, end', -, hlaid, hle⟩ := exists_laid_of_mem h.laid hp
  obtain ⟨middle, hts, hsemicolon, hlt, hend⟩ := laid_append.mp hlaid
  have hend : semicolon.span.stop ≤ end' := hend
  have hfits : ∀ t ∈ ts ++ [semicolon], t.span.fits source.toList = true := fun t ht => by
    rw [← h.text]
    refine fits_of_mem_tokensAt ?_
    rw [h.tokens]
    exact List.mem_flatMap.mpr ⟨_, hp, ht⟩
  obtain ⟨-, hplaced, hvalue⟩ := (h.forms.read _ hp).1.lies s.scope (fun t ht =>
    hfits t (List.mem_append_left _ ht)) hts
  obtain ⟨hvalueFits, hspan⟩ := Expr.fits_of_placed hplaced
  have hsemicolonFits := boundary_of_fits (hfits semicolon (by simp))
  refine ⟨fits_of_boundary ?_ (boundary_of_fits hvalueFits).1 (hstop ▸ hsemicolonFits.2),
    hvalueFits, by omega, by omega, by omega, fun root hroot => ?_⟩
  · omega
  · obtain ⟨hrootPlaced, hrootStop⟩ := Expr.placed_root? hroot hplaced
    exact ⟨(Expr.fits_of_placed hrootPlaced).1, by omega⟩

end

/-! ## Edits of statements -/

variable {fate : Nat → Fate} {scope : Scope} {statements : List Statement}

/-- The edits that give `statements` their fates. -/
def editsFor (fate : Nat → Fate) (source : String) (statements : List Statement) : List Edit :=
  statements.flatMap fun s => (fate s.value.span.start).edits source s.value s.stop

/-- The pieces `ps` of a passage ask for the edits of its statements. -/
theorem Forms.editsIn_eq {r : Revision} {passage : Passage} (h : Forms isType passage ps)
    (scope : Scope) :
    editsIn r source ps = editsFor r.fate source (passage.statements scope) := by
  have hpieces : editsIn r source ps = (ps.filterMap Piece.statement?).flatMap fun a =>
      (r.fate a.1.span.start).edits source a.1 a.2 := by
    clear h
    induction ps with
    | nil => rfl
    | cons p ps ih =>
      rw [editsIn_cons, ih]
      cases p <;> rfl
  rw [hpieces, ← h.statements_eq scope, List.flatMap_map]
  rfl

/-- An edit `e` of a statement `s` does not reach out of it. -/
theorem Statement.Lies.edits {s : Statement} (hs : s.Lies source) {fate : Fate} {e : Edit}
    (he : e ∈ fate.edits source s.value s.stop) :
    e.span.start = s.value.span.start ∧ e.span.start ≤ e.span.stop ∧ e.span.stop ≤ s.stop ∧
      e.span.fits source.toList = true := by
  have hfits := boundary_of_fits hs.fits
  have hlt := hs.start_lt
  refine ⟨Fate.start_of_mem_edits he, ?_⟩
  cases fate with
  | keep => cases he
  | assign =>
    obtain ⟨root, -, rfl⟩ := List.mem_map.mp he
    exact ⟨Nat.le_refl _, hlt.le, fits_of_boundary (Nat.le_refl _) hfits.1 hfits.1⟩
  | drop =>
    obtain rfl := List.mem_singleton.mp he
    exact ⟨hlt.le, Nat.le_refl _, hs.fits⟩

section

variable (hordered : statements.Pairwise fun s t => s.stop ≤ t.value.span.start)
  (hlies : ∀ s ∈ statements, s.Lies source)

include hordered hlies

/-- Edits of `statements` in order are in order. -/
theorem before_editsFor : (editsFor fate source statements).Pairwise Edit.Before := by
  refine List.pairwise_flatMap.mpr ⟨fun s _ => ?_, hordered.imp_of_mem fun {s t} hs ht hle => ?_⟩
  · cases fate s.value.span.start with
    | keep => exact .nil
    | assign =>
      rw [Fate.edits]
      cases s.value.plainRoot? with
      | none => exact .nil
      | some root => exact List.pairwise_singleton _ _
    | drop => exact List.pairwise_singleton _ _
  · intro e he e' he'
    obtain ⟨hstart, hspan, hstop, -⟩ := (hlies s hs).edits he
    obtain ⟨hstart', -, -, -⟩ := (hlies t ht).edits he'
    have hlt := (hlies s hs).start_lt
    exact Edit.before_iff.mpr ⟨by omega, by omega, by omega⟩

/-- No edit `e` reaches into what stands in front in a statement `s` that is kept. -/
theorem apart_editsFor {s : Statement} (hs : s ∈ statements)
    (hkept : fate s.value.span.start = .keep) {span : Span}
    (hstart : span.start = s.value.span.start) (hspan : span.start ≤ span.stop)
    (hstop : span.stop ≤ s.stop) {e : Edit} (he : e ∈ editsFor fate source statements) :
    e.Apart span := by
  obtain ⟨t, ht, he⟩ := List.mem_flatMap.mp he
  obtain ⟨hestart, hespan, hestop, -⟩ := (hlies t ht).edits he
  have hlt := (hlies s hs).start_lt
  have hlt' := (hlies t ht).start_lt
  obtain ⟨i, hi, rfl⟩ := List.mem_iff_getElem.mp hs
  obtain ⟨j, hj, rfl⟩ := List.mem_iff_getElem.mp ht
  rcases Nat.lt_trichotomy i j with hij | rfl | hij
  · have := List.pairwise_iff_getElem.mp hordered i j hi hj hij
    exact .inr ⟨by omega, by omega⟩
  · rw [hkept] at he
    cases he
  · have := List.pairwise_iff_getElem.mp hordered j i hj hi hij
    exact .inl ⟨by omega, by omega⟩

end

theorem fits_editsFor (hlies : ∀ s ∈ statements, s.Lies source) {e : Edit}
    (he : e ∈ editsFor fate source statements) : e.span.fits source.toList = true := by
  obtain ⟨s, hs, he⟩ := List.mem_flatMap.mp he
  exact ((hlies s hs).edits he).2.2.2

/-- What the `edits` do not reach, at `span`, is written as before. -/
theorem textOn_move {source' : String} {edits : List Edit}
    (h : Splice 0 source.toList edits source'.toList) {span : Span}
    (hfits : span.fits source.toList = true) (hapart : ∀ e ∈ edits, e.Apart span) :
    textOn source' (span.move (.ofEdits edits)) = textOn source span := by
  obtain ⟨front, middle, back, hsource, hstart, hstop⟩ :=
    @exists_cut_of_fits span [] source.toList hfits (Nat.zero_le _)
  obtain ⟨front', back', hsource', hplace, hplace'⟩ :=
    @Splice.exists_append 0 0 _ _ _ h _ _ _ hsource span hstart hstop hapart
  rw [textOn_append hsource (by simpa using hstart) hstop]
  refine textOn_append hsource' ?_ ?_
  · simpa [Motion.ofEdits] using hplace
  · simp only [Span.stop_move, Span.start_move, Motion.ofEdits, hplace, hplace']

/-! ## The new text -/

/-- **Reading again.** The edits of a revision `r` can be made, and the new text `source'` is read
as the revised items. -/
theorem Cut.exists_reread (h : Cut isType source items ls ps) (scope : Scope) {r : Revision}
    (hmotion : r.motion = .ofEdits (editsFor r.fate source (Item.statementsAll scope items)))
    (hstays : Item.AllStay r items) (hclosed : (Passage.items items).Closed r ps) :
    ∃ source' ls', Splice 0 source.toList
        (editsFor r.fate source (Item.statementsAll scope items)) source'.toList ∧
      Cut isType source' (Item.reviseAll r items) ls' (revisePieces r ps) := by
  have hedits : editsIn r source ps = editsFor r.fate source (Item.statementsAll scope items) :=
    h.forms.editsIn_eq scope
  have hspliceable : Spliceable r source 0 0 ls ps := by
    refine ⟨h.lexes, h.tokens, h.forms.read, (h.forms.guarded hstays).chain,
      ⟨[], h.text.symm, rfl⟩, ?_⟩
    rw [hedits, hmotion]
    exact Motion.follows_ofEdits _
  obtain ⟨ls', hspliced, -⟩ := hspliceable.succeeds
  have hsplice := hspliced.splice
  rw [hedits, h.text] at hsplice
  refine ⟨String.ofList (textOf ls'), ls', by rwa [String.toList_ofList], ?_, hspliced.lexes,
    hspliced.tokens, h.forms.revise hstays hclosed⟩
  rw [String.toList_ofList]

/-- What is found in the new text `source'` is what was found in the statements that are kept. -/
theorem Cut.findings_reread (h : Cut isType source items ls ps) {r : Revision}
    (settings : DiscardedResult) {source' : String}
    (hmotion : r.motion = .ofEdits (editsFor r.fate source (Item.statementsAll scope items)))
    (hsplice : Splice 0 source.toList (editsFor r.fate source (Item.statementsAll scope items))
      source'.toList) (hstays : Item.AllStay r items)
    (hassign : ∀ s ∈ Item.statementsAll scope items, r.fate s.value.span.start = .assign →
      s.value.plainRoot?.isSome = true) :
    Item.findingsAll settings source' scope (Item.reviseAll r items) =
      ((Item.findingsAll settings source scope items).filter fun f =>
        r.fate f.call.start = .keep).map (Finding.move r.motion) := by
  refine findings_revise hstays (fun s hs hkept root hroot => ?_) hassign
  obtain ⟨hfits, hstop⟩ := (h.lies hs).root root hroot
  have hle := (Span.fits_iff.mp hfits).1
  rw [hmotion]
  exact textOn_move hsplice hfits fun e he => apart_editsFor h.ordered (fun _ => h.lies) hs hkept
    (Expr.start_root? hroot) hle hstop he

/-! ## Statements that can be taken away -/

/-- The span of an item that is an expression statement, up to its `stop`. -/
def Item.ownSpan? : Item → Option Span
  | .evaluate value stop => some ⟨value.span.start, stop⟩
  | _ => none

mutual

/-- The spans of the expression statements that stand directly in a `block` in the item, with no tag
in front. -/
def Item.direct : Item → List Span
  | .block items _ => Item.directAll items
  | .suppressed _ item => item.direct
  | .branch _ _ yes none => yes.direct
  | .branch _ _ yes (some no) => yes.direct ++ no.direct
  | .ret _ _ | .declare _ _ _ _ | .evaluate _ _ => []

/-- The spans of the expression statements among items, with no tag in front, and of those that
stand directly in a block in one of them (`direct`). -/
def Item.directAll : List Item → List Span
  | [] => []
  | item :: rest => item.ownSpan?.toList ++ item.direct ++ Item.directAll rest

end

theorem Item.eq_of_ownSpan? {item : Item} {span : Span} (h : span ∈ item.ownSpan?.toList) :
    ∃ value stop, item = .evaluate value stop ∧ span = ⟨value.span.start, stop⟩ := by
  cases item with
  | evaluate value stop => exact ⟨value, stop, rfl, List.mem_singleton.mp h⟩
  | _ => cases h

mutual

/-- What stands directly in a block, at `span`, is a statement. -/
theorem Item.exists_of_mem_direct (scope : Scope) : ∀ (item : Item) {span : Span},
    span ∈ item.direct → ∃ s ∈ item.statements scope, s.span = span
  | .block items _, _, h => Item.exists_of_mem_directAll scope items h
  | .suppressed _ item, _, h => Item.exists_of_mem_direct scope item h
  | .branch _ _ yes none, _, h => Item.exists_of_mem_direct scope yes h
  | .branch _ _ yes (some no), _, h => by
    rcases List.mem_append.mp h with h | h
    · obtain ⟨s, hs, hspan⟩ := Item.exists_of_mem_direct scope yes h
      exact ⟨s, List.mem_append_left _ hs, hspan⟩
    · obtain ⟨s, hs, hspan⟩ := Item.exists_of_mem_direct (yes.after scope) no h
      exact ⟨s, List.mem_append_right _ hs, hspan⟩
  | .ret _ _, _, h | .declare _ _ _ _, _, h | .evaluate _ _, _, h => by cases h

theorem Item.exists_of_mem_directAll (scope : Scope) : ∀ (items : List Item) {span : Span},
    span ∈ Item.directAll items → ∃ s ∈ Item.statementsAll scope items, s.span = span
  | [], _, h => by cases h
  | item :: rest, span, h => by
    rcases List.mem_append.mp h with h | h
    · rcases List.mem_append.mp h with h | h
      · obtain ⟨value, stop, rfl, rfl⟩ := Item.eq_of_ownSpan? h
        exact ⟨⟨scope, value, stop⟩, List.mem_cons_self, rfl⟩
      · obtain ⟨s, hs, hspan⟩ := Item.exists_of_mem_direct scope item h
        exact ⟨s, List.mem_append_left _ hs, hspan⟩
    · obtain ⟨s, hs, hspan⟩ := Item.exists_of_mem_directAll (item.after scope) rest h
      exact ⟨s, List.mem_append_right _ hs, hspan⟩

end

/-- Only `statements` that begin where one of `spans` does are taken away. -/
def Dropping (r : Revision) (statements : List Statement) (spans : List Span) : Prop :=
  ∀ s ∈ statements, r.fate s.value.span.start = .drop →
    ∃ span ∈ spans, span.start = s.value.span.start

/-- The `statements` begin at different places. -/
abbrev Distinct (statements : List Statement) : Prop :=
  statements.Pairwise fun s t => s.value.span.start ≠ t.value.span.start

/-- Spans of other statements do not count: those of `ts` do nothing to `ss`. -/
theorem Dropping.of_append {r : Revision} {ss ts : List Statement} {spans spans' : List Span}
    (h : Dropping r (ss ++ ts) (spans ++ spans')) (hdistinct : Distinct (ss ++ ts))
    (hss : ∀ span ∈ spans, ∃ s ∈ ss, s.span = span)
    (hts : ∀ span ∈ spans', ∃ t ∈ ts, t.span = span) :
    Dropping r ss spans ∧ Dropping r ts spans' := by
  have hne := (List.pairwise_append.mp hdistinct).2.2
  refine ⟨fun s hs hdropped => ?_, fun t ht hdropped => ?_⟩
  · obtain ⟨span, hspan, hstart⟩ := h s (List.mem_append_left _ hs) hdropped
    rcases List.mem_append.mp hspan with hspan | hspan
    · exact ⟨span, hspan, hstart⟩
    · obtain ⟨t, ht, rfl⟩ := hts span hspan
      exact absurd hstart.symm (hne s hs t ht)
  · obtain ⟨span, hspan, hstart⟩ := h t (List.mem_append_right _ ht) hdropped
    rcases List.mem_append.mp hspan with hspan | hspan
    · obtain ⟨s, hs, rfl⟩ := hss span hspan
      exact absurd hstart (hne s hs t ht)
    · exact ⟨span, hspan, hstart⟩

mutual

/-- An `item` stays when only statements directly in blocks of it are taken away. -/
theorem Item.stays_of_direct {r : Revision} (scope : Scope) : ∀ item : Item,
    Distinct (item.statements scope) → Dropping r (item.statements scope) item.direct → item.Stays r
  | .block items _, hdistinct, h => Item.allStay_of_direct scope items hdistinct h
  | .suppressed _ item, hdistinct, h => Item.stays_of_direct scope item hdistinct h
  | .branch _ _ yes none, hdistinct, h => Item.stays_of_direct scope yes hdistinct h
  | .branch _ _ yes (some no), hdistinct, h => by
    obtain ⟨hyes, hno⟩ := h.of_append hdistinct (fun _ => Item.exists_of_mem_direct scope yes)
      (fun _ => Item.exists_of_mem_direct (yes.after scope) no)
    obtain ⟨hdistinct, hdistinct', -⟩ := List.pairwise_append.mp hdistinct
    exact ⟨Item.stays_of_direct scope yes hdistinct hyes,
      Item.stays_of_direct (yes.after scope) no hdistinct' hno⟩
  | .evaluate value stop, _, h => fun hdropped => by
    obtain ⟨_, hspan, -⟩ := h _ List.mem_cons_self hdropped
    cases hspan
  | .ret _ _, _, _ | .declare _ _ _ _, _, _ => trivial

/-- Each of `items` is taken away or stays when only statements directly in blocks are taken
away. -/
theorem Item.allStay_of_direct {r : Revision} (scope : Scope) : ∀ items : List Item,
    Distinct (Item.statementsAll scope items) →
    Dropping r (Item.statementsAll scope items) (Item.directAll items) → Item.AllStay r items
  | [], _, _ => trivial
  | item :: rest, hdistinct, h => by
    have hown : ∀ span ∈ item.ownSpan?.toList ++ item.direct,
        ∃ s ∈ item.statements scope, s.span = span := fun span hspan => by
      obtain ⟨s, hs, heq⟩ := Item.exists_of_mem_directAll scope [item]
        (List.mem_append_left _ hspan)
      simp only [Item.statementsAll, List.append_nil] at hs
      exact ⟨s, hs, heq⟩
    obtain ⟨hitem, hrest⟩ := h.of_append hdistinct hown
      (fun _ => Item.exists_of_mem_directAll (item.after scope) rest)
    obtain ⟨hdistinct, hdistinct', -⟩ := List.pairwise_append.mp hdistinct
    refine ⟨?_, Item.allStay_of_direct (item.after scope) rest hdistinct' hrest⟩
    cases hdropped : item.isDropped r with
    | true => exact .inl rfl
    | false =>
      refine .inr (Item.stays_of_direct scope item hdistinct fun s hs hdrop => ?_)
      obtain ⟨span, hspan, hstart⟩ := hitem s hs hdrop
      rcases List.mem_append.mp hspan with hspan | hspan
      · -- The item would be the statement that is taken away.
        obtain ⟨value, stop, rfl, rfl⟩ := Item.eq_of_ownSpan? hspan
        obtain rfl := List.mem_singleton.mp hs
        simp [Item.isDropped, hdrop] at hdropped
      · exact ⟨span, hspan, hstart⟩

end

mutual

/-- When nothing is taken away (`h`), an `item` stays. -/
theorem Item.stays_of_kept {r : Revision} (h : ∀ p, r.fate p ≠ .drop) : ∀ item : Item, item.Stays r
  | .block items _ => Item.allStay_of_kept h items
  | .suppressed _ item => Item.stays_of_kept h item
  | .branch _ _ yes none => Item.stays_of_kept h yes
  | .branch _ _ yes (some no) => ⟨Item.stays_of_kept h yes, Item.stays_of_kept h no⟩
  | .evaluate _ _ => h _
  | .ret _ _ | .declare _ _ _ _ => trivial

theorem Item.allStay_of_kept {r : Revision} (h : ∀ p, r.fate p ≠ .drop) : ∀ items : List Item,
    Item.AllStay r items
  | [] => trivial
  | item :: rest => ⟨.inr (Item.stays_of_kept h item), Item.allStay_of_kept h rest⟩

end

/-! ## The tokens that are left -/

/-- Where no result is assigned (`hassign`), a piece `p` stays as it is, or all of it goes. -/
theorem Piece.stays_or_goes {r : Revision} (source : String) (hassign : ∀ p, r.fate p ≠ .assign)
    (p : Piece) :
    (p.edits r source = [] ∧ tokensOf (p.revise r) = p.tokens.map (.move r.motion)) ∨
      ∃ value ts semicolon, p = .statement value ts semicolon ∧ p.revise r = [] ∧
        p.edits r source = [.delete ⟨value.span.start, semicolon.span.stop⟩] := by
  cases p with
  | token t => exact .inl ⟨rfl, rfl⟩
  | statement value ts semicolon =>
    cases hfate : r.fate value.span.start with
    | assign => exact absurd hfate (hassign _)
    | keep => exact .inl ⟨by simp [Piece.edits, Fate.edits, hfate],
        by simp [Piece.revise, Piece.tokens, Revision.tokens, Revision.assigned?, hfate]⟩
    | drop => exact .inr ⟨value, ts, semicolon, rfl, by simp [Piece.revise, hfate],
        by simp [Piece.edits, Fate.edits, hfate]⟩

/-- When statements are taken away, the other tokens of `ps` are left. -/
theorem tokensOf_revisePieces {r : Revision} (hassign : ∀ p, r.fate p ≠ .assign)
    (hreads : ∀ p ∈ ps, p.Read) {offset stop : Nat} (hlaid : Laid offset (tokensOf ps) stop) :
    tokensOf (revisePieces r ps) =
      ((tokensOf ps).filter fun t =>
        !(editsIn r source ps).any fun e => e.span.contains t.span).map (.move r.motion) := by
  induction ps generalizing offset with
  | nil => rfl
  | cons p ps ih =>
    have hrest : ∀ q ∈ ps, q.Read := fun q hq => hreads q (List.mem_cons_of_mem p hq)
    rw [tokensOf_cons] at hlaid
    obtain ⟨middle, hp, hps⟩ := laid_append.mp hlaid
    have hbehind : ∀ t ∈ p.tokens, ∀ e ∈ editsIn r source ps, e.span.contains t.span = false :=
      fun t ht e he => by
        have hstart := le_start_of_mem_editsIn hrest hps he
        have ht := hp.mem ht
        simp only [Span.contains, Bool.and_eq_false_iff, decide_eq_false_iff_not]
        omega
    rw [revisePieces_cons, tokensOf_append, ih hrest hps, tokensOf_cons, List.filter_append,
      List.map_append, editsIn_cons]
    -- The first piece is all there or all gone; the edits of the pieces behind it do not reach into
    -- it.
    rcases p.stays_or_goes source hassign with
      ⟨hedits, hrevise⟩ | ⟨value, ts, semicolon, rfl, hrevise, hedits⟩
    · have hall : p.tokens.filter (fun t =>
          !(editsIn r source ps).any fun e => e.span.contains t.span) = p.tokens :=
        List.filter_eq_self.mpr fun t ht => by simpa using hbehind t ht
      rw [hedits, hrevise, List.nil_append, hall]
    · obtain ⟨t₀, us, rfl, hstart⟩ := (hreads _ List.mem_cons_self).1.exists_first
      have hle := (hp.mem (List.mem_append_right _ (List.mem_singleton_self semicolon))).2.2
      -- The tokens of the statement stand between the ends of what is deleted.
      obtain ⟨end', ⟨-, hts⟩, hsemicolon, hlt, -⟩ := laid_append.mp hp
      have hinside : Laid value.span.start (t₀ :: us ++ [semicolon]) semicolon.span.stop :=
        laid_append.mpr ⟨end', ⟨hstart.le, hts⟩, hsemicolon, hlt, Nat.le_refl _⟩
      have hnone : (Piece.statement value (t₀ :: us) semicolon).tokens.filter (fun t =>
          !(Edit.delete ⟨value.span.start, semicolon.span.stop⟩ ::
            editsIn r source ps).any fun e => e.span.contains t.span) = [] := by
        refine List.filter_eq_nil_iff.mpr fun t ht => ?_
        obtain ⟨hle, -, hle'⟩ := hinside.mem ht
        simp [Edit.span, Span.contains, hle, hle']
      have hsame : (tokensOf ps).filter (fun t =>
          !(Edit.delete ⟨value.span.start, semicolon.span.stop⟩ ::
            editsIn r source ps).any fun e => e.span.contains t.span) =
          (tokensOf ps).filter fun t =>
            !(editsIn r source ps).any fun e => e.span.contains t.span := by
        refine List.filter_congr fun t ht => ?_
        have hbehind := hps.mem ht
        have hout : Span.contains ⟨value.span.start, semicolon.span.stop⟩ t.span = false := by
          simp only [Span.contains, Bool.and_eq_false_iff, decide_eq_false_iff_not]
          omega
        simp [Edit.span, hout]
      rw [hedits, hrevise, List.singleton_append, hnone, hsame]
      rfl

/-! ## What deletions leave -/

section

variable (hassign : ∀ p, fate p ≠ .assign)

include hassign

/-- When no result is assigned, an edit `e` takes a statement `s` away. -/
theorem exists_of_mem_editsFor {e : Edit} (he : e ∈ editsFor fate source statements) :
    ∃ s ∈ statements, fate s.value.span.start = .drop ∧ e = .delete s.span := by
  obtain ⟨s, hs, he⟩ := List.mem_flatMap.mp he
  cases hfate : fate s.value.span.start with
  | keep =>
    rw [hfate] at he
    cases he
  | assign => exact absurd hfate (hassign _)
  | drop =>
    rw [hfate] at he
    exact ⟨s, hs, hfate, List.mem_singleton.mp he⟩

/-- The statements `s` whose spans are deleted are those that are taken away. -/
theorem delete_mem_editsFor {s : Statement} (hs : s ∈ statements) :
    .delete s.span ∈ editsFor fate source statements ↔ fate s.value.span.start = .drop := by
  constructor
  · intro he
    obtain ⟨t, -, hfate, heq⟩ := exists_of_mem_editsFor hassign he
    have hspan : s.span = t.span := Edit.delete.inj heq
    have hstart : s.span.start = t.span.start := by rw [hspan]
    exact (congrArg fate hstart).trans hfate
  · intro hfate
    refine List.mem_flatMap.mpr ⟨s, hs, ?_⟩
    rw [hfate]
    exact List.mem_singleton_self _

end

section

variable {r : Revision} {source' : String} (h : Cut isType source items ls ps)
  (hassign : ∀ p, r.fate p ≠ .assign)

include h hassign

/-- The outline of the new text `source'` is that of `source` without the statements taken away. -/
theorem Cut.outline_reread
    (hmotion : r.motion = .ofEdits (editsFor r.fate source (Item.statementsAll scope items)))
    (hsplice : Splice 0 source.toList (editsFor r.fate source (Item.statementsAll scope items))
      source'.toList) (hstays : Item.AllStay r items) :
    unitOutline scope source' (Item.reviseAll r items) =
      ((unitOutline scope source items).without fun s =>
        .delete s ∈ editsFor r.fate source (Item.statementsAll scope items)).move r.motion := by
  have hedits : ∀ e ∈ editsFor r.fate source (Item.statementsAll scope items),
      e.replacement = "" ∧ e.span.start < Text.byteSize source.toList := fun e he => by
    obtain ⟨s, hs, -, rfl⟩ := exists_of_mem_editsFor hassign he
    have hlies := h.lies hs
    exact ⟨rfl, Nat.lt_of_lt_of_le hlies.start_lt hlies.stop_le⟩
  have hspan : (⟨0, Text.byteSize source'.toList⟩ : Span) =
      (⟨0, Text.byteSize source.toList⟩ : Span).move r.motion := by
    have hstart := @Edit.place_zero 0 0 _ fun e he => (hedits e he).1
    have hstop := @Splice.place_stop 0 0 _ _ _ hsplice
      (by simpa using fun e he => (hedits e he).2)
    rw [Nat.zero_add, Nat.zero_add] at hstop
    rw [hmotion, Span.move_mk]
    exact congrArg₂ Span.mk hstart.symm hstop.symm
  have hgone : ∀ s ∈ Item.statementsAll scope items,
      (decide (.delete s.span ∈ editsFor r.fate source (Item.statementsAll scope items)) = true ↔
        r.fate s.value.span.start = .drop) := fun s hs => by
    rw [decide_eq_true_iff, delete_mem_editsFor hassign hs]
  have houtlines := @Item.outlines_revise r (fun s =>
    .delete s ∈ editsFor r.fate source (Item.statementsAll scope items)) hassign scope items hstays
    hgone
  rw [unitOutline, unitOutline, hspan, Outline.without, Outline.move, houtlines]

/-- The tokens of the new text `source'` are those of the pieces `ps` that do not stand in what is
deleted. -/
theorem Cut.tokens_reread {ls' : List Lexeme}
    (hcut : Cut isType source' (Item.reviseAll r items) ls' (revisePieces r ps)) :
    SnippetToken.ofText source' = .ok
      (((tokensOf ps).filter fun t =>
        !(editsFor r.fate source (Item.statementsAll scope items)).any fun e =>
          e.span.contains t.span).map (.move r.motion)) := by
  have hedits : editsIn r source ps = editsFor r.fate source (Item.statementsAll scope items) :=
    h.forms.editsIn_eq scope
  rw [hcut.ofText, @tokensOf_revisePieces source ps r hassign h.forms.read _ _ h.laid, hedits]

end

end Snippet

end TreeLint
