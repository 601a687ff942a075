import TreeLint.Proofs.Snippet.Revision

/-!
# What a revision does

A revision changes the expression statements of a snippet and nothing else. So what is found in the
revised snippet is what was found in the statements that it keeps.

- `Item.statements`: the expression statements of an item, each with its scope. Findings are theirs
  (`Item.findings_eq`), and the pieces of an item hold the same statements (`Forms.statements_eq`).
- `findings_revise`: what is found in revised items.
- `Outline.without`: an outline without some statements; `outlines_revise` says that it is the outline
  of revised items.
-/

namespace TreeLint

namespace Snippet

/-! ## Statements -/

/-- An expression statement, `value`, and the `scope` in front of it. -/
structure Statement where
  scope : Scope
  value : Expr
  stop : Nat

/-- The span of a statement `s`, its semicolon included. -/
def Statement.span (s : Statement) : Span := ⟨s.value.span.start, s.stop⟩

mutual

/-- The expression statements of an item, in order, each with the `scope` in front of it. -/
def Item.statements (scope : Scope) : Item → List Statement
  | .block items _ => Item.statementsAll scope items
  | .suppressed _ item => item.statements scope
  | .branch _ _ yes none => yes.statements scope
  | .branch _ _ yes (some no) => yes.statements scope ++ no.statements (yes.after scope)
  | .evaluate value stop => [⟨scope, value, stop⟩]
  | .ret _ _ | .declare _ _ _ _ => []

/-- The expression statements of items, in order: `scope` is that in front of the first. -/
def Item.statementsAll (scope : Scope) : List Item → List Statement
  | [] => []
  | item :: rest => item.statements scope ++ Item.statementsAll (item.after scope) rest

end

/-- What is found in a statement `s` of the text `source`. -/
def Statement.finding? (settings : DiscardedResult) (source : String) (s : Statement) :
    Option Finding :=
  s.value.finding? settings s.scope source s.stop

mutual

theorem Item.findings_eq (settings : DiscardedResult) (source : String) (scope : Scope) :
    ∀ item : Item, item.findings settings source scope =
      (item.statements scope).filterMap (Statement.finding? settings source)
  | .block items _ => Item.findingsAll_eq settings source scope items
  | .suppressed _ item => item.findings_eq settings source scope
  | .branch _ _ yes none => yes.findings_eq settings source scope
  | .branch _ _ yes (some no) => by
    rw [Item.findings, Item.statements, List.filterMap_append,
      yes.findings_eq settings source scope, no.findings_eq settings source (yes.after scope)]
  | .evaluate value stop => by
    rw [Item.findings, Item.statements, List.filterMap_cons, List.filterMap_nil]
    simp only [Statement.finding?]
    cases value.finding? settings scope source stop <;> rfl
  | .ret _ _ | .declare _ _ _ _ => rfl

theorem Item.findingsAll_eq (settings : DiscardedResult) (source : String) (scope : Scope) :
    ∀ items : List Item, Item.findingsAll settings source scope items =
      (Item.statementsAll scope items).filterMap (Statement.finding? settings source)
  | [] => rfl
  | item :: rest => by
    rw [Item.findingsAll, Item.statementsAll, List.filterMap_append,
      item.findings_eq settings source scope,
      Item.findingsAll_eq settings source (item.after scope) rest]

end

/-- The expression statements of a passage, in order; `scope` is that in front of it. -/
def Passage.statements (scope : Scope) : Passage → List Statement
  | .item i => i.statements scope
  | .items is => Item.statementsAll scope is

/-- The expression statement that a piece is, its `value` with its end. -/
def Piece.statement? : Piece → Option (Expr × Nat)
  | .token _ => none
  | .statement value _ semicolon => some (value, semicolon.span.stop)

@[simp] theorem filterMap_statement?_map_token (ts : List SnippetToken) :
    (ts.map Piece.token).filterMap Piece.statement? = [] := by
  simp [List.filterMap_map, List.filterMap_eq_nil_iff, Piece.statement?]

variable {isType : String → Bool}

/-- The pieces `ps` of a passage hold its statements. -/
theorem Forms.statements_eq {passage : Passage} {ps : List Piece} (h : Forms isType passage ps)
    (scope : Scope) :
    (passage.statements scope).map (fun s => (s.value, s.stop)) =
      ps.filterMap Piece.statement? := by
  induction h generalizing scope with
  | suppressed _ _ _ _ _ _ ih =>
    rw [List.filterMap_append, filterMap_statement?_map_token]
    exact ih scope
  | block _ _ _ ih =>
    rw [List.cons_append, List.filterMap_cons_none rfl, List.filterMap_append,
      List.filterMap_cons_none rfl, List.filterMap_nil, List.append_nil]
    exact ih scope
  | branch _ _ _ _ _ ih =>
    rw [List.filterMap_append, filterMap_statement?_map_token]
    exact ih scope
  | @branchElse _ _ _ _ _ _ yes _ _ _ _ _ _ _ _ _ _ _ ih ihno =>
    rw [List.filterMap_append, List.filterMap_append, filterMap_statement?_map_token,
      List.filterMap_cons_none rfl, List.nil_append, ← ih scope, ← ihno (yes.after scope),
      ← List.map_append]
    rfl
  | @cons item _ _ _ _ _ _ ih ihrest =>
    rw [List.filterMap_append, ← ih scope, ← ihrest (item.after scope), ← List.map_append]
    rfl
  | leave | nil | evaluate => rfl
  | ret | declare | declareValue =>
    rw [filterMap_statement?_map_token]
    rfl

/-! ## Revised statements -/

variable {r : Revision}

/-- What becomes of a statement `s` in the revision `r`. -/
def Statement.revise (r : Revision) (s : Statement) : Option Statement :=
  if r.fate s.value.span.start = .drop then none
  else some ⟨s.scope, s.value.revise r, r.motion.stop s.stop⟩

mutual

@[simp] theorem Item.after_revise (scope : Scope) : ∀ item : Item,
    (item.revise r).after scope = item.after scope
  | .block items _ => by
    rw [Item.revise, Item.after, Item.after, Item.afterAll_revise scope items]
  | .suppressed _ item => by rw [Item.revise, Item.after, Item.after, item.after_revise scope]
  | .branch _ _ yes none => by rw [Item.revise, Item.after, Item.after, yes.after_revise scope]
  | .branch _ _ yes (some no) => by
    rw [Item.revise, Item.after, Item.after, yes.after_revise scope,
      no.after_revise (yes.after scope)]
  | .ret _ _ | .declare _ _ _ _ | .evaluate _ _ => rfl

@[simp] theorem Item.afterAll_revise (scope : Scope) : ∀ items : List Item,
    Item.afterAll scope (Item.reviseAll r items) = Item.afterAll scope items
  | [] => rfl
  | item :: rest => by
    rw [Item.reviseAll, Item.afterAll]
    cases hdropped : item.isDropped r with
    | true =>
      -- A statement leaves the scope as it was.
      obtain ⟨value, stop, rfl, -⟩ := Item.exists_of_isDropped hdropped
      rw [if_pos rfl, Item.after, Item.afterAll_revise scope rest]
    | false =>
      rw [if_neg (by decide), Item.afterAll, item.after_revise scope,
        Item.afterAll_revise (item.after scope) rest]

end

mutual

theorem Item.statements_revise (scope : Scope) : ∀ item : Item, item.Stays r →
    (item.revise r).statements scope = (item.statements scope).filterMap (Statement.revise r)
  | .block items _, h => Item.statementsAll_revise scope items h
  | .suppressed _ item, h => item.statements_revise scope h
  | .branch _ _ yes none, h => yes.statements_revise scope h
  | .branch _ _ yes (some no), h => by
    rw [Item.revise, Item.statements, Item.statements, List.filterMap_append,
      yes.statements_revise scope h.1, yes.after_revise scope,
      no.statements_revise (yes.after scope) h.2]
  | .evaluate value stop, h => by
    have hkept : r.fate value.span.start ≠ .drop := h
    rw [Item.revise, Item.statements, Item.statements, List.filterMap_cons_some (by
      rw [Statement.revise, if_neg hkept])]
    rfl
  | .ret _ _, _ | .declare _ _ _ _, _ => rfl

theorem Item.statementsAll_revise (scope : Scope) : ∀ items : List Item, Item.AllStay r items →
    Item.statementsAll scope (Item.reviseAll r items) =
      (Item.statementsAll scope items).filterMap (Statement.revise r)
  | [], _ => rfl
  | item :: rest, h => by
    obtain ⟨hitem, hrest⟩ := h
    rw [Item.reviseAll, Item.statementsAll, List.filterMap_append,
      ← Item.statementsAll_revise (item.after scope) rest hrest]
    cases hdropped : item.isDropped r with
    | true =>
      obtain ⟨value, stop, rfl, hfate⟩ := Item.exists_of_isDropped hdropped
      rw [if_pos rfl, Item.statements, List.filterMap_cons_none (by
        rw [Statement.revise, if_pos hfate])]
      rfl
    | false =>
      rw [if_neg (by decide), Item.statementsAll, item.after_revise scope,
        item.statements_revise scope (hitem.resolve_left (by simp [hdropped]))]

end

/-! ## What is found -/

variable {settings : DiscardedResult} {source source' : String}

theorem Expr.start_of_finding? {e : Expr} {scope : Scope} {stop : Nat} {f : Finding}
    (h : e.finding? settings scope source stop = some f) :
    f.call = e.span ∧ f.statement = ⟨e.span.start, stop⟩ := by
  obtain ⟨owner, -, rfl⟩ := Option.map_eq_some_iff.mp h
  exact ⟨rfl, rfl⟩

/-- What is found in the revised `statements` is what was found in those that are kept as they
are. -/
theorem filterMap_finding?_revise {statements : List Statement}
    (htext : ∀ s ∈ statements, r.fate s.value.span.start = .keep → ∀ root,
      s.value.root? = some root →
        textOn source' (root.span.move r.motion) = textOn source root.span)
    (hassign : ∀ s ∈ statements, r.fate s.value.span.start = .assign →
      s.value.plainRoot?.isSome = true) :
    (statements.filterMap (Statement.revise r)).filterMap (Statement.finding? settings source') =
      ((statements.filterMap (Statement.finding? settings source)).filter fun f =>
        r.fate f.call.start = .keep).map (Finding.move r.motion) := by
  induction statements with
  | nil => rfl
  | cons s statements ih =>
    obtain ⟨htext, htexts⟩ := List.forall_mem_cons.mp htext
    obtain ⟨hassign, hassigns⟩ := List.forall_mem_cons.mp hassign
    have ih := ih htexts hassigns
    have hcall : ∀ f, s.finding? settings source = some f → f.call.start = s.value.span.start :=
      fun f hf => by rw [(Expr.start_of_finding? hf).1]
    rw [List.filterMap_cons, List.filterMap_cons]
    -- A statement taken away is not asked, one that is kept is only moved, and an assignment is no
    -- call.
    cases hfate : r.fate s.value.span.start with
    | drop =>
      rw [Statement.revise, if_pos hfate, ih]
      cases hfinding : s.finding? settings source with
      | none => rfl
      | some f => rw [List.filter_cons_of_neg (by simp [hcall f hfinding, hfate])]
    | keep =>
      have hrevise : s.value.revise r = s.value.move r.motion := by
        simp [Expr.revise, Revision.assigned?, hfate]
      have hmoved : Statement.finding? settings source' ⟨s.scope, s.value.revise r,
          r.motion.stop s.stop⟩ = (s.finding? settings source).map (Finding.move r.motion) := by
        rw [Statement.finding?, hrevise]
        exact Expr.finding?_move (htext hfate)
      rw [Statement.revise, if_neg (by simp [hfate])]
      simp only [List.filterMap_cons, hmoved, ih]
      cases hfinding : s.finding? settings source with
      | none => rfl
      | some f =>
        rw [List.filter_cons_of_pos (by simp [hcall f hfinding, hfate]), List.map_cons]
        rfl
    | assign =>
      obtain ⟨root, hroot⟩ := Option.isSome_iff_exists.mp (hassign hfate)
      have hrevise : s.value.revise r =
          .assign (root.move (r.copy root)) (s.value.move r.motion) := by
        simp [Expr.revise, Revision.assigned?, hfate, hroot]
      rw [Statement.revise, if_neg (by simp [hfate])]
      have hnone : Statement.finding? settings source' ⟨s.scope, s.value.revise r,
          r.motion.stop s.stop⟩ = none := by
        rw [Statement.finding?, hrevise]
        rfl
      simp only [List.filterMap_cons, hnone, ih]
      cases hfinding : s.finding? settings source with
      | none => rfl
      | some f => rw [List.filter_cons_of_neg (by simp [hcall f hfinding, hfate])]

/-- What is found in revised `items` is what was found in the statements that are kept as they
are. -/
theorem findings_revise {scope : Scope} {items : List Item} (hstays : Item.AllStay r items)
    (htext : ∀ s ∈ Item.statementsAll scope items, r.fate s.value.span.start = .keep → ∀ root,
      s.value.root? = some root →
        textOn source' (root.span.move r.motion) = textOn source root.span)
    (hassign : ∀ s ∈ Item.statementsAll scope items, r.fate s.value.span.start = .assign →
      s.value.plainRoot?.isSome = true) :
    Item.findingsAll settings source' scope (Item.reviseAll r items) =
      ((Item.findingsAll settings source scope items).filter fun f =>
        r.fate f.call.start = .keep).map (Finding.move r.motion) := by
  rw [Item.findingsAll_eq, Item.findingsAll_eq, Item.statementsAll_revise scope items hstays,
    filterMap_finding?_revise htext hassign]

/-! ## Outlines without statements -/

mutual

/-- The outline without the expression statements in it whose span is `gone`. -/
def Outline.without (gone : Span → Bool) : Outline → Outline
  | .node label children => .node label (Outline.withoutAll gone children)

/-- The outlines without the expression statements among them and in them whose span is `gone`. -/
def Outline.withoutAll (gone : Span → Bool) : List Outline → List Outline
  | [] => []
  | o :: os =>
    if o.label.kind = .expressionStatement ∧ gone o.label.span = true then
      Outline.withoutAll gone os
    else o.without gone :: Outline.withoutAll gone os

end

variable {gone : Span → Bool} {m : Motion}

@[simp] theorem Outline.withoutAll_nil : Outline.withoutAll gone [] = [] := rfl

@[simp] theorem Outline.label_without (o : Outline) : (o.without gone).label = o.label := by
  obtain ⟨label, children⟩ := o
  rfl

@[simp] theorem Outline.without_suppress (o : Outline) (keys : List String) :
    (o.suppress keys).without gone = (o.without gone).suppress keys := by
  obtain ⟨label, children⟩ := o
  rfl

@[simp] theorem Outline.move_suppress (o : Outline) (keys : List String) :
    (o.suppress keys).move m = (o.move m).suppress keys := by
  obtain ⟨label, children⟩ := o
  rfl

mutual

theorem Outline.Quiet.without_eq : ∀ {o : Outline}, o.Quiet → o.without gone = o
  | .node label children, h => by
    rw [Outline.without, Outline.QuietAll.without_eq h.2]

theorem Outline.QuietAll.without_eq : ∀ {os : List Outline}, Outline.QuietAll os →
    Outline.withoutAll gone os = os
  | [], _ => rfl
  | .node label children :: os, h => by
    rw [Outline.withoutAll, if_neg (fun hgone => h.1.1 hgone.1), h.1.without_eq,
      Outline.QuietAll.without_eq h.2]

end

theorem Expr.revise_eq_move (hassign : ∀ p, r.fate p ≠ .assign) (e : Expr) :
    e.revise r = e.move r.motion := by
  rw [Expr.revise, Revision.assigned?, if_neg (hassign _)]

theorem Item.span_revise (hassign : ∀ p, r.fate p ≠ .assign) : ∀ item : Item,
    (item.revise r).span = item.span.move r.motion
  | .suppressed _ item => item.span_revise hassign
  | .branch _ _ yes none => by
    rw [Item.revise, Item.span, Item.span, yes.span_revise hassign]
    rfl
  | .branch _ _ _ (some no) => by
    rw [Item.revise, Item.span, Item.span, no.span_revise hassign]
    rfl
  | .evaluate value _ => by
    rw [Item.revise, Item.span, Item.span, Expr.revise_eq_move hassign, Expr.span_move]
    rfl
  | .block _ _ | .ret _ _ | .declare _ _ _ _ => rfl

theorem map_outline_move (scope : Scope) (value : Option Expr) :
    (value.map (Expr.move r.motion)).toList.map (Expr.outline scope) =
      Outline.moveAll r.motion
        (Outline.withoutAll gone (value.toList.map (Expr.outline scope))) := by
  cases value with
  | none => rfl
  | some e =>
    have hquiet : Outline.QuietAll [e.outline scope] := ⟨e.quiet scope, trivial⟩
    simp [hquiet.without_eq, Outline.moveAll]

/-- An item that `Stays` is no statement whose span is `gone`. -/
theorem Item.not_gone (scope : Scope) : ∀ item : Item, item.Stays r →
    (∀ s ∈ item.statements scope, (gone s.span = true ↔ r.fate s.value.span.start = .drop)) →
    ¬ ((item.outline scope).label.kind = .expressionStatement ∧
      gone (item.outline scope).label.span = true)
  | .suppressed keys item, hstays, hgone => by
    have h := item.not_gone scope hstays hgone
    rw [Item.outline]
    generalize item.outline scope = o at h
    obtain ⟨label, children⟩ := o
    exact h
  | .evaluate value stop, hstays, hgone => fun h =>
    hstays ((hgone ⟨scope, value, stop⟩ List.mem_cons_self).mp h.2)
  | .block _ _, _, _ | .ret _ _, _, _ | .branch _ _ _ none, _, _ | .branch _ _ _ (some _), _, _
  | .declare _ _ _ _, _, _ => fun h => by cases h.1

theorem Outline.withoutAll_cons {o : Outline} (os : List Outline)
    (h : ¬ (o.label.kind = .expressionStatement ∧ gone o.label.span = true)) :
    Outline.withoutAll gone (o :: os) = o.without gone :: Outline.withoutAll gone os := by
  rw [Outline.withoutAll, if_neg h]

theorem Expr.withoutAll_cons (scope : Scope) (e : Expr) (os : List Outline) :
    Outline.withoutAll gone (e.outline scope :: os) =
      e.outline scope :: Outline.withoutAll gone os := by
  have hquiet := e.quiet scope
  rw [Outline.withoutAll_cons os, hquiet.without_eq]
  generalize e.outline scope = o at hquiet
  obtain ⟨label, children⟩ := o
  exact fun h => hquiet.1 h.1

mutual

/-- The outline of a revised item is that of the item without the statements that are `gone`. -/
theorem Item.outline_revise (hassign : ∀ p, r.fate p ≠ .assign) (scope : Scope) :
    ∀ item : Item, item.Stays r →
    (∀ s ∈ item.statements scope, (gone s.span = true ↔ r.fate s.value.span.start = .drop)) →
    (item.revise r).outline scope = ((item.outline scope).without gone).move r.motion
  | .block items span, hstays, hgone => by
    rw [Item.revise, Item.outline, Item.outlines_revise hassign scope items hstays hgone]
    rfl
  | .suppressed keys item, hstays, hgone => by
    rw [Item.revise, Item.outline, Item.outline, item.outline_revise hassign scope hstays hgone]
    simp
  | .ret value span, _, _ => by
    rw [Item.revise, Item.outline, map_outline_move]
    rfl
  | .declare type name value span, _, _ => by
    rw [Item.revise, Item.outline, map_outline_move]
    rfl
  | .branch start condition yes none, hstays, hgone => by
    have hyes := yes.not_gone scope hstays hgone
    rw [Item.outline, Outline.without, Expr.withoutAll_cons, Outline.withoutAll_cons _ hyes]
    simp [Item.revise, Item.outline, Outline.move, Outline.moveAll,
      yes.outline_revise hassign scope hstays hgone, yes.span_revise hassign]
  | .branch start condition yes (some no), hstays, hgone => by
    obtain ⟨hgone, hgone'⟩ := List.forall_mem_append.mp hgone
    have hyes := yes.not_gone scope hstays.1 hgone
    have hno := no.not_gone (yes.after scope) hstays.2 hgone'
    rw [Item.outline, Outline.without, Expr.withoutAll_cons, Outline.withoutAll_cons _ hyes,
      Outline.withoutAll_cons _ hno]
    simp [Item.revise, Item.outline, Outline.move, Outline.moveAll,
      yes.outline_revise hassign scope hstays.1 hgone,
      no.outline_revise hassign (yes.after scope) hstays.2 hgone', no.span_revise hassign]
  | .evaluate value stop, hstays, hgone => by
    have hquiet : Outline.QuietAll [value.outline scope] := ⟨value.quiet scope, trivial⟩
    simp [Item.revise, Expr.revise_eq_move hassign, Item.outline, Outline.without,
      hquiet.without_eq, Outline.move, Outline.moveAll]

/-- The outlines of revised items are those of the items without the statements that are `gone`. -/
theorem Item.outlines_revise (hassign : ∀ p, r.fate p ≠ .assign) (scope : Scope) :
    ∀ items : List Item, Item.AllStay r items →
    (∀ s ∈ Item.statementsAll scope items,
      (gone s.span = true ↔ r.fate s.value.span.start = .drop)) →
    Item.outlines scope (Item.reviseAll r items) =
      Outline.moveAll r.motion (Outline.withoutAll gone (Item.outlines scope items))
  | [], _, _ => rfl
  | item :: rest, hstays, hgone => by
    obtain ⟨hitem, hrest⟩ := hstays
    obtain ⟨hgone, hgone'⟩ := List.forall_mem_append.mp hgone
    have houtlines := Item.outlines_revise hassign (item.after scope) rest hrest hgone'
    rw [Item.reviseAll, Item.outlines]
    cases hdropped : item.isDropped r with
    | true =>
      obtain ⟨value, stop, rfl, hfate⟩ := Item.exists_of_isDropped hdropped
      have hspan := (hgone ⟨scope, value, stop⟩ List.mem_cons_self).mpr hfate
      rw [if_pos rfl, Outline.withoutAll, if_pos ⟨rfl, hspan⟩]
      exact houtlines
    | false =>
      have hstay := hitem.resolve_left (by simp [hdropped])
      rw [if_neg (by decide), Item.outlines, item.after_revise scope, houtlines,
        Outline.withoutAll_cons _ (item.not_gone scope hstay hgone), Outline.moveAll,
        item.outline_revise hassign scope hstay hgone]

end

end Snippet

end TreeLint
