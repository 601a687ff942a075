import TreeLint.Proofs.Edit.Merge
import TreeLint.Proofs.Snippet.Rereading

/-!
# Fixed snippets

Fixes of the rule are merged and made in the text of a snippet. The new text is parsed, and the rule
finds there what it has found before, but for what was fixed.

- `Diagnostic.Moved`: a diagnostic says the same of what was moved.
- `Repaired`: what it means that diagnostics were fixed.
- `exists_repaired`: diagnostics can be fixed when the fates of their statements allow it.
- `repaired_of_insertions`, `repaired_of_deletions`: results are assigned, statements are taken away.
-/

namespace TreeLint

/-- The span that an edit is about, an `anchor` or what is `removed`. -/
def Edit.target : Edit → Span
  | insertBefore anchor _ => anchor
  | delete removed | replace removed _ => removed

/-- The diagnostic `d'` says of `tree'` what `d` said of `tree`: the same of what `m` has moved, and
is written as it was. -/
structure Diagnostic.Moved (m : Motion) (tree tree' : Tree) (d d' : Diagnostic) : Prop where
  code : d'.code = d.code
  rule : d'.rule = d.rule
  severity : d'.severity = d.severity
  message : d'.message = d.message
  help : d'.help = d.help
  range : tree'.range d'.anchor = (tree.range d.anchor).move m
  text : tree'.text d'.anchor = tree.text d.anchor
  file : d'.location.file = d.location.file
  location : d'.location = .ofSpan tree' (tree'.range d'.anchor)
  edits : d'.fix.edits = d.fix.edits.map (.move m)
  targets : ∀ e ∈ d.fix.edits,
    Snippet.textOn tree'.source (e.target.move m) = Snippet.textOn tree.source e.target

/-- The buffer to which the fixes of `diagnostics` were offered. -/
def merged (diagnostics : List Diagnostic) : EditBuffer :=
  (({} : EditBuffer).offerAll (diagnostics.map Diagnostic.fix)).1

namespace Snippet

variable {settings : DiscardedResult} {tree tree' : Tree} {d d' : Diagnostic} {f : Finding}
  {m : Motion}

/-! ## Diagnostics and findings -/

/-- The edit that the finding `f` proposes. -/
def Finding.edit (f : Finding) : Edit :=
  match f.target with
  | some text => .insertBefore f.call (text ++ " = ")
  | none => .delete f.statement

theorem Finding.edits_description (f : Finding) (anchor : NodeId) :
    (f.description anchor).edits = [f.edit] := by
  unfold description edit
  cases f.target <;> rfl

/-- A finding `f` that proposes a deletion proposes to delete its statement. -/
theorem Finding.statement_of_edit {range : Span} (h : f.edit = .delete range) :
    f.target = none ∧ f.statement = range := by
  unfold edit at h
  cases htarget : f.target with
  | none =>
    rw [htarget] at h
    exact ⟨rfl, Edit.delete.inj h⟩
  | some text => simp [htarget] at h

theorem Finding.Reported.edits (h : f.Reported settings tree d) : d.fix.edits = [f.edit] := by
  obtain ⟨anchor, -, -, rfl⟩ := h
  simp [Description.diagnostic, f.edits_description, sortEdits]

theorem Finding.Reported.offset (h : f.Reported settings tree d) :
    d.location.offset = f.call.start := by
  obtain ⟨anchor, -, hrange, rfl⟩ := h
  simp [Description.diagnostic, f.anchor_description, hrange, Location.ofSpan]

theorem Finding.Reported.offset_eq_start (h : f.Reported settings tree d) :
    d.location.offset = (tree.range d.anchor).start := by
  obtain ⟨anchor, -, -, rfl⟩ := h
  rfl

/-- The diagnostic `d'` of a moved finding says what `d` said. -/
theorem Finding.Reported.moved (h : f.Reported settings tree d)
    (h' : (f.move m).Reported settings tree' d') (hpath : tree'.path = tree.path)
    (hcall : textOn tree'.source (f.call.move m) = textOn tree.source f.call)
    (hstatement : textOn tree'.source (f.statement.move m) = textOn tree.source f.statement) :
    d.Moved m tree tree' d' := by
  have hedits := h.edits
  have hedits' := h'.edits
  obtain ⟨anchor, -, hrange, rfl⟩ := h
  obtain ⟨anchor', -, hrange', rfl⟩ := h'
  have hmessage : ((f.move m).description anchor').message = (f.description anchor).message ∧
      ((f.move m).description anchor').help = (f.description anchor).help := by
    unfold description move
    cases f.target <;> exact ⟨rfl, rfl⟩
  have hmove : (f.move m).edit = f.edit.move m := by
    unfold edit move
    cases f.target <;> rfl
  have hanchor := f.anchor_description anchor
  have hanchor' := (f.move m).anchor_description anchor'
  refine ⟨rfl, rfl, rfl, hmessage.1, hmessage.2, ?_, ?_, hpath, rfl, ?_, ?_⟩
  · simp only [Description.diagnostic, hanchor, hanchor', hrange, hrange']
    rfl
  · simp only [Description.diagnostic, hanchor, hanchor', Tree.text, hrange, hrange']
    exact hcall
  · rw [hedits, hedits', hmove]
    rfl
  · rw [hedits]
    refine List.forall_mem_singleton.mpr ?_
    unfold edit
    cases f.target with
    | none => exact hstatement
    | some text => exact hcall

/-- What is related by `R` to a list `bs` is related member by member. -/
theorem exists_of_forall₂ {α β : Type} {R : α → β → Prop} {as : List α} {bs : List β}
    (h : List.Forall₂ R as bs) {a : α} (ha : a ∈ as) : ∃ b ∈ bs, R a b := by
  induction h with
  | nil => cases ha
  | cons hhead _ ih =>
    rcases List.mem_cons.mp ha with rfl | ha
    · exact ⟨_, List.mem_cons_self, hhead⟩
    · obtain ⟨b, hb, hrelated⟩ := ih ha
      exact ⟨b, List.mem_cons_of_mem _ hb, hrelated⟩

/-! ## Statements that are fixed -/

section

variable {source : String} {statements : List Statement} {diagnostics chosen : List Diagnostic}

theorem Statement.call_of_finding? {s : Statement} (h : s.finding? settings source = some f) :
    f.call = s.value.span ∧ f.statement = s.span :=
  Expr.start_of_finding? h

/-- The findings begin where their `statements` do. -/
theorem sublist_map_start (statements : List Statement) :
    ((statements.filterMap (Statement.finding? settings source)).map (·.call.start)).Sublist
      (statements.map (·.value.span.start)) := by
  induction statements with
  | nil => exact .slnil
  | cons s statements ih =>
    rw [List.map_cons]
    cases hfinding : s.finding? settings source with
    | none =>
      rw [List.filterMap_cons_none hfinding]
      exact ih.cons _
    | some f =>
      rw [List.filterMap_cons_some hfinding, List.map_cons,
        (Statement.call_of_finding? hfinding).1]
      exact ih.cons_cons _

/-- The `diagnostics` begin at different places, as the statements do (`hdistinct`). -/
theorem nodup_map_offset (hdistinct : Distinct statements)
    (hreport : List.Forall₂ (Finding.Reported settings tree) diagnostics
      (statements.filterMap (Statement.finding? settings source))) :
    (diagnostics.map (·.location.offset)).Nodup := by
  have hoffsets : ∀ {ds : List Diagnostic} {fs : List Finding},
      List.Forall₂ (Finding.Reported settings tree) ds fs →
        ds.map (·.location.offset) = fs.map (·.call.start) := fun h => by
    induction h with
    | nil => rfl
    | cons hd _ ih => rw [List.map_cons, List.map_cons, hd.offset, ih]
  rw [hoffsets hreport]
  exact (sublist_map_start statements).nodup (List.pairwise_map.mpr hdistinct)

/-- Where the fixes of the `chosen` diagnostics begin. -/
abbrev starts (chosen : List Diagnostic) : List Nat := chosen.map (·.location.offset)

/-- What becomes of a statement at `p`: `fate`, if a `chosen` diagnostic begins there. -/
def fateOf (fate : Fate) (chosen : List Diagnostic) (p : Nat) : Fate :=
  if p ∈ starts chosen then fate else .keep

theorem mem_starts_of_fateOf {fate other : Fate} {p : Nat} (h : fateOf fate chosen p = other)
    (hother : other ≠ .keep) : p ∈ starts chosen ∧ fate = other := by
  unfold fateOf at h
  split at h
  · exact ⟨‹_›, h⟩
  · exact absurd h.symm hother

theorem fateOf_ne {fate other : Fate} (hfate : fate ≠ other) (hkeep : .keep ≠ other) (p : Nat) :
    fateOf fate chosen p ≠ other := by
  unfold fateOf
  split
  · exact hfate
  · exact hkeep

theorem fateOf_eq_keep_iff {fate : Fate} (hfate : fate ≠ .keep) {p : Nat} :
    fateOf fate chosen p = .keep ↔ p ∉ starts chosen := by
  unfold fateOf
  split <;> simp [*]

/-- The `fate` makes the edits proposed at the statements of the `chosen` diagnostics, and no others
there. -/
def Suits (settings : DiscardedResult) (source : String) (statements : List Statement)
    (fate : Fate) (chosen : List Diagnostic) : Prop :=
  ∀ s ∈ statements, s.value.span.start ∈ starts chosen →
    ∃ f, s.finding? settings source = some f ∧ fate.edits source s.value s.stop = [f.edit]

/-- Where a result is assigned (`hassigned`), there is a variable that it is assigned to. -/
theorem Suits.isSome_plainRoot? {fate : Fate} (h : Suits settings source statements fate chosen)
    {s : Statement} (hs : s ∈ statements)
    (hassigned : fateOf fate chosen s.value.span.start = .assign) :
    s.value.plainRoot?.isSome = true := by
  obtain ⟨hstart, rfl⟩ := mem_starts_of_fateOf hassigned (by decide)
  obtain ⟨f, -, hedits⟩ := h s hs hstart
  rw [Fate.edits] at hedits
  cases hvariable : s.value.plainRoot? with
  | none => simp [hvariable] at hedits
  | some root => rfl

/-- The edits at the statements of the `chosen` diagnostics are those that the findings there
propose. -/
theorem editsFor_fateOf {fate : Fate} (h : Suits settings source statements fate chosen) :
    editsFor (fateOf fate chosen) source statements =
      ((statements.filterMap (Statement.finding? settings source)).filter fun f =>
        f.call.start ∈ starts chosen).map Finding.edit := by
  induction statements with
  | nil => rfl
  | cons s statements ih =>
    obtain ⟨hs, hstatements⟩ := List.forall_mem_cons.mp h
    have ih := ih hstatements
    have hcons : editsFor (fateOf fate chosen) source (s :: statements) =
        (fateOf fate chosen s.value.span.start).edits source s.value s.stop ++
          editsFor (fateOf fate chosen) source statements := rfl
    rw [hcons, ih]
    by_cases hstart : s.value.span.start ∈ starts chosen
    · obtain ⟨f, hfinding, hedits⟩ := hs hstart
      have hcall : f.call.start ∈ starts chosen := by
        rwa [(Statement.call_of_finding? hfinding).1]
      rw [fateOf, if_pos hstart, hedits, List.filterMap_cons_some hfinding,
        List.filter_cons_of_pos (by simpa using hcall)]
      rfl
    · rw [fateOf, if_neg hstart]
      cases hfinding : s.finding? settings source with
      | none =>
        rw [List.filterMap_cons_none hfinding]
        rfl
      | some f =>
        have hcall : f.call.start ∉ starts chosen := by
          rwa [(Statement.call_of_finding? hfinding).1]
        rw [List.filterMap_cons_some hfinding, List.filter_cons_of_neg (by simpa using hcall)]
        rfl

section

variable (hdistinct : Distinct statements)
  (hreport : List.Forall₂ (Finding.Reported settings tree) diagnostics
    (statements.filterMap (Statement.finding? settings source)))
  (hsub : ∀ d ∈ chosen, d ∈ diagnostics)

include hdistinct hreport hsub

/-- A diagnostic `d` is known by where it begins. -/
theorem mem_starts_iff (hd : d ∈ diagnostics) : d.location.offset ∈ starts chosen ↔ d ∈ chosen := by
  refine ⟨fun h => ?_, List.mem_map_of_mem⟩
  obtain ⟨c, hc, hoffset⟩ := List.mem_map.mp h
  rwa [← List.inj_on_of_nodup_map (nodup_map_offset hdistinct hreport) (hsub c hc) hd hoffset]

/-- The `chosen` diagnostics are about the findings that begin where they do. -/
theorem forall₂_filter_mem : List.Forall₂ (Finding.Reported settings tree)
    (diagnostics.filter (· ∈ chosen))
    ((statements.filterMap (Statement.finding? settings source)).filter fun f =>
      f.call.start ∈ starts chosen) := by
  have hfilter : diagnostics.filter (· ∈ chosen) =
      diagnostics.filter fun d => d.location.offset ∈ starts chosen :=
    List.filter_congr fun d hd => by simp [mem_starts_iff hdistinct hreport hsub hd]
  rw [hfilter]
  exact List.rel_filter (fun d f hreported => by simp [hreported.offset]) hreport

/-- The diagnostics that are not `chosen` are about the other findings. -/
theorem forall₂_filter_not_mem : List.Forall₂ (Finding.Reported settings tree)
    (diagnostics.filter (· ∉ chosen))
    ((statements.filterMap (Statement.finding? settings source)).filter fun f =>
      f.call.start ∉ starts chosen) := by
  have hfilter : diagnostics.filter (· ∉ chosen) =
      diagnostics.filter fun d => d.location.offset ∉ starts chosen :=
    List.filter_congr fun d hd => by simp [mem_starts_iff hdistinct hreport hsub hd]
  rw [hfilter]
  exact List.rel_filter (fun d f hreported => by simp [hreported.offset]) hreport

/-- The fixes of the `chosen` diagnostics propose the edits of the findings that begin where they
do. -/
theorem perm_edits (hnodup : chosen.Nodup) :
    (EditBuffer.editsOf (chosen.map Diagnostic.fix)).Perm
      (((statements.filterMap (Statement.finding? settings source)).filter fun f =>
        f.call.start ∈ starts chosen).map Finding.edit) := by
  have hall : (diagnostics.filter (· ∈ chosen)).Perm chosen := by
    refine (List.perm_ext_iff_of_nodup ((nodup_map_offset hdistinct hreport).of_map.filter _)
      hnodup).mpr fun d => ?_
    simpa using hsub d
  have hedits : ∀ {ds : List Diagnostic} {fs : List Finding},
      List.Forall₂ (Finding.Reported settings tree) ds fs →
        EditBuffer.editsOf (ds.map Diagnostic.fix) = fs.map Finding.edit := fun h => by
    induction h with
    | nil => rfl
    | cons hd _ ih =>
      rw [List.map_cons, List.map_cons, EditBuffer.editsOf, List.flatMap_cons, hd.edits,
        List.singleton_append]
      exact congrArg _ ih
  rw [← hedits (forall₂_filter_mem hdistinct hreport hsub)]
  exact (hall.symm.map _).flatMap_right _

/-- The statement `s` at which a `chosen` diagnostic begins is what it is about. -/
theorem exists_finding? {s : Statement} (hs : s ∈ statements)
    (hstart : s.value.span.start ∈ starts chosen) :
    ∃ d ∈ chosen, ∃ f, s.finding? settings source = some f ∧ d.fix.edits = [f.edit] := by
  obtain ⟨d, hd, hoffset⟩ := List.mem_map.mp hstart
  obtain ⟨f, hf, hreported⟩ := exists_of_forall₂ hreport (hsub d hd)
  obtain ⟨t, ht, hfinding⟩ := List.mem_filterMap.mp hf
  have hsame : t.value.span.start = s.value.span.start := by
    rw [← hoffset, hreported.offset, (Statement.call_of_finding? hfinding).1]
  have hnodup : (statements.map (·.value.span.start)).Nodup := List.pairwise_map.mpr hdistinct
  obtain rfl := List.inj_on_of_nodup_map hnodup ht hs hsame
  exact ⟨d, hd, f, hfinding, hreported.edits⟩

/-- If all `chosen` diagnostics insert (`hkind`), that is what assigning the results does. -/
theorem suits_assign (hkind : ∀ d ∈ chosen, ∃ range text,
    d.fix.edits = [.insertBefore range text]) :
    Suits settings source statements .assign chosen := by
  intro s hs hstart
  obtain ⟨d, hd, f, hfinding, hedits⟩ := exists_finding? hdistinct hreport hsub hs hstart
  obtain ⟨range, text, hinsert⟩ := hkind d hd
  refine ⟨f, hfinding, ?_⟩
  obtain ⟨returned, -, rfl⟩ := Option.map_eq_some_iff.mp hfinding
  rw [hedits] at hinsert
  cases hroot : s.value.root?.filter (Expr.holds settings s.scope source returned) with
  | none => simp [Finding.edit, hroot] at hinsert
  | some root =>
    obtain ⟨hroot?, hholds⟩ := Option.filter_eq_some_iff.mp hroot
    have hplain : root.isPlain = true := by
      simp only [Expr.holds, Bool.and_eq_true] at hholds
      exact hholds.1.1
    simp [Fate.edits, Finding.edit, Expr.plainRoot?_eq_some_iff.mpr ⟨hroot?, hplain⟩]

/-- If all `chosen` diagnostics delete (`hkind`), that is what taking the statements away does. -/
theorem suits_drop (hkind : ∀ d ∈ chosen, ∃ range, d.fix.edits = [.delete range]) :
    Suits settings source statements .drop chosen := by
  intro s hs hstart
  obtain ⟨d, hd, f, hfinding, hedits⟩ := exists_finding? hdistinct hreport hsub hs hstart
  obtain ⟨range, hdelete⟩ := hkind d hd
  have hedit : f.edit = .delete range := List.singleton_inj.mp (hedits.symm.trans hdelete)
  refine ⟨f, hfinding, ?_⟩
  rw [hedit, ← (Finding.statement_of_edit hedit).2, (Statement.call_of_finding? hfinding).2]
  rfl

/-- The statements that a revision `r` with the deletions takes away are those that they delete,
among `spans`. -/
theorem dropping_of_deletions {spans : List Span}
    (hkind : ∀ d ∈ chosen, ∃ range ∈ spans, d.fix.edits = [.delete range]) {r : Revision}
    (hr : r.fate = fateOf .drop chosen) : Dropping r statements spans := by
  intro s hs hdropped
  rw [hr] at hdropped
  have hstart := (mem_starts_of_fateOf hdropped (by decide)).1
  obtain ⟨d, hd, f, hfinding, hedits⟩ := exists_finding? hdistinct hreport hsub hs hstart
  obtain ⟨range, hrange, hdelete⟩ := hkind d hd
  have hedit : f.edit = .delete range := List.singleton_inj.mp (hedits.symm.trans hdelete)
  refine ⟨range, hrange, ?_⟩
  rw [← (Finding.statement_of_edit hedit).2, (Statement.call_of_finding? hfinding).2]
  rfl

end

end

/-- The diagnostics `ds'` of findings `fs` that were moved say what `ds` said of them. -/
theorem forall₂_moved {ds ds' : List Diagnostic} {fs : List Finding}
    (h : List.Forall₂ (Finding.Reported settings tree) ds fs)
    (h' : List.Forall₂ (fun d' f => (Finding.move m f).Reported settings tree' d') ds' fs)
    (hpath : tree'.path = tree.path)
    (htext : ∀ f ∈ fs, textOn tree'.source (f.call.move m) = textOn tree.source f.call ∧
      textOn tree'.source (f.statement.move m) = textOn tree.source f.statement) :
    List.Forall₂ (Diagnostic.Moved m tree tree') ds ds' := by
  induction h generalizing ds' with
  | nil =>
    cases h'
    exact .nil
  | cons hd _ ih =>
    cases h' with
    | cons hd' h' =>
      obtain ⟨hf, hfs⟩ := List.forall_mem_cons.mp htext
      exact .cons (hd.moved hd' hpath hf.1 hf.2) (ih h' hfs)

/-! ## Fixing -/

/-- The `chosen` diagnostics of `tree` are fixed: all their fixes are accepted, and the `text` that
they make is parsed into `tree'`, in which the rule finds what else it has found before. -/
structure Repaired (settings : DiscardedResult) (scope : Scope) (tree : Tree) (types : TypeTable)
    (chosen : List Diagnostic) (text : String) (tree' : Tree) (types' : TypeTable) : Prop where
  accepted : ({} : EditBuffer).accepted (chosen.map Diagnostic.fix) = chosen.map Diagnostic.fix
  applied : (merged chosen).apply tree.source = .ok text
  parsed : parse scope text = .ok (tree', types')
  sameTypes : types'.types = types.types
  failures : (scan tree' types' (.ofList [settings.rule])).failures = []
  diagnostics : List.Forall₂
    (Diagnostic.Moved (.ofEdits (sortEdits (merged chosen).edits)) tree tree')
    ((scan tree types (.ofList [settings.rule])).diagnostics.filter (· ∉ chosen))
    (scan tree' types' (.ofList [settings.rule])).diagnostics

section

variable {scope : Scope} {items : List Item} {ls : List Lexeme} {ps : List Piece}
  {types : TypeTable} {chosen : List Diagnostic}

theorem Cut.distinct {source : String} (h : Cut scope.isType source items ls ps) :
    Distinct (Item.statementsAll scope items) :=
  h.ordered.imp_of_mem fun hs _ hle => by
    have := (h.lies hs).start_lt
    omega

/-- The revision in which the statements of the `chosen` diagnostics have the `fate`. -/
def revisionOf (fate : Fate) (chosen : List Diagnostic) (source : String)
    (statements : List Statement) : Revision :=
  ⟨fateOf fate chosen, .ofEdits (editsFor (fateOf fate chosen) source statements)⟩

/-- The `edits` of the `chosen` diagnostics, in order, are accepted together, and make the splice of
them. -/
theorem apply_merged {source text : String} {edits : List Edit}
    (hperm : (EditBuffer.editsOf (chosen.map Diagnostic.fix)).Perm edits)
    (hbefore : edits.Pairwise Edit.Before)
    (hfits : ∀ e ∈ edits, e.span.fits source.toList = true)
    (hsplice : Splice 0 source.toList edits text.toList) :
    ({} : EditBuffer).accepted (chosen.map Diagnostic.fix) = chosen.map Diagnostic.fix ∧
      sortEdits (merged chosen).edits = edits ∧ (merged chosen).apply source = .ok text := by
  have hfree : Edit.ConflictFree (EditBuffer.editsOf (chosen.map Diagnostic.fix)) :=
    Edit.ConflictFree.perm (hbefore.imp And.right) hperm.symm
  have haccepted : ({} : EditBuffer).accepted (chosen.map Diagnostic.fix) =
      chosen.map Diagnostic.fix := EditBuffer.accepted_eq_self hfree
  have hedits : (merged chosen).edits = EditBuffer.editsOf (chosen.map Diagnostic.fix) := by
    rw [merged, EditBuffer.edits_offerAll, haccepted]
    rfl
  have hsorted : sortEdits (merged chosen).edits = edits := by
    rw [hedits]
    exact eq_of_perm_of_before (before_sortEdits hfree) hbefore ((sortEdits_perm _).trans hperm)
  refine ⟨haccepted, hsorted, ?_⟩
  obtain ⟨result, hresult, hsplice'⟩ := exists_splice_of_fits hbefore hfits
  obtain rfl := hsplice.unique hsplice'
  rw [EditBuffer.apply, hsorted, hresult]
  simp [Except.map]

/-- **Fixing.** The fixes of the `chosen` diagnostics can be made when their edits give the
statements a `fate` (`hsuits`) that leaves items to be read (`hstays`, `hclosed`). -/
theorem Cut.exists_repaired (h : Cut scope.isType tree.source items ls ps)
    (hunbound : scope.types.bindings = [])
    (hshows : Shows tree types (unitOutline scope tree.source items))
    (hpath : tree.path = scope.path) (htypes : types.types = scope.types.types)
    (hnodup : chosen.Nodup)
    (hsub : ∀ d ∈ chosen, d ∈ (scan tree types (.ofList [settings.rule])).diagnostics)
    {fate : Fate} (hfate : fate ≠ .keep)
    (hsuits : Suits settings tree.source (Item.statementsAll scope items) fate chosen)
    {r : Revision} (hr : r = revisionOf fate chosen tree.source (Item.statementsAll scope items))
    (hstays : Item.AllStay r items) (hclosed : (Passage.items items).Closed r ps) :
    ∃ text ls' tree' types', Cut scope.isType text (Item.reviseAll r items) ls'
        (revisePieces r ps) ∧
      Splice 0 tree.source.toList
        (editsFor r.fate tree.source (Item.statementsAll scope items)) text.toList ∧
      Shows tree' types' (unitOutline scope text (Item.reviseAll r items)) ∧
      sortEdits (merged chosen).edits =
        editsFor r.fate tree.source (Item.statementsAll scope items) ∧
      Repaired settings scope tree types chosen text tree' types' := by
  obtain ⟨hr, hmotion⟩ : r.fate = fateOf fate chosen ∧ r.motion =
      .ofEdits (editsFor r.fate tree.source (Item.statementsAll scope items)) := by
    subst hr
    exact ⟨rfl, rfl⟩
  have hdistinct := h.distinct
  have hlies : ∀ s ∈ Item.statementsAll scope items, s.Lies tree.source := fun s => h.lies
  obtain ⟨-, hreport⟩ := scan_of_shows settings hshows htypes
  rw [Item.findingsAll_eq] at hreport
  -- The text with the edits made is cut into the revised pieces, and parsed from them.
  obtain ⟨text, ls', hsplice, hcut⟩ := h.exists_reread scope hmotion hstays hclosed
  obtain ⟨tree', types', hparse, hpath', rfl, htypes', hshows'⟩ :=
    exists_parse hunbound hcut.ofText hcut.ofTokens
  obtain ⟨hfailures, hreport'⟩ := scan_of_shows settings hshows' htypes'
  -- The edits of the fixes are those of the revision, so the buffer accepts them and makes them.
  have hperm := perm_edits hdistinct hreport hsub hnodup
  rw [← editsFor_fateOf hsuits, ← hr] at hperm
  obtain ⟨haccepted, hsorted, happly⟩ := apply_merged hperm (before_editsFor h.ordered hlies)
    (fun e => fits_editsFor hlies) hsplice
  refine ⟨_, ls', tree', types', hcut, hsplice, hshows', hsorted, haccepted, happly, hparse,
    htypes'.trans htypes.symm, hfailures, ?_⟩
  rw [hsorted, ← hmotion]
  have hassign : ∀ s ∈ Item.statementsAll scope items, r.fate s.value.span.start = .assign →
      s.value.plainRoot?.isSome = true := fun s hs hassigned =>
    hsuits.isSome_plainRoot? hs (hr ▸ hassigned)
  -- What is left to find is at the statements that are kept, and no edit reaches into those.
  rw [h.findings_reread settings hmotion hsplice hstays hassign, Item.findingsAll_eq,
    List.forall₂_map_right_iff] at hreport'
  have hkept : ∀ p, r.fate p = .keep ↔ p ∉ starts chosen := fun p => by
    rw [hr, fateOf_eq_keep_iff hfate]
  rw [List.filter_congr (q := fun f => decide (f.call.start ∉ starts chosen)) fun f _ => by
    simp [hkept]] at hreport'
  refine forall₂_moved (forall₂_filter_not_mem hdistinct hreport hsub) hreport'
    (hpath'.trans hpath.symm) fun f hf => ?_
  obtain ⟨hf, hout⟩ := List.mem_filter.mp hf
  obtain ⟨s, hs, hfinding⟩ := List.mem_filterMap.mp hf
  obtain ⟨hcall, hstatement⟩ := Statement.call_of_finding? hfinding
  have hkeep : r.fate s.value.span.start = .keep :=
    (hkept _).mpr (by simpa [hcall] using hout)
  have htext : ∀ span : Span, span.start = s.value.span.start → span.stop ≤ s.stop →
      span.fits tree.source.toList = true →
        textOn tree'.source (span.move r.motion) = textOn tree.source span :=
    fun span hstart hstop hfits => by
      rw [hmotion]
      exact textOn_move hsplice hfits fun e he => apart_editsFor h.ordered hlies hs hkeep hstart
        (Span.fits_iff.mp hfits).1 hstop he
  rw [hcall, hstatement]
  exact ⟨htext s.value.span rfl (hlies s hs).call_le (hlies s hs).call_fits,
    htext s.span rfl (Nat.le_refl _) (hlies s hs).fits⟩

/-- What a parsed snippet was read from, the pieces `ps` of its source, and what it shows. -/
theorem cut_of_parse (hscope : scope.Declared) {source : String} {tokens : List SnippetToken}
    (htokens : SnippetToken.ofText source = .ok tokens)
    (hitems : Item.ofTokens scope.isType tokens = .ok items)
    (hparse : parse scope source = .ok (tree, types)) :
    (∃ ls ps, Cut scope.isType tree.source items ls ps ∧ tokensOf ps = tokens) ∧
      Shows tree types (unitOutline scope tree.source items) ∧ tree.path = scope.path ∧
      types.types = scope.types.types := by
  obtain ⟨tree', types', hparse', hpath, rfl, htypes, hshows⟩ :=
    exists_parse hscope.bindings_eq htokens hitems
  obtain ⟨rfl, rfl⟩ := Prod.mk.inj (Except.ok.inj (hparse.symm.trans hparse'))
  exact ⟨exists_cut htokens hitems, hshows, hpath, htypes⟩

/-! ## Results that are discarded -/

/-- A scope with a variable `a` of the type of the object itself, and a method `m` that returns that
type. -/
def looseScope : Scope :=
  (Scope.basic.method "com.example.Main" "m" "com.example.Main").addLocal "a" "com.example.Main"

theorem declared_looseScope : looseScope.Declared := .addLocal _ _ (.method _ _ _ .basic)

/-- Settings under which the results of `m` must not be discarded. -/
def looseSettings : DiscardedResult := ⟨["com.example.Main"], "this", .error⟩

/-- A snippet that discards a result that `a` can hold, and in a block one that no variable can. -/
def looseText : String := "a.m(); \x7b m(); \x7d"

/-- The tokens of `looseText`. -/
def looseTokens : List SnippetToken :=
  [⟨.name, ⟨0, 1⟩, "a"⟩, ⟨.mark '.', ⟨1, 2⟩, "."⟩, ⟨.name, ⟨2, 3⟩, "m"⟩,
    ⟨.mark '(', ⟨3, 4⟩, "("⟩, ⟨.mark ')', ⟨4, 5⟩, ")"⟩, ⟨.mark ';', ⟨5, 6⟩, ";"⟩,
    ⟨.mark '\x7b', ⟨7, 8⟩, "\x7b"⟩, ⟨.name, ⟨9, 10⟩, "m"⟩, ⟨.mark '(', ⟨10, 11⟩, "("⟩,
    ⟨.mark ')', ⟨11, 12⟩, ")"⟩, ⟨.mark ';', ⟨12, 13⟩, ";"⟩, ⟨.mark '\x7d', ⟨14, 15⟩, "\x7d"⟩]

/-- The items of `looseText`. -/
def looseItems : List Item :=
  [.evaluate (.callOn (.name "a" ⟨0, 1⟩) "m" 3 [] 5) 6,
    .block [.evaluate (.callOwn "m" ⟨9, 10⟩ [] 12) 13] ⟨7, 15⟩]

theorem ofText_looseText : SnippetToken.ofText looseText = .ok looseTokens := by decide +kernel

theorem ofTokens_looseTokens (isType : String → Bool) :
    Item.ofTokens isType looseTokens = .ok looseItems := by cbv

theorem findings_looseItems :
    Item.findingsAll looseSettings looseText looseScope looseItems =
      [⟨⟨0, 5⟩, ⟨0, 6⟩, some "a"⟩, ⟨⟨9, 12⟩, ⟨9, 13⟩, none⟩] := by
  obtain ⟨hself, hlocals, hmethods, htype⟩ : looseScope.selfType = ⟨0⟩ ∧
      looseScope.locals = [("a", ⟨0⟩)] ∧ looseScope.methods = [((⟨0⟩, "m"), ⟨0⟩)] ∧
      looseScope.types.types[0]? = some { name := "com.example.Main" } := by decide +kernel
  have hmethod : looseScope.method? ⟨0⟩ "m" = some (⟨0⟩, ⟨0⟩) := by
    simp [Scope.method?, TypeTable.search?, TypeTable.searchFrom?, hmethods, Assoc.get?]
  have hassignable : looseScope.types.isAssignable ⟨0⟩ ⟨0⟩ = true :=
    TypeTable.isAssignable_iff.mpr .refl
  have hflag : ∀ e : Expr, e.callee? looseScope = some ⟨.method, none, some ⟨0⟩, some ⟨0⟩⟩ →
      e.flag? looseSettings looseScope = some ⟨0⟩ := fun e he => by
    simp [Expr.flag?, he, TypeTable.typeName?, htype, looseSettings, Option.filter]
  have hcall : (Expr.callOn (.name "a" ⟨0, 1⟩) "m" 3 [] 5).flag? looseSettings looseScope =
      some ⟨0⟩ := hflag _ (by
    simp [Expr.callee?, Expr.type?, Draft.nameBinding?, Draft.methodBinding?, hlocals, hmethod,
      Assoc.get?])
  have hcallOwn : (Expr.callOwn "m" ⟨9, 10⟩ [] 12).flag? looseSettings looseScope = some ⟨0⟩ :=
    hflag _ (by simp [Expr.callee?, Draft.methodBinding?, hself, hmethod])
  have htext : textOn looseText ⟨0, 1⟩ = "a" := by decide +kernel
  have hholds : Expr.holds looseSettings looseScope looseText ⟨0⟩ (.name "a" ⟨0, 1⟩) = true := by
    simp [Expr.holds, Expr.isPlain, Expr.span, htext, looseSettings, Expr.outline,
      Outline.reference, Outline.label, Draft.nameBinding?, hlocals, Assoc.get?, hassignable]
  simp [Item.findingsAll, Item.findings, looseItems, Item.after, Expr.finding?, hcall, hcallOwn,
    Expr.root?, Expr.isCall, Expr.span, Option.filter, hholds, htext]

/-- What is reported in `looseText`. -/
theorem exists_report_looseText : ∃ tree types d d',
    parse looseScope looseText = .ok (tree, types) ∧
      (scan tree types (.ofList [looseSettings.rule])).diagnostics = [d, d'] ∧
      d.fix.edits = [.insertBefore ⟨0, 5⟩ "a = "] ∧ d'.fix.edits = [.delete ⟨9, 13⟩] := by
  obtain ⟨tree, types, hparse, -, hsource, htypes, hshows⟩ := exists_parse
    declared_looseScope.bindings_eq ofText_looseText (ofTokens_looseTokens _)
  rw [← hsource] at hshows
  obtain ⟨-, hreport⟩ := scan_of_shows looseSettings hshows htypes
  rw [hsource, findings_looseItems] at hreport
  obtain ⟨d, ds, hd, hds, hdiagnostics⟩ := List.forall₂_cons_right_iff.mp hreport
  obtain ⟨d', ds', hd', hnil, rfl⟩ := List.forall₂_cons_right_iff.mp hds
  obtain rfl := List.forall₂_nil_right_iff.mp hnil
  exact ⟨tree, types, d, d', hparse, hdiagnostics, hd.edits, hd'.edits⟩

/-- **Assigning results.** The fixes of `chosen` diagnostics that assign discarded results (`hkind`)
can be made in a snippet, any of them together. The `text` is then parsed again, and the rule finds
what else it has found before (`Repaired`): nothing at the calls whose results are assigned. -/
theorem repaired_of_insertions (settings : DiscardedResult) {scope : Scope}
    (hscope : scope.Declared) {source : String} {tree : Tree} {types : TypeTable}
    (hparse : parse scope source = .ok (tree, types)) {chosen : List Diagnostic}
    (hnodup : chosen.Nodup)
    (hsub : ∀ d ∈ chosen, d ∈ (scan tree types (.ofList [settings.rule])).diagnostics)
    (hkind : ∀ d ∈ chosen, ∃ range text, d.fix.edits = [.insertBefore range text]) :
    (scan tree types (.ofList [settings.rule])).failures = [] ∧
      ∃ text tree' types', Repaired settings scope tree types chosen text tree' types' ∧
        ∀ d ∈ chosen, ∀ d' ∈ (scan tree' types' (.ofList [settings.rule])).diagnostics,
          d'.location.offset ≠
            (Motion.ofEdits (sortEdits (merged chosen).edits)).start d.location.offset := by
  obtain ⟨tokens, items, htokens, hitems⟩ := exists_items_of_parse hparse
  obtain ⟨⟨ls, ps, hcut, -⟩, hshows, hpath, htypes⟩ := cut_of_parse hscope htokens hitems hparse
  obtain ⟨hfailures, hreport⟩ := scan_of_shows settings hshows htypes
  rw [Item.findingsAll_eq] at hreport
  refine ⟨hfailures, ?_⟩
  have hsuits := suits_assign hcut.distinct hreport hsub hkind
  have hkept : ∀ p, fateOf .assign chosen p ≠ .drop := fateOf_ne (by decide) (by decide)
  obtain ⟨text, -, tree', types', -, -, -, hsorted, hrepaired⟩ :=
    hcut.exists_repaired hscope.bindings_eq hshows hpath htypes hnodup hsub (by decide) hsuits rfl
      (Item.allStay_of_kept hkept items) (.inl hkept)
  refine ⟨text, tree', types', hrepaired, fun d hd d' hd' => ?_⟩
  -- What is found in the new text was found before, at another place.
  obtain ⟨b, hb, hmoved⟩ := exists_of_forall₂ hrepaired.diagnostics.flip hd'
  obtain ⟨hb, hout⟩ := List.mem_filter.mp hb
  obtain ⟨f, -, hreported⟩ := exists_of_forall₂ hreport hb
  have hne : d.location.offset ≠ b.location.offset := fun hoffset => by
    obtain rfl := List.inj_on_of_nodup_map (nodup_map_offset hcut.distinct hreport) (hsub d hd) hb
      hoffset
    simp [hd] at hout
  have hinsert : ∀ e ∈ sortEdits (merged chosen).edits, e.span.stop = e.span.start :=
    fun e he => by
      rw [hsorted] at he
      obtain ⟨s, -, he⟩ := List.mem_flatMap.mp he
      exact Fate.span_of_mem_edits (hkept _) he
  have hlocation : d'.location.offset = (tree'.range d'.anchor).start := by rw [hmoved.location]; rfl
  rw [hlocation, hmoved.range, Span.start_move, ← hreported.offset_eq_start]
  rcases Nat.lt_or_gt_of_ne hne with hlt | hlt
  · exact (Edit.place_lt_place hinsert (Nat.zero_le _) hlt).ne'
  · exact (Edit.place_lt_place hinsert (Nat.zero_le _) hlt).ne

theorem repaired_of_insertions_looseText : ∃ tree types d d',
    parse looseScope looseText = .ok (tree, types) ∧
      (scan tree types (.ofList [looseSettings.rule])).diagnostics = [d, d'] ∧
      (∃ range text, d.fix.edits = [.insertBefore range text]) ∧
      ∃ text tree' types', Repaired looseSettings looseScope tree types [d] text tree' types' := by
  obtain ⟨tree, types, d, d', hparse, hreport, hinsert, -⟩ := exists_report_looseText
  obtain ⟨-, text, tree', types', hrepaired, -⟩ := repaired_of_insertions looseSettings
    declared_looseScope hparse (List.nodup_singleton d) (by simp [hreport])
    (List.forall_mem_singleton.mpr ⟨_, _, hinsert⟩)
  exact ⟨tree, types, d, d', hparse, hreport, ⟨_, _, hinsert⟩, text, tree', types', hrepaired⟩

/-- **Taking statements away.** The fixes of `chosen` diagnostics that delete statements can be made
in a snippet, any of them together, when the statements stand directly in blocks with no tag in
front (`hkind`) and each `else` belongs to an `if` (`helse`). The `text` is then parsed again: the
tokens in the statements are gone and all others are there, the tree is the same but for the
statements, and the rule finds what else it has found before (`Repaired`). -/
theorem repaired_of_deletions (settings : DiscardedResult) {scope : Scope}
    (hscope : scope.Declared) {source : String} {tokens : List SnippetToken} {items : List Item}
    (htokens : SnippetToken.ofText source = .ok tokens)
    (hitems : Item.ofTokens scope.isType tokens = .ok items)
    (helse : elsesIn tokens = Item.elsesAll items) {tree : Tree} {types : TypeTable}
    (hparse : parse scope source = .ok (tree, types)) {chosen : List Diagnostic}
    (hnodup : chosen.Nodup)
    (hsub : ∀ d ∈ chosen, d ∈ (scan tree types (.ofList [settings.rule])).diagnostics)
    (hkind : ∀ d ∈ chosen, ∃ range ∈ Item.directAll items, d.fix.edits = [.delete range]) :
    (scan tree types (.ofList [settings.rule])).failures = [] ∧
      ∃ text tree' types', Repaired settings scope tree types chosen text tree' types' ∧
        (∃ o, Shows tree types o ∧
          Shows tree' types' ((o.without fun s => .delete s ∈ (merged chosen).edits).move
            (.ofEdits (sortEdits (merged chosen).edits)))) ∧
        SnippetToken.ofText text = .ok
          ((tokens.filter fun t => !(merged chosen).edits.any fun e =>
            e.span.contains t.span).map (.move (.ofEdits (sortEdits (merged chosen).edits)))) := by
  obtain ⟨⟨ls, ps, hcut, htokensOf⟩, hshows, hpath, htypes⟩ :=
    cut_of_parse hscope htokens hitems hparse
  obtain ⟨hfailures, hreport⟩ := scan_of_shows settings hshows htypes
  rw [Item.findingsAll_eq] at hreport
  refine ⟨hfailures, ?_⟩
  have hsuits := suits_drop hcut.distinct hreport hsub fun d hd =>
    (hkind d hd).imp fun _ hrange => hrange.2
  have hassign : ∀ p, fateOf .drop chosen p ≠ .assign := fateOf_ne (by decide) (by decide)
  have hstays : Item.AllStay
      (revisionOf .drop chosen tree.source (Item.statementsAll scope items)) items :=
    Item.allStay_of_direct scope items hcut.distinct
      (dropping_of_deletions hcut.distinct hreport hsub hkind rfl)
  obtain ⟨text, ls', tree', types', hcut', hsplice, hshows', hsorted, hrepaired⟩ :=
    hcut.exists_repaired hscope.bindings_eq hshows hpath htypes hnodup hsub (by decide) hsuits rfl
      hstays (.inr (by rw [htokensOf]; exact helse.le))
  have hperm := sortEdits_perm (merged chosen).edits
  -- The buffer has its edits in the order in which they were offered; the outline and the tokens
  -- ask only whether one is among them.
  have hmem : ∀ e, e ∈ (merged chosen).edits ↔ e ∈ sortEdits (merged chosen).edits :=
    fun _ => hperm.mem_iff.symm
  have hany : ∀ p, (merged chosen).edits.any p = (sortEdits (merged chosen).edits).any p :=
    fun _ => hperm.any_eq.symm
  refine ⟨text, tree', types', hrepaired, ⟨_, hshows, ?_⟩, ?_⟩
  · rw [hcut.outline_reread hassign rfl hsplice hstays] at hshows'
    simp only [hmem, hsorted]
    exact hshows'
  · rw [hcut.tokens_reread hassign hcut', htokensOf]
    simp only [hany, hsorted]
    rfl

theorem repaired_of_deletions_looseText : elsesIn looseTokens = Item.elsesAll looseItems ∧
    ∃ tree types d d', parse looseScope looseText = .ok (tree, types) ∧
      (scan tree types (.ofList [looseSettings.rule])).diagnostics = [d, d'] ∧
      (∃ range ∈ Item.directAll looseItems, d'.fix.edits = [.delete range]) ∧
      ∃ text tree' types', Repaired looseSettings looseScope tree types [d'] text tree' types' := by
  obtain ⟨tree, types, d, d', hparse, hreport, -, hdelete⟩ := exists_report_looseText
  have helse : elsesIn looseTokens = Item.elsesAll looseItems := by decide
  have hdirect : ∃ range ∈ Item.directAll looseItems, d'.fix.edits = [.delete range] :=
    ⟨⟨9, 13⟩, by decide, hdelete⟩
  obtain ⟨-, text, tree', types', hrepaired, -⟩ := repaired_of_deletions looseSettings
    declared_looseScope ofText_looseText (ofTokens_looseTokens _) helse hparse
    (List.nodup_singleton d') (by simp [hreport]) (List.forall_mem_singleton.mpr hdirect)
  exact ⟨helse, tree, types, d, d', hparse, hreport, hdirect, text, tree', types', hrepaired⟩

end

end Snippet

end TreeLint
