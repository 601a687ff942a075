import TreeLint.Proofs.Command.Fixing
import TreeLint.Proofs.Rule.Deletion
import TreeLint.Proofs.Rule.Repair
import TreeLint.Proofs.Snippet.Building

/-!
# The fixes of the rule on discarded results

Calls may stand in the arguments of other calls, so the statements that the rule takes away may hold
calls whose results it assigns. Whatever it finds in a unit, each fix can be made, and so can those
that a buffer accepts, all together.

- `SourceUnit.Made`: the units that come from documents and from snippets. Their trees are finished.
- `Repairs`: the two fixes of the rule.
- `repairs_of_mem_analyzeUnit`: a diagnostic of a report has one of them, or none.
- `merged_applies`: what the accepted fixes make of the source.
-/

namespace TreeLint

open Edit EditBuffer

/-! ## Units -/

/-- A unit that comes from a document (`SourceUnit.ofText`) or from a snippet (`Snippet.parse`). -/
inductive SourceUnit.Made : SourceUnit → Prop
  | document {disk : Disk} {cwd : Place} {base text : String} {unit : SourceUnit}
      (h : SourceUnit.ofText disk cwd base text = .ok unit) : Made unit
  | snippet {scope : Snippet.Scope} {text : String} {tree : Tree} {types : TypeTable}
      (hscope : scope.Declared) (h : Snippet.parse scope text = .ok (tree, types)) :
      Made { tree, types }

theorem SourceUnit.Made.finished {unit : SourceUnit} (h : unit.Made) : unit.tree.Finished := by
  cases h with
  | document h => exact (source_of_ofText h).1
  | snippet _ h => exact (Snippet.finished_of_parse h).1

/-! ## Fixes on their own -/

/-- A `fix` whose edits are in order and fit `source` can be made in it. -/
theorem Fix.exists_apply {fix : Fix} {source : String} (hbefore : fix.edits.Pairwise Before)
    (hfits : ∀ e ∈ fix.edits, e.span.fits source.toList = true) :
    ∃ text, fix.apply source = .ok text := by
  obtain ⟨result, hresult, -⟩ := exists_splice_of_fits hbefore hfits
  exact ⟨String.ofList result, by rw [Fix.apply, hresult]; rfl⟩

theorem Span.fits_point {s : Span} {text : List Char} (h : s.fits text = true) :
    (Span.point s.start).fits text = true := by
  obtain ⟨hle, hsize, hstart, -⟩ := Span.fits_iff.mp h
  exact Span.fits_iff.mpr ⟨Nat.le_refl _, Nat.le_trans hle hsize, hstart, hstart⟩

theorem Tree.contains_of_kind? {tree : Tree} {id : NodeId} {kind : Kind}
    (h : tree.kind? id = some kind) : tree.contains id = true := by
  obtain ⟨node, hnode, -⟩ := Option.map_eq_some_iff.mp h
  exact decide_eq_true (Array.getElem?_eq_some_iff.mp hnode).1

/-! ## Reports -/

/-- A diagnostic `d` of a report stems from one that the scan `found`. -/
theorem exists_stems_of_mem {config : Config} {registry : Registry} {unit : SourceUnit}
    {d : Diagnostic} (hd : d ∈ (analyzeUnit config registry unit).diagnostics) :
    ∃ found ∈ (scan unit.tree unit.types registry).diagnostics,
      Stems config registry unit.tree found d := by
  obtain ⟨found, hfound, hstems⟩ := Snippet.exists_of_forall₂
    (forall₂_survivors config registry unit.tree
      (scan unit.tree unit.types registry).diagnostics).flip hd
  exact ⟨found, List.mem_of_mem_filter hfound, hstems⟩

theorem UnitReport.mem_of_mem_taken {r : UnitReport} {d : Diagnostic} (h : d ∈ r.taken) :
    d ∈ r.diagnostics ∧ d.fix.isEmpty = false := by
  obtain ⟨⟨d, answer⟩, hmem, rfl⟩ := List.mem_map.mp h
  obtain ⟨haccepted, rfl⟩ := List.mem_filter.mp hmem
  refine ⟨r.map_fst_accepted ▸ List.mem_map_of_mem haccepted, ?_⟩
  obtain ⟨i, hi, heq⟩ := List.mem_iff_getElem.mp haccepted
  simp only [accepted, List.getElem_zipWith, Prod.mk.injEq, Bool.and_eq_true] at heq
  obtain ⟨rfl, -, hfix⟩ := heq
  simpa using hfix

namespace DiscardedResult

/-- The edits of `d` take away the statement around the call `d.anchor`, or assign the result of
that call to what is named by a node `root` of the tree. -/
inductive Repairs (tree : Tree) (d : Diagnostic) : Prop
  | deletion {statement : NodeId} (hcall : tree.isCall d.anchor = true)
      (hparent : tree.parent? d.anchor = some statement)
      (hkind : tree.kind? statement = some .expressionStatement)
      (hedits : d.fix.edits = [.delete (tree.range statement)])
  | assignment {root : NodeId} (hcall : tree.isCall d.anchor = true)
      (hroot : tree.contains root = true)
      (hedits : d.fix.edits =
        [.insertBefore (tree.range d.anchor) (tree.text root ++ " = ")])

/-- The rule with these `settings` in a registry of its own, unless `config` disables it. -/
def registry (settings : DiscardedResult) (config : Config) : Registry :=
  .ofList ([settings.rule].filter fun rule => config.isEnabled rule.name)

variable {settings : DiscardedResult} {config : Config} {unit : SourceUnit} {d : Diagnostic}

/-- What the rule has found, `d`, is a deletion or an assignment. -/
theorem repairs_of_mem_scan (htree : unit.tree.Sound)
    (hd : d ∈ (scan unit.tree unit.types (registry settings config)).diagnostics) :
    Repairs unit.tree d := by
  obtain ⟨-, rule, hrule, -, -, hname, -⟩ := exists_found_of_mem htree hd
  have hmem : settings.rule ∈ (registry settings config).rules ∧ rule = settings.rule := by
    unfold registry at hrule ⊢
    cases henabled : config.isEnabled settings.rule.name with
    | false => simp [henabled, Registry.ofList] at hrule
    | true => simpa [henabled, Registry.ofList, Registry.add] using hrule
  obtain ⟨hmem, rfl⟩ := hmem
  obtain ⟨callee, statement, owner, hflagged, ⟨root, -, htarget, heq⟩ | ⟨-, heq⟩⟩ :=
    exists_flagged_of_mem_diagnostics htree hmem hd hname
  · have hroot : unit.tree.contains root = true := by
      rcases htarget.plain.kind? with hkind | hkind <;> exact Tree.contains_of_kind? hkind
    refine .assignment hflagged.isCall hroot ?_
    rw [heq]
    simp [Description.diagnostic, assignment, sortEdits]
  · refine .deletion hflagged.isCall hflagged.hasParent hflagged.isStatement ?_
    rw [heq]
    simp [Description.diagnostic, deletion, sortEdits]

/-- A diagnostic `d` of a report is a deletion or an assignment (`Repairs`), or it has no edits: it
is a warning. -/
theorem repairs_of_mem_analyzeUnit (htree : unit.tree.Sound)
    (hd : d ∈ (analyzeUnit config (registry settings config) unit).diagnostics) :
    Repairs unit.tree d ∨ d.fix = {} := by
  obtain ⟨found, hfound, hstems⟩ := exists_stems_of_mem hd
  cases hstems with
  | warning _ _ hwarns => exact .inr hwarns.fix
  | kept =>
    refine .inl ?_
    cases repairs_of_mem_scan htree hfound with
    | deletion hcall hparent hkind hedits => exact .deletion hcall hparent hkind hedits
    | assignment hcall hroot hedits => exact .assignment hcall hroot hedits

/-- An edit `e` of a diagnostic `d` of a report fits the source. -/
theorem fits_of_mem_analyzeUnit (hfinished : unit.tree.Finished)
    (hd : d ∈ (analyzeUnit config (registry settings config) unit).diagnostics) {e : Edit}
    (he : e ∈ d.fix.edits) : e.span.fits unit.tree.source.toList = true := by
  have hnested := hfinished.nested
  rcases repairs_of_mem_analyzeUnit hfinished.sound hd with hrepairs | hnone
  · cases hrepairs with
    | deletion _ _ hkind hedits =>
      rw [hedits, List.mem_singleton] at he
      rw [he]
      exact hnested.fits (Tree.contains_of_kind? hkind)
    | assignment hcall _ hedits =>
      rw [hedits, List.mem_singleton] at he
      rw [he]
      exact Span.fits_point (hnested.fits (Tree.contains_of_kind? (of_decide_eq_true hcall)))
  · rw [hnone] at he
    cases he

/-- The edits of a diagnostic `d` of a report are in order: there is one of them, or none. -/
theorem before_of_mem_analyzeUnit (htree : unit.tree.Sound)
    (hd : d ∈ (analyzeUnit config (registry settings config) unit).diagnostics) :
    d.fix.edits.Pairwise Before := by
  rcases repairs_of_mem_analyzeUnit htree hd with hrepairs | hnone
  · cases hrepairs with
    | deletion _ _ _ hedits => simp [hedits]
    | assignment _ _ hedits => simp [hedits]
  · simp [hnone]

/-- **All fixes fit.** Whatever the `settings` of the rule and `config` are, each fix that is
reported for `unit` can be made in its source, and so can `report.merged`, which is offered all of
them in order. The `text` that comes of it is the source with the edits of `report.taken` made, from
left to right (`Mended`): each takes away the statement around the call at which its diagnostic is
anchored, or puts the source of a node and an equals sign in front of that call (`Repairs`). -/
theorem merged_applies (settings : DiscardedResult) (config : Config) {unit : SourceUnit}
    (hunit : unit.Made) :
    let report := analyzeUnit config (registry settings config) unit
    (∀ d ∈ report.diagnostics, ∃ text, d.fix.apply unit.tree.source = .ok text) ∧
    ∃ text, report.merged.1.apply unit.tree.source = .ok text ∧
      Mended unit.tree.source report.taken text ∧ ∀ d ∈ report.taken, Repairs unit.tree d := by
  intro report
  have hfinished := hunit.finished
  have hfree : ∀ d ∈ report.diagnostics, ConflictFree d.fix.edits := fun d hd =>
    (before_of_mem_analyzeUnit hfinished.sound hd).imp And.right
  refine ⟨fun d hd => Fix.exists_apply (before_of_mem_analyzeUnit hfinished.sound hd)
    fun e he => fits_of_mem_analyzeUnit hfinished hd he, ?_⟩
  rcases apply_cases (UnitReport.conflictFree_merged hfree) unit.tree.source with
    ⟨-, result, hresult, -⟩ | ⟨⟨e, he, hmisfit⟩, -⟩
  · refine ⟨_, hresult, UnitReport.mended_of_apply hfree hresult, fun d hd => ?_⟩
    obtain ⟨hmem, hfix⟩ := UnitReport.mem_of_mem_taken hd
    rcases repairs_of_mem_analyzeUnit hfinished.sound hmem with hrepairs | hnone
    · exact hrepairs
    · simp [hnone, Fix.isEmpty] at hfix
  · -- An edit of the buffer is one of a diagnostic, so it fits.
    rw [← UnitReport.edits_taken] at he
    obtain ⟨d, hd, he⟩ := List.mem_flatMap.mp he
    have hfits := fits_of_mem_analyzeUnit hfinished (UnitReport.mem_of_mem_taken hd).1 he
    exact (Span.not_fits_iff.mpr hmisfit hfits).elim

theorem merged_applies_looseText : ∃ tree types,
    Snippet.parse Snippet.looseScope Snippet.looseText = .ok (tree, types) ∧
      let unit : SourceUnit := { tree, types }
      let report := analyzeUnit {} (registry Snippet.looseSettings {}) unit
      unit.Made ∧ ∃ text, report.merged.1.apply tree.source = .ok text ∧
        Mended tree.source report.taken text := by
  obtain ⟨tree, types, -, -, hparse, -⟩ := Snippet.exists_report_looseText
  have hmade : ({ tree, types } : SourceUnit).Made :=
    .snippet Snippet.declared_looseScope hparse
  obtain ⟨-, text, htext, hmended, -⟩ := merged_applies Snippet.looseSettings {} hmade
  exact ⟨tree, types, hparse, hmade, text, htext, hmended⟩

end DiscardedResult

end TreeLint
