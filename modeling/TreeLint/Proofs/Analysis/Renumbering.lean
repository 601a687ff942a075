import TreeLint.Analysis.Report
import TreeLint.Proofs.Rule.Repair
import TreeLint.Proofs.Scan.Renumbering
import TreeLint.Proofs.Unit.RoundTrip

/-!
# Reports do not depend on numbers

Two units that are equal up to the numbers of their nodes and types are reported on alike. So it
makes no difference whether a snippet is analysed as it was parsed, or rendered, loaded and then
analysed.

- `judge_renumbered`: what becomes of a diagnostic.
- `analyzeUnit_renumbered`: whole reports, and those on a snippet and its document.
-/

namespace TreeLint

variable {σ : NodeId ≃ NodeId} {τ : TypeId ≃ TypeId} {tree tree' : Tree} {types types' : TypeTable}
variable {registry : Registry}

/-! ## Reports -/

/-- The judgement with `σ` applied to the anchor of its diagnostic. -/
def Judgement.renumber (σ : NodeId ≃ NodeId) : Judgement → Judgement
  | .kept d => .kept (d.renumber σ)
  | .dropped => .dropped
  | .replaced warning => .replaced (warning.renumber σ)

theorem annotatedAbove?_renumbered (h : tree.Renumbered σ tree') (anchor : NodeId) (rule : Rule) :
    annotatedAbove? tree' (σ anchor) rule = (annotatedAbove? tree anchor rule).map σ := by
  rw [annotatedAbove?, annotatedAbove?, h.alike.ancestors, List.find?_map]
  refine congrArg (Option.map σ) (congrArg (List.find? · _) (funext fun node => ?_))
  rw [Function.comp_apply, h.node?]
  cases tree.node? node <;> rfl

/-- The suppression with `σ` applied to the node that is marked. -/
def Suppression.renumber (σ : NodeId ≃ NodeId) : Suppression → Suppression
  | .marked node => .marked (σ node)
  | .directive reason => .directive reason

theorem suppression?_renumbered (h : tree.Renumbered σ tree') (d : Diagnostic) (rule : Rule) :
    suppression? tree' (d.renumber σ) rule =
      (suppression? tree d rule).map (Suppression.renumber σ) := by
  simp only [suppression?, Diagnostic.anchor_renumber, Diagnostic.location_renumber,
    annotatedAbove?_renumbered h, h.source]
  cases annotatedAbove? tree d.anchor rule with
  | some node => rfl
  | none => cases allowance tree.source.toList d.location.line rule <;> rfl

/-- What `judge` says of `d` in `tree` it says of `d.renumber σ` in `tree'`, up to `σ`. -/
theorem judge_renumbered (h : tree.Renumbered σ tree') (config : Config) (registry : Registry)
    (d : Diagnostic) :
    judge config registry tree' (d.renumber σ) = (judge config registry tree d).renumber σ := by
  simp only [judge, Diagnostic.rule_renumber, suppression?_renumbered h]
  cases registry.get? d.rule with
  | none => rfl
  | some rule =>
    dsimp only
    cases suppression? tree d rule with
    | none => rfl
    | some suppression =>
      cases suppression with
      | marked node => rfl
      | directive reason =>
        simp only [Option.map_some, Suppression.renumber]
        split <;> rfl

/-- The reports `report` and `report'` are equal but for the numbers of nodes, which `σ`
translates. -/
structure UnitReport.Renumbered (σ : NodeId ≃ NodeId) (report report' : UnitReport) : Prop where
  document : report'.document = report.document
  /-- The same diagnostics in the same order: code, rule, severity, location, message, help and
  edits are equal, and `σ` takes anchor to anchor. -/
  diagnostics : report'.diagnostics = report.diagnostics.map (Diagnostic.renumber σ)
  failures : List.Forall₂ (RuleFailure.Renumbered σ) report.failures report'.failures
  suppressed : report'.suppressed = report.suppressed

theorem analyzeUnit_of_renumbered {unit unit' : SourceUnit} (htree : unit.tree.Sound)
    (h : unit.tree.Renumbered σ unit'.tree)
    (htypes : unit.types.Renumbered unit.tree σ τ unit'.types) (config : Config)
    (hrules : ∀ rule ∈ registry.rules, ∃ settings : DiscardedResult, rule = settings.rule) :
    (analyzeUnit config registry unit).Renumbered σ (analyzeUnit config registry unit') := by
  obtain ⟨hdiagnostics, hfailures⟩ := scan_renumbered htree h.alike htypes hrules
  have hjudged : (scan unit'.tree unit'.types registry).diagnostics.map
      (judge config registry unit'.tree) =
      ((scan unit.tree unit.types registry).diagnostics.map
        (judge config registry unit.tree)).map (Judgement.renumber σ) := by
    rw [hdiagnostics, List.map_map, List.map_map]
    exact List.map_congr_left fun d _ => judge_renumbered h config registry d
  refine ⟨h.path, ?_, hfailures, ?_⟩
  · change List.filterMap _ (List.map _ _) = _
    rw [hjudged, List.filterMap_map]
    change _ = List.map _ (List.filterMap _ _)
    rw [List.map_filterMap]
    refine List.filterMap_congr fun judgement _ => ?_
    cases judgement <;> rfl
  · change List.countP _ (List.map _ _) = _
    rw [hjudged, List.countP_map]
    refine congrArg (List.countP · _) (funext fun judgement => ?_)
    cases judgement <;> rfl

/-- The types of a unit that mirrors `tree` and `types`, by their numbers `τ`. -/
theorem SourceUnit.Mirrors.exists_types {unit : SourceUnit} (h : unit.Mirrors tree types σ) :
    ∃ τ, types.Renumbered tree σ τ unit.types :=
  TypeTable.exists_renumbered_of_names h.closed.1 h.closed.2 h.names
    (fun name above => by rw [h.above]) h.bound

/-- **Numbers do not matter.** Units that are equal up to the numbers of their nodes (`σ`) and types
(`τ`) are reported on alike by the rule on discarded results, in any settings (`hrules`). A snippet
and what is loaded from its document `doc` are such units: `σ` takes the nodes of the one to the
document order of the other. -/
theorem analyzeUnit_renumbered (config : Config)
    (hrules : ∀ rule ∈ registry.rules, ∃ settings : DiscardedResult, rule = settings.rule) :
    (∀ (σ : NodeId ≃ NodeId) (τ : TypeId ≃ TypeId) (unit unit' : SourceUnit), unit.tree.Sound →
      unit.tree.Renumbered σ unit'.tree →
      unit.types.Renumbered unit.tree σ τ unit'.types →
      (analyzeUnit config registry unit).Renumbered σ (analyzeUnit config registry unit')) ∧
    ∀ (scope : Snippet.Scope) (source : String) (tree : Tree) (types : TypeTable)
      (doc : UnitDocument) (disk : Disk) (cwd : Place) (base : String) (unit : SourceUnit),
      scope.Declared →
      Snippet.parse scope source = .ok (tree, types) →
      Text.byteSize source.toList ≤ Decode.maxWord →
      UnitDocument.ofTree? tree types = some doc →
      SourceUnit.ofText disk cwd base doc.render = .ok unit →
      ∃ σ : NodeId ≃ NodeId, (∀ i id, (tree.descendants tree.root)[i]? = some id → σ id = ⟨i⟩) ∧
        (analyzeUnit config registry { tree, types }).Renumbered σ
          (analyzeUnit config registry unit) := by
  refine ⟨fun σ τ unit unit' htree h htypes => analyzeUnit_of_renumbered htree h htypes config
    hrules, fun scope source tree types doc disk cwd base unit hscope hparse hsize hdoc hunit => ?_⟩
  obtain ⟨σ, hmirrors⟩ := Snippet.exists_mirrors hscope hparse hsize hdoc hunit
  obtain ⟨-, htree, -⟩ := Snippet.facts_of_parse hscope hparse
  obtain ⟨τ, htypes⟩ := hmirrors.exists_types
  exact ⟨σ, hmirrors.numbered,
    analyzeUnit_of_renumbered htree hmirrors.renumbered htypes config hrules⟩

namespace Snippet

/-- Two results are discarded in `looseText`. Its unit and the one loaded from its document are
equal up to numbers, and are reported on alike. -/
theorem analyzeUnit_renumbered_looseText : ∃ tree types doc unit d d',
    parse looseScope looseText = .ok (tree, types) ∧
      UnitDocument.ofTree? tree types = some doc ∧
      SourceUnit.ofText default default "" doc.render = .ok unit ∧
      (scan tree types (.ofList [looseSettings.rule])).diagnostics = [d, d'] ∧
      (∃ σ τ, tree.Sound ∧ tree.Renumbered σ unit.tree ∧
        types.Renumbered tree σ τ unit.types ∧
        (analyzeUnit {} (.ofList [looseSettings.rule]) { tree, types }).Renumbered σ
          (analyzeUnit {} (.ofList [looseSettings.rule]) unit)) ∧
      ∃ σ : NodeId ≃ NodeId, (∀ i id, (tree.descendants tree.root)[i]? = some id → σ id = ⟨i⟩) ∧
        (analyzeUnit {} (.ofList [looseSettings.rule]) { tree, types }).Renumbered σ
          (analyzeUnit {} (.ofList [looseSettings.rule]) unit) := by
  have hscope := declared_looseScope
  have hsize : Text.byteSize looseText.toList ≤ Decode.maxWord := by decide
  have hfew : (unitOutline looseScope looseText looseItems).size ≤ 63 := by
    simp [unitOutline, looseItems, Item.outlines, Item.outline, Expr.outline, Outline.reference,
      Outline.value, Expr.outlines, Outline.size, Outline.sizeAll]
  have hrules : ∀ rule ∈ (Registry.ofList [looseSettings.rule]).rules,
      ∃ settings : DiscardedResult, rule = settings.rule := by
    rw [Registry.ofList_eq_of_nodup (by simp)]
    exact List.forall_mem_singleton.mpr ⟨looseSettings, rfl⟩
  obtain ⟨tree, types, d, d', hparse, hreport, -, -⟩ := exists_report_looseText
  obtain ⟨hsource, htree, hnested, -⟩ := facts_of_parse hscope hparse
  obtain ⟨doc, hdoc⟩ := UnitDocument.exists_ofTree? htree types
  have hdepth := depth_le_of_size hscope ofText_looseText (ofTokens_looseTokens _) hfew hparse
  obtain ⟨unit, hunit⟩ : ∃ unit, SourceUnit.ofText default default "" doc.render = .ok unit := by
    rcases UnitDocument.ofText_render_cases htree hnested hdoc (hsource ▸ hsize) default default ""
      with ⟨-, tree', types', -, hload⟩ | ⟨hdeep, -⟩
    · exact ⟨_, hload⟩
    · exact (hdeep hdepth).elim
  obtain ⟨σ, hmirrors⟩ := exists_mirrors hscope hparse hsize hdoc hunit
  obtain ⟨τ, htypes⟩ := hmirrors.exists_types
  obtain ⟨hany, hsnippet⟩ := analyzeUnit_renumbered {} hrules
  exact ⟨tree, types, doc, unit, d, d', hparse, hdoc, hunit, hreport,
    ⟨σ, τ, htree, hmirrors.renumbered, htypes,
      hany σ τ { tree, types } unit htree hmirrors.renumbered htypes⟩,
    hsnippet _ _ _ _ _ _ _ _ _ hscope hparse hsize hdoc hunit⟩

end Snippet

end TreeLint
