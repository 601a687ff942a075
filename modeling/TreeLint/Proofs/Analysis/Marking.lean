import TreeLint.Analysis.Analyzer
import TreeLint.Proofs.Analysis.Accounting
import TreeLint.Proofs.Scan.Renumbering
import TreeLint.Proofs.Tree.Marking
import TreeLint.Rule.DiscardedResult

/-!
# One more key on a node

A tree with one more key looks like the tree without it, so a scan finds the same in both. The key
can silence a rule at its node and below, and does nothing else.

- `Rule.markedAt_mark_iff`: where a rule is silenced once the key is there.
- `judge_of_markedAt`, `judge_mark`: what becomes of a diagnostic.
- `report_mark`: whole reports.
-/

namespace TreeLint

variable {tree tree' : Tree}

/-! ## Diagnostics -/

section

variable {rule : Rule} {id anchor : NodeId} {key : String} {d : Diagnostic} {config : Config}
variable {registry : Registry}

/-- With the new `key` on the node `id`, `rule` is silenced at `anchor` where it was before, and, if
`key` stands for it, at `id` and below. -/
theorem Rule.markedAt_mark_iff (hid : tree.contains id = true) :
    rule.MarkedAt (tree.mark id key) anchor ↔
      rule.MarkedAt tree anchor ∨ rule.NamedBy key ∧ id ∈ tree.ancestors anchor := by
  obtain ⟨marked, hmarked⟩ : ∃ node, tree.node? id = some node := by
    rwa [Tree.contains_eq_isSome, Option.isSome_iff_exists] at hid
  simp only [MarkedAt, (Tree.sameButKeys_mark tree id key).ancestors]
  constructor
  -- The node that silences is `id`, with an old key or the new one, or its keys are untouched.
  · rintro ⟨other, hother, node, hnode, key', hkey', hnamed⟩
    by_cases hsame : other = id
    · subst hsame
      rw [Tree.node?_mark_self, hmarked] at hnode
      obtain rfl := Option.some.inj hnode
      rcases List.mem_append.mp hkey' with hold | hnew
      · exact .inl ⟨other, hother, marked, hmarked, key', hold, hnamed⟩
      · obtain rfl := List.mem_singleton.mp hnew
        exact .inr ⟨hnamed, hother⟩
    · rw [Tree.node?_mark_of_ne tree key hsame] at hnode
      exact .inl ⟨other, hother, node, hnode, key', hkey', hnamed⟩
  · rintro (⟨other, hother, node, hnode, key', hkey', hnamed⟩ | ⟨hnamed, hmem⟩)
    · by_cases hsame : other = id
      · subst hsame
        obtain rfl := Option.some.inj (hmarked.symm.trans hnode)
        refine ⟨other, hother, _, by rw [Tree.node?_mark_self, hmarked]; rfl, key', ?_, hnamed⟩
        exact List.mem_append_left _ hkey'
      · have hkept : (tree.mark id key).node? other = some node := by
          rw [Tree.node?_mark_of_ne tree key hsame, hnode]
        exact ⟨other, hother, node, hkept, key', hkey', hnamed⟩
    · refine ⟨id, hmem, _, by rw [Tree.node?_mark_self, hmarked]; rfl, key, ?_, hnamed⟩
      exact List.mem_append_right _ (List.mem_singleton_self key)

/-- A key on the way up from `d.anchor` silences `rule`, whatever the comments say. -/
theorem judge_of_markedAt (hget : registry.get? d.rule = some rule)
    (hmark : rule.MarkedAt tree d.anchor) : judge config registry tree d = .dropped := by
  rcases suppression?_cases tree d rule with ⟨-, node, hsuppression⟩ | ⟨hnot, -⟩
  · simp only [judge, hget, hsuppression]
  · exact absurd hmark hnot

/-- Without a key on the way up, in `tree` or in `tree'`, the comments of the source decide. -/
theorem judge_of_not_markedAt (hget : registry.get? d.rule = some rule)
    (hsource : tree'.source = tree.source) (hmark : ¬ rule.MarkedAt tree d.anchor)
    (hmark' : ¬ rule.MarkedAt tree' d.anchor) :
    judge config registry tree' d = judge config registry tree d := by
  have hnone {t : Tree} (h : ¬ rule.MarkedAt t d.anchor) :
      annotatedAbove? t d.anchor rule = none := by
    rwa [← Rule.annotatedAbove?_isSome_iff, Option.not_isSome_iff_eq_none] at h
  simp only [judge, hget, suppression?, hnone hmark, hnone hmark', hsource]

/-- What becomes of `d` does not depend on a `key` that does not stand for `rule`, or does not lie
on the way up. -/
theorem judge_mark (hid : tree.contains id = true) (hget : registry.get? d.rule = some rule)
    (h : ¬ (rule.NamedBy key ∧ id ∈ tree.ancestors d.anchor)) :
    judge config registry (tree.mark id key) d = judge config registry tree d := by
  have hiff : rule.MarkedAt (tree.mark id key) d.anchor ↔ rule.MarkedAt tree d.anchor := by
    rw [Rule.markedAt_mark_iff hid, or_iff_left h]
  by_cases hmark : rule.MarkedAt tree d.anchor
  · rw [judge_of_markedAt hget hmark, judge_of_markedAt hget (hiff.mpr hmark)]
  · exact judge_of_not_markedAt hget rfl hmark fun hmark' => hmark (hiff.mp hmark')

/-- What is reported of `d`, itself or a warning, keeps `d.anchor`. -/
theorem anchor_of_judge {d' : Diagnostic}
    (h : (judge config registry tree d).diagnostic? = some d') : d'.anchor = d.anchor := by
  rcases judge_cases config registry tree d with
    ⟨-, -, hjudge⟩ | ⟨-, -, rule, -, hjudge⟩ | ⟨-, -, hjudge⟩
  · rw [hjudge] at h
    obtain rfl := Option.some.inj h
    rfl
  · rw [hjudge] at h
    obtain rfl := Option.some.inj h
    rfl
  · rw [hjudge] at h
    cases h

end

/-! ## Reports -/

/-- The `unit` with one more `key` on the node `id` of its tree. -/
def SourceUnit.mark (unit : SourceUnit) (id : NodeId) (key : String) : SourceUnit :=
  { unit with tree := unit.tree.mark id key }

section

variable {rule : Rule} {id : NodeId} {key : String} {config : Config} {registry : Registry}
variable {found : List Diagnostic}

/-- If `key` stands for `rule`, what is reported of the findings at `id` and below goes. -/
theorem judged_mark (hid : tree.contains id = true) (hnamed : rule.NamedBy key)
    (hget : ∀ d ∈ found, registry.get? d.rule = some rule)
    (hbelow : ∀ d ∈ found, d.anchor ∈ tree.descendants id ↔ id ∈ tree.ancestors d.anchor) :
    judged config registry (tree.mark id key) found =
      (judged config registry tree found).filter fun d => d.anchor ∉ tree.descendants id := by
  rw [judged, judged, List.filterMap_map, List.filterMap_map, List.filter_filterMap]
  refine List.filterMap_congr fun d hd => ?_
  rw [Function.comp_apply, Function.comp_apply]
  by_cases hmem : d.anchor ∈ tree.descendants id
  · rw [judge_of_markedAt (hget d hd)
      ((Rule.markedAt_mark_iff hid).mpr (.inr ⟨hnamed, (hbelow d hd).mp hmem⟩))]
    cases hjudge : (judge config registry tree d).diagnostic? with
    | none => rfl
    | some d' => simp [Option.filter, Judgement.diagnostic?, anchor_of_judge hjudge, hmem]
  · rw [judge_mark hid (hget d hd) fun h => hmem ((hbelow d hd).mpr h.2)]
    cases hjudge : (judge config registry tree d).diagnostic? with
    | none => rfl
    | some d' => simp [Option.filter, anchor_of_judge hjudge, hmem]

/-- A diagnostic `d` that was suppressed is so with the new `key` too. -/
theorem isSuppression_mark {d : Diagnostic} (hid : tree.contains id = true)
    (hget : registry.get? d.rule = some rule)
    (h : (judge config registry tree d).isSuppression = true) :
    (judge config registry (tree.mark id key) d).isSuppression = true := by
  by_cases hcounts : rule.NamedBy key ∧ id ∈ tree.ancestors d.anchor
  · rw [judge_of_markedAt hget ((Rule.markedAt_mark_iff hid).mpr (.inr hcounts))]
    rfl
  · rwa [judge_mark hid hget hcounts]

end

/-- **One more key.** In a `unit` that `a` analyses for discarded results only (`honly`), a `key` is
put on the node `id`. The builder that made the tree accepts it with the key, too. The failures
stay. If `key` stands for the rule (`NamedBy`), all that is reported at `id` or below it goes,
warnings about directives included; if it does not, nothing goes. All else stays, in its order, and
no fewer diagnostics are counted as `suppressed`. -/
theorem report_mark (settings : DiscardedResult) (a : Analyzer)
    (honly : a.registry.rules = [settings.rule]) (unit : SourceUnit)
    (hfinished : unit.tree.Finished) (id : NodeId) (hid : unit.tree.contains id = true)
    (key : String) :
    let before := a.report unit
    let after := a.report (unit.mark id key)
    (unit.mark id key).tree.Finished ∧
    after.failures = before.failures ∧
    (settings.rule.NamedBy key → after.diagnostics =
      before.diagnostics.filter fun d => d.anchor ∉ unit.tree.descendants id) ∧
    (¬ settings.rule.NamedBy key → after.diagnostics = before.diagnostics) ∧
    before.suppressed ≤ after.suppressed := by
  intro before after
  have htree := hfinished.sound
  have hrules : ∀ rule ∈ a.registry.rules, ∃ settings : DiscardedResult, rule = settings.rule := by
    rw [honly]
    exact List.forall_mem_singleton.mpr ⟨settings, rfl⟩
  have hscan : scan (unit.tree.mark id key) unit.types a.registry =
      scan unit.tree unit.types a.registry :=
    scan_eq_of_alike htree (Tree.sameButKeys_mark unit.tree id key).alike unit.types hrules
  have hclear : a.registry.Unambiguous := by
    rw [Registry.Unambiguous, honly]
    exact List.pairwise_singleton ..
  have hget : ∀ d ∈ (scan unit.tree unit.types a.registry).diagnostics,
      a.registry.get? d.rule = some settings.rule := fun d hd => by
    obtain ⟨-, rule, hrule, -, -, hname, -⟩ := exists_found_of_mem htree hd
    rw [hname, hclear.get?_name hrule]
    rw [honly] at hrule
    rw [List.mem_singleton.mp hrule]
  -- The key reaches up from an anchor, what goes from the report is said looking down from `id`.
  have hbelow : ∀ d ∈ (scan unit.tree unit.types a.registry).diagnostics,
      d.anchor ∈ unit.tree.descendants id ↔ id ∈ unit.tree.ancestors d.anchor := fun d hd => by
    obtain ⟨node, rule, -, -, hanswer, -⟩ := exists_found_of_mem htree hd
    obtain ⟨description, -, hcontains, -, rfl⟩ := found_iff.mp hanswer
    exact htree.mem_descendants_iff hid hcontains
  simp only [before, after, Analyzer.report, analyzeUnit, SourceUnit.mark, hscan]
  refine ⟨hfinished.mark hid key, trivial, fun hnamed => judged_mark hid hnamed hget hbelow,
    fun hnot => ?_, ?_⟩
  · refine congrArg (List.filterMap Judgement.diagnostic?) (List.map_congr_left fun d hd => ?_)
    exact judge_mark hid (hget d hd) fun h => hnot h.1
  · rw [List.countP_map, List.countP_map]
    exact List.countP_mono_left fun d hd h => isSuppression_mark hid (hget d hd) h

/-! ## Two discarded results -/

/-- Calls that build `twoCallsTree`: two statements, each a call of a method. -/
def twoCalls : List BuilderCall :=
  [.push .compilationUnit ⟨0, 37⟩ none, .push .expressionStatement ⟨0, 7⟩ none,
    .push .methodInvocation ⟨0, 6⟩ none, .push .identifier ⟨0, 4⟩ (some "trim"),
    .push .expressionStatement ⟨30, 37⟩ none, .push .methodInvocation ⟨30, 36⟩ none,
    .push .identifier ⟨30, 34⟩ (some "trim"), .attach ⟨0⟩ ⟨1⟩, .attach ⟨1⟩ ⟨2⟩, .attach ⟨2⟩ ⟨3⟩,
    .attach ⟨0⟩ ⟨4⟩, .attach ⟨4⟩ ⟨5⟩, .attach ⟨5⟩ ⟨6⟩]

/-- Two statements that drop a result. A comment allows the first, without a reason. -/
def twoCallsTree : Tree where
  path := "A.java"
  source := "trim(); // sift: allow(SF001)\ntrim();"
  nodes := #[
    { kind := .compilationUnit, range := ⟨0, 37⟩, children := [⟨1⟩, ⟨4⟩] },
    { kind := .expressionStatement, range := ⟨0, 7⟩, parent := some ⟨0⟩, children := [⟨2⟩] },
    { kind := .methodInvocation, range := ⟨0, 6⟩, parent := some ⟨1⟩, children := [⟨3⟩] },
    { kind := .identifier, range := ⟨0, 4⟩, name := some "trim", parent := some ⟨2⟩ },
    { kind := .expressionStatement, range := ⟨30, 37⟩, parent := some ⟨0⟩, children := [⟨5⟩] },
    { kind := .methodInvocation, range := ⟨30, 36⟩, parent := some ⟨4⟩, children := [⟨6⟩] },
    { kind := .identifier, range := ⟨30, 34⟩, name := some "trim", parent := some ⟨5⟩ }]
  root := ⟨0⟩

/-- Both calls of `twoCallsTree` are of a method of strings that returns a string. -/
def twoCallsTypes : TypeTable where
  types := #[{ name := "java.lang.String" }]
  bindings := [(⟨3⟩, { kind := .method, owner := some ⟨0⟩, returns := some ⟨0⟩ }),
    (⟨6⟩, { kind := .method, owner := some ⟨0⟩, returns := some ⟨0⟩ })]

theorem finished_twoCallsTree : twoCallsTree.Finished := by
  refine ⟨twoCallsTree.path, twoCallsTree.source, twoCalls, ⟨0⟩, by decide,
    Builder.finish_eq_ok_iff_checks.mpr
      ⟨by decide, rfl, rfl, Builder.checkReach_eq_ok_iff.mpr ⟨by decide, ?_⟩, rfl⟩⟩
  rintro ⟨index⟩ hindex
  have hlt : index < 7 := of_decide_eq_true hindex
  clear hindex
  -- Every node hangs from one that was added before it.
  have hlinks : ∀ index < 7, 0 < index → ∃ parent < index, (⟨index⟩ : NodeId) ∈
      ((Builder.start twoCallsTree.path twoCallsTree.source).performAll twoCalls).children
        ⟨parent⟩ := by decide
  induction index using Nat.strong_induction_on with
  | _ index ih =>
    rcases Nat.eq_zero_or_pos index with rfl | hpos
    · exact .refl
    · obtain ⟨parent, hparent, hlink⟩ := hlinks index hlt hpos
      exact (ih parent hparent (by omega)).tail hlink

/-- The key `SF001` on the first statement takes away the warning about its directive, and no more;
the key `SF002` does nothing. -/
theorem report_mark_twoCallsTree :
    let a : Analyzer := { (default : Analyzer) with
      registry := .ofList [DiscardedResult.default.rule] }
    let unit : SourceUnit := { tree := twoCallsTree, types := twoCallsTypes }
    a.registry.rules = [DiscardedResult.default.rule] ∧ twoCallsTree.Finished ∧
      twoCallsTree.contains ⟨1⟩ = true ∧ DiscardedResult.default.rule.NamedBy "SF001" ∧
      ¬ DiscardedResult.default.rule.NamedBy "SF002" ∧
      (a.report unit).diagnostics.map (fun d => (d.anchor, d.severity)) =
        [(⟨2⟩, .warning), (⟨5⟩, .error)] ∧
      (a.report (unit.mark ⟨1⟩ "SF001")).diagnostics.map (fun d => (d.anchor, d.severity)) =
        [(⟨5⟩, .error)] ∧
      (a.report (unit.mark ⟨1⟩ "SF002")).diagnostics = (a.report unit).diagnostics := by
  intro a unit
  have honly : a.registry.rules = [DiscardedResult.default.rule] := rfl
  have hnamed : DiscardedResult.default.rule.NamedBy "SF001" := .inr (.inr (.inl rfl))
  have hother : ¬ DiscardedResult.default.rule.NamedBy "SF002" := by
    simp [Rule.NamedBy, everyRule, DiscardedResult.rule, DiscardedResult.ruleName,
      DiscardedResult.ruleCode]
  have hbefore : (a.report unit).diagnostics.map (fun d => (d.anchor, d.severity)) =
      [(⟨2⟩, .warning), (⟨5⟩, .error)] := by cbv
  obtain ⟨-, -, hgone, -⟩ := report_mark .default a honly unit finished_twoCallsTree ⟨1⟩ rfl "SF001"
  obtain ⟨-, -, -, hkept, -⟩ :=
    report_mark .default a honly unit finished_twoCallsTree ⟨1⟩ rfl "SF002"
  refine ⟨honly, finished_twoCallsTree, rfl, hnamed, hother, hbefore, ?_, hkept hother⟩
  calc (a.report (unit.mark ⟨1⟩ "SF001")).diagnostics.map (fun d => (d.anchor, d.severity))
      = ((a.report unit).diagnostics.map (fun d => (d.anchor, d.severity))).filter
          fun found => found.1 ∉ twoCallsTree.descendants ⟨1⟩ := by
        rw [hgone hnamed, List.filter_map]
        rfl
    _ = [(⟨5⟩, .error)] := by
        rw [hbefore]
        decide

end TreeLint
