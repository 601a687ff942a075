import TreeLint.Proofs.Rule.Verdict

/-!
# Missing type facts

Type facts come from outside and may be missing. Nothing is reported on the strength of a fact that
is not there: a table that knows less reports less, and where it still reports a call it never
proposes to assign the result when the fuller table would not.

- `TypeTable.Forgets`: one table knows of the nodes only what another knows, perhaps less.
- `Matcher.Positive`, `Matcher.holds_of_forgets`: a matcher without negation that holds on fewer
  facts holds on all of them.
- `Flagged.recall`, `Target.recall`: what the rule on discarded results asks of the types stays true
  when facts are added.
- `forgetting_fails_closed`: what becomes of a verdict when facts are taken away.
-/

namespace TreeLint

/-- The `weaker` binding says of the kind of symbol what the `fuller` one says, and each type that
it gives is the one that the other gives. -/
structure Binding.Forgets (weaker fuller : Binding) : Prop where
  kind : weaker.kind = fuller.kind
  type : ∀ t, weaker.type = some t → fuller.type = some t
  owner : ∀ t, weaker.owner = some t → fuller.owner = some t
  returns : ∀ t, weaker.returns = some t → fuller.returns = some t

namespace TypeTable

/-- Two tables have the same types, and the bindings of the `weaker` one are those of the `fuller`
one but for missing ones and for missing types in them. -/
structure Forgets (weaker fuller : TypeTable) : Prop where
  types : weaker.types = fuller.types
  bound : ∀ node binding, weaker.binding? node = some binding →
    ∃ known, fuller.binding? node = some known ∧ binding.Forgets known

namespace Forgets

variable {weaker fuller : TypeTable} {node : NodeId} {type : TypeId}

theorem ownerOf? (h : weaker.Forgets fuller) (hweaker : weaker.ownerOf? node = some type) :
    fuller.ownerOf? node = some type := by
  obtain ⟨binding, hbinding, howner⟩ := Option.bind_eq_some_iff.mp hweaker
  obtain ⟨known, hknown, hforgets⟩ := h.bound node binding hbinding
  rw [TypeTable.ownerOf?, hknown]
  exact hforgets.owner type howner

theorem returnsOf? (h : weaker.Forgets fuller) (hweaker : weaker.returnsOf? node = some type) :
    fuller.returnsOf? node = some type := by
  obtain ⟨binding, hbinding, hreturns⟩ := Option.bind_eq_some_iff.mp hweaker
  obtain ⟨known, hknown, hforgets⟩ := h.bound node binding hbinding
  rw [TypeTable.returnsOf?, hknown]
  exact hforgets.returns type hreturns

theorem typeName? (h : weaker.Forgets fuller) (type : TypeId) :
    weaker.typeName? type = fuller.typeName? type := by
  rw [TypeTable.typeName?, TypeTable.typeName?, h.types]

theorem above (h : weaker.Forgets fuller) {source target : TypeId}
    (hway : weaker.Above source target) : fuller.Above source target := by
  refine Relation.ReflTransGen.mono (fun type super hsuper => ?_) _ _ hway
  rwa [supertypes, h.types] at hsuper

end Forgets

end TypeTable

variable {weaker fuller : TypeTable}

/-! ## Matchers -/

namespace Matcher

/-- A matcher in which nothing is negated. -/
inductive Positive : Matcher → Prop
  | kindIs (kind : Kind) : Positive (.kindIs kind)
  | parent {inner : Matcher} (h : Positive inner) : Positive (.parent inner)
  | callee {inner : Matcher} (h : Positive inner) : Positive (.callee inner)
  | ownerIn (names : List String) : Positive (.ownerIn names)
  | returnsOwner : Positive .returnsOwner
  | all {inner : List Matcher} (h : ∀ m ∈ inner, Positive m) : Positive (.all inner)
  | any {inner : List Matcher} (h : ∀ m ∈ inner, Positive m) : Positive (.any inner)

/-- A matcher `m` without negation that holds on the `weaker` facts holds on all of them. -/
theorem holds_of_forgets (visit : Visit) (hforgets : weaker.Forgets visit.types) {m : Matcher}
    (hpositive : m.Positive) {node : NodeId}
    (h : m.holds { visit with types := weaker } node = true) : m.holds visit node = true := by
  -- The induction is on the matcher; a part of it may be asked at the parent or at the callee.
  induction hpositive generalizing node with
  | kindIs kind => simpa only [holds] using h
  | parent _ ih =>
    obtain ⟨above, habove, hinner⟩ := holds_parent_iff.mp h
    exact holds_parent_iff.mpr ⟨above, habove, ih hinner⟩
  | callee _ ih =>
    obtain ⟨hcall, target, htarget, hinner⟩ := holds_callee_iff.mp h
    exact holds_callee_iff.mpr ⟨hcall, target, htarget, ih hinner⟩
  | ownerIn names =>
    obtain ⟨owner, howner, name, hmem, hname⟩ := holds_ownerIn_iff.mp h
    refine holds_ownerIn_iff.mpr ⟨owner, hforgets.ownerOf? howner, name, hmem, ?_⟩
    rw [← hname]
    exact (hforgets.typeName? owner).symm
  | returnsOwner =>
    obtain ⟨owner, howner, hreturns⟩ := holds_returnsOwner_iff.mp h
    exact holds_returnsOwner_iff.mpr
      ⟨owner, hforgets.ownerOf? howner, hforgets.returnsOf? hreturns⟩
  | all _ ih =>
    rw [holds_all_iff] at h ⊢
    intro m hm
    exact ih m hm (h m hm)
  | any _ ih =>
    rw [holds_any_iff] at h ⊢
    obtain ⟨m, hm, hholds⟩ := h
    exact ⟨m, hm, ih m hm hholds⟩

end Matcher

/-! ## The rule on discarded results -/

namespace DiscardedResult

variable {settings : DiscardedResult} {tree : Tree} {node callee statement root : NodeId}
variable {owner : TypeId}

theorem positive_matcher (settings : DiscardedResult) : settings.matcher.Positive := by
  have hcallee : ∀ m ∈ [.ownerIn settings.types, .returnsOwner], Matcher.Positive m := by
    simp [Matcher.Positive.ownerIn, Matcher.Positive.returnsOwner]
  refine .all fun m hm => ?_
  simp only [List.mem_cons, List.not_mem_nil, or_false] at hm
  rcases hm with rfl | rfl
  · exact .parent (.kindIs _)
  · exact .callee (.all hcallee)

theorem Flagged.recall (hforgets : weaker.Forgets fuller)
    (h : Flagged settings tree weaker node callee statement owner) :
    Flagged settings tree fuller node callee statement owner where
  isCall := h.isCall
  hasParent := h.hasParent
  isStatement := h.isStatement
  hasCallee := h.hasCallee
  declaredBy := hforgets.ownerOf? h.declaredBy
  returns := hforgets.returnsOf? h.returns
  configured := by
    obtain ⟨name, hmem, hname⟩ := h.configured
    exact ⟨name, hmem, hforgets.typeName? owner ▸ hname⟩

theorem Target.recall (hforgets : weaker.Forgets fuller)
    (h : Target settings tree weaker owner root) : Target settings tree fuller owner root where
  plain := h.plain
  bound := by
    obtain ⟨binding, hbinding, hkind, type, htype, habove⟩ := h.bound
    obtain ⟨known, hknown, hless⟩ := hforgets.bound root binding hbinding
    exact ⟨known, hknown, hless.kind ▸ hkind, type, hless.type type htype, hforgets.above habove⟩
  notSelf := h.notSelf

theorem deletion_ne_assignment : deletion tree node statement ≠ assignment tree node root := by
  intro h
  have hedits : [Edit.delete _] = [Edit.insertBefore _ _] := congrArg Description.edits h
  cases hedits

/-- What the rule says of a flagged call on the `weaker` facts is what it says with all facts, but
that a `deletion` may stand for an `assignment`. -/
theorem check_of_forgets (settings : DiscardedResult) (visit : Visit) (htree : visit.tree.Sound)
    (hparent : ∀ x, visit.parent? x = visit.tree.parent? x) (hforgets : weaker.Forgets visit.types)
    (h : Flagged settings visit.tree weaker node callee statement owner) :
    settings.check { visit with types := weaker } node = settings.check visit node ∨
      ∃ root, settings.check visit node = .finding (assignment visit.tree node root) ∧
        settings.check { visit with types := weaker } node =
          .finding (deletion visit.tree node statement) := by
  obtain ⟨stop, hchain, hweaker⟩ :=
    check_eq_of_flagged { visit with types := weaker } htree hparent h
  obtain ⟨stop', hchain', hfuller⟩ := check_eq_of_flagged visit htree hparent (h.recall hforgets)
  -- The chain has no part in the types, so it ends at one place for both tables.
  obtain rfl := hchain'.unique hchain
  rcases hweaker with ⟨place, detail, rfl, he⟩ | ⟨root, rfl, htarget, he⟩ | ⟨hno, hroot, he⟩
  · obtain ⟨_, _, ⟨⟩, he'⟩ | ⟨_, ⟨⟩, _, _⟩ | ⟨hno, _, _⟩ := hfuller
    · exact .inl (he.trans he'.symm)
    · exact (hno _ rfl).elim
  · obtain ⟨_, _, ⟨⟩, _⟩ | ⟨_, ⟨⟩, _, he'⟩ | ⟨_, hroot, _⟩ := hfuller
    · exact .inl (he.trans he'.symm)
    · exact (hroot root rfl (htarget.recall hforgets)).elim
  · obtain ⟨_, _, rfl, _⟩ | ⟨root, _, _, he'⟩ | ⟨_, _, he'⟩ := hfuller
    · exact (hno _ rfl).elim
    · exact .inr ⟨root, he', he⟩
    · exact .inl (he.trans he'.symm)

/-- **Missing facts fail closed.** In a finished tree, asked at any moment of a walk or outside of
one (`htrail`): a matcher `m` without negation that holds on the `weaker` facts holds on all of
them. Where the rule, with any `settings`, says nothing, it says nothing on the `weaker` facts. A
violation that it then reports and an `assignment` that it then proposes are there with all facts
too; any other finding is there as it is or is a `deletion` in place of an `assignment`. -/
theorem forgetting_fails_closed (visit : Visit) (weaker : TypeTable) (node : NodeId)
    (hfinished : visit.tree.Finished)
    (htrail : visit.trail = [] ∨ ∃ current, visit.tree.contains current = true ∧
      visit.trail = visit.tree.ancestors current)
    (hforgets : weaker.Forgets visit.types) :
    (∀ m : Matcher, m.Positive →
      m.holds { visit with types := weaker } node = true → m.holds visit node = true) ∧
    ∀ settings : DiscardedResult,
      (settings.check visit node = .noMatch →
        settings.check { visit with types := weaker } node = .noMatch) ∧
      (∀ place detail,
        settings.check { visit with types := weaker } node = .violation place detail →
          settings.check visit node = .violation place detail) ∧
      (∀ root,
        settings.check { visit with types := weaker } node =
            .finding (assignment visit.tree node root) →
          settings.check visit node = .finding (assignment visit.tree node root)) ∧
      ∀ description,
        settings.check { visit with types := weaker } node = .finding description →
          settings.check visit node = .finding description ∨
          ∃ root statement, visit.tree.parent? node = some statement ∧
            settings.check visit node = .finding (assignment visit.tree node root) ∧
            description = deletion visit.tree node statement := by
  have hparent : ∀ x, visit.parent? x = visit.tree.parent? x := by
    intro x
    rcases htrail with htrail | ⟨current, hcurrent, htrail⟩
    · rw [Visit.parent?, htrail]
    · have hon := Visit.parent?_on visit.types hfinished.sound hcurrent x
      rwa [Visit.on, ← htrail] at hon
  refine ⟨fun m hpositive => Matcher.holds_of_forgets visit hforgets hpositive,
    fun settings => ?_⟩
  by_cases hflagged : ∃ callee statement owner,
      Flagged settings visit.tree weaker node callee statement owner
  -- Flagged on fewer facts: flagged on all of them.
  · obtain ⟨callee, statement, owner, h⟩ := hflagged
    have hfuller : settings.check visit node ≠ .noMatch := fun hsilent =>
      (check_eq_noMatch_iff visit hfinished.sound hparent).mp hsilent
        ⟨callee, statement, owner, h.recall hforgets⟩
    refine ⟨fun hsilent => (hfuller hsilent).elim, ?_⟩
    rcases check_of_forgets settings visit hfinished.sound hparent hforgets h with
      hsame | ⟨root, hassign, hdelete⟩
    · rw [hsame]
      exact ⟨fun _ _ h => h, fun _ h => h, fun _ h => .inl h⟩
    · rw [hdelete, hassign]
      refine ⟨by simp, fun other h => ?_, fun description hfinding => ?_⟩
      · exact (deletion_ne_assignment (Verdict.finding.inj h)).elim
      · exact .inr ⟨root, statement, h.hasParent, rfl, (Verdict.finding.inj hfinding).symm⟩
  -- Not flagged on fewer facts: the rule is silent, and the rest is empty.
  · have hsilent := (check_eq_noMatch_iff { visit with types := weaker } hfinished.sound hparent).mpr
      hflagged
    rw [hsilent]
    exact ⟨fun _ => rfl, by simp, by simp, by simp⟩

/-- The facts of `builderTypes`, with a type for the variable by which it can hold the result of the
chain. -/
def storedTypes : TypeTable :=
  builderTypes.bind ⟨8⟩ { kind := .localVariable, type := some ⟨1⟩ }

/-- The facts of `storedTypes`, but the type of the variable is not known, and nothing is known of
the first call. -/
def untypedTypes : TypeTable where
  types := storedTypes.types
  bindings := [(⟨8⟩, { kind := .localVariable }),
    (⟨5⟩, { kind := .method, owner := some ⟨0⟩, returns := some ⟨1⟩ }),
    (⟨3⟩, { kind := .method, owner := some ⟨1⟩, returns := some ⟨1⟩ })]

theorem forgets_untypedTypes : untypedTypes.Forgets storedTypes where
  types := rfl
  bound := by
    intro node binding h
    simp only [TypeTable.binding?, untypedTypes, Assoc.get?] at h
    split_ifs at h with hroot hinner houter
    all_goals
      subst node
      obtain rfl := Option.some.inj h
      exact ⟨_, rfl, rfl, by simp, by simp, by simp⟩

theorem target_storedTypes : Target default builderTree storedTypes ⟨1⟩ ⟨8⟩ where
  plain := .name rfl
  bound := ⟨_, rfl, .inl rfl, ⟨1⟩, rfl, .refl⟩
  notSelf := by decide +kernel

theorem check_storedTypes : default.check { tree := builderTree, types := storedTypes } ⟨2⟩ =
    .finding (assignment builderTree ⟨2⟩ ⟨8⟩) := by
  have hflagged : Flagged default builderTree storedTypes ⟨2⟩ ⟨3⟩ ⟨1⟩ ⟨1⟩ :=
    ⟨rfl, rfl, rfl, rfl, rfl, rfl, "java.lang.String", .head _, rfl⟩
  obtain ⟨stop, hchain, hcheck⟩ := check_eq_of_flagged { tree := builderTree, types := storedTypes }
    finished_builderTree.sound (fun _ => rfl) hflagged
  obtain rfl := chain_builderTree.unique hchain
  obtain ⟨_, _, ⟨⟩, _⟩ | ⟨_, ⟨⟩, _, hassign⟩ | ⟨_, hno, _⟩ := hcheck
  · exact hassign
  · exact (hno _ rfl target_storedTypes).elim

theorem forgetting_fails_closed_untyped :
    builderTree.Finished ∧ untypedTypes.Forgets storedTypes ∧
      default.matcher.holds { tree := builderTree, types := storedTypes } ⟨2⟩ = true ∧
      ∃ root statement, builderTree.parent? ⟨2⟩ = some statement ∧
        default.check { tree := builderTree, types := storedTypes } ⟨2⟩ =
          .finding (assignment builderTree ⟨2⟩ root) ∧
        default.check { tree := builderTree, types := untypedTypes } ⟨2⟩ =
          .finding (deletion builderTree ⟨2⟩ statement) := by
  have hdeletion : default.check { tree := builderTree, types := untypedTypes } ⟨2⟩ =
      .finding (deletion builderTree ⟨2⟩ ⟨1⟩) := by decide +kernel
  obtain ⟨hmatcher, hrule⟩ := forgetting_fails_closed { tree := builderTree, types := storedTypes }
    untypedTypes ⟨2⟩ finished_builderTree (.inl rfl) forgets_untypedTypes
  refine ⟨finished_builderTree, forgets_untypedTypes,
    hmatcher default.matcher (positive_matcher default) (by decide +kernel), ?_⟩
  rcases (hrule default).2.2.2 _ hdeletion with hsame | ⟨root, statement, hparent, hassign, hbefore⟩
  · rw [check_storedTypes] at hsame
    exact (deletion_ne_assignment (Verdict.finding.inj hsame).symm).elim
  · exact ⟨root, statement, hparent, hassign, hdeletion.trans (congrArg Verdict.finding hbefore)⟩

end DiscardedResult

end TreeLint
