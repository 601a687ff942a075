import TreeLint.Proofs.Rule.Verdict
import TreeLint.Proofs.Scan.Isolation
import TreeLint.Proofs.Snippet.Places

/-!
# Discarded results in snippets

What the rule finds in a snippet can be told from its items. No walk of the rule goes wrong in the
tree of a snippet, and the findings of a scan are those of its expression statements, in order.

- `Expr.finding?`, `Item.findings`: what the rule finds in an item.
- `check_of_stands`: the verdict at the call of an expression statement.
- `scan_of_shows`: the report of a scan.
-/

namespace TreeLint

namespace Snippet

open DiscardedResult

/-! ## What is found -/

/-- The text of `source` that `span` covers; empty when it does not fit. -/
def textOn (source : String) (span : Span) : String :=
  String.ofList ((Text.slice? source.toList span.start span.stop).getD [])

/-- Whether an expression is a call, `callOwn` or `callOn`. -/
def Expr.isCall : Expr → Bool
  | .callOwn _ _ _ _ | .callOn _ _ _ _ _ => true
  | _ => false

/-- What stands at the start of a chain of calls, behind every `receiver`, if it is not a call by
name alone. -/
def Expr.root? : Expr → Option Expr
  | .callOn receiver _ _ _ _ => if receiver.isCall then receiver.root? else some receiver
  | _ => none

/-- Whether an expression is a `name`, or a name qualified by names alone. -/
def Expr.isPlain : Expr → Bool
  | .self _ | .name _ _ => true
  | .select receiver _ _ => receiver.isPlain
  | _ => false

/-- What the callee of a call refers to in `scope`. -/
def Expr.callee? (scope : Scope) : Expr → Option Binding
  | .callOwn method _ _ _ => Draft.methodBinding? scope (some scope.selfType) method
  | .callOn receiver method _ _ _ => Draft.methodBinding? scope (receiver.type? scope) method
  | _ => none

/-- A discarded result in a source text: where the `call` stands, and the `statement` around it. -/
structure Finding where
  call : Span
  statement : Span
  /-- The variable that can hold the result, as it is written. -/
  target : Option String
  deriving DecidableEq, Repr

/-- The description of the finding `f` at the node `anchor`. -/
def Finding.description (f : Finding) (anchor : NodeId) : Description :=
  match f.target with
  | some text =>
    { anchor, message, help := some ("Assign the result back to \x60" ++ text ++ "\x60")
      edits := [.insertBefore f.call (text ++ " = ")] }
  | none =>
    { anchor, message, help := some "Remove the statement; the call has no effect"
      edits := [.delete f.statement] }

theorem Finding.anchor_description (f : Finding) (anchor : NodeId) :
    (f.description anchor).anchor = anchor := by
  unfold description
  cases f.target <;> rfl

section

variable (settings : DiscardedResult) (scope : Scope) (source : String)

/-- The type that the call `e` returns when its result must not be discarded, by `settings`. -/
def Expr.flag? (e : Expr) : Option TypeId :=
  (e.callee? scope).bind fun binding =>
    (binding.owner.filter fun owner => binding.returns = some owner).filter fun owner =>
      (scope.types.typeName? owner).any settings.types.contains

/-- Whether an expression is a variable that can hold a value of the type `returned`. -/
def Expr.holds (returned : TypeId) (e : Expr) : Bool :=
  e.isPlain && textOn source e.span != settings.selfKeyword &&
    ((e.outline scope).label.binding.any fun binding =>
      (binding.kind = .localVariable || binding.kind = .field) &&
        binding.type.any (scope.types.isAssignable returned))

/-- What is found in an expression that is a statement up to the byte `stop`. -/
def Expr.finding? (e : Expr) (stop : Nat) : Option Finding :=
  (e.flag? settings scope).map fun returned =>
    { call := e.span, statement := ⟨e.span.start, stop⟩
      target := (e.root?.filter (Expr.holds settings scope source returned)).map fun root =>
        textOn source root.span }

mutual

/-- What is found in an item, in order; `scope` is that in front of it. -/
def Item.findings (scope : Scope) : Item → List Finding
  | .block items _ => Item.findingsAll scope items
  | .suppressed _ item => item.findings scope
  | .branch _ _ yes none => yes.findings scope
  | .branch _ _ yes (some no) => yes.findings scope ++ no.findings (yes.after scope)
  | .evaluate value stop => (value.finding? settings scope source stop).toList
  | .ret _ _ | .declare _ _ _ _ => []

/-- What is found in items, in order; `scope` is that in front of the first. -/
def Item.findingsAll (scope : Scope) : List Item → List Finding
  | [] => []
  | item :: rest => item.findings scope ++ Item.findingsAll (item.after scope) rest

end

end

/-! ## Trees that show outlines -/

section

open Outline

variable {tree : Tree} {types : TypeTable} {first : Nat} {above : Option NodeId} {o : Outline}

section

variable (h : o.Stands tree.nodes types above first)

include h

theorem Outline.Stands.kind? : tree.kind? (o.place first) = some o.label.kind := by
  simp [Tree.kind?, Tree.node?, h.node.1, nodeAt]

theorem Outline.Stands.range : tree.range (o.place first) = o.label.span := by
  simp [Tree.range, Tree.node?, h.node.1, nodeAt]

theorem Outline.Stands.parent? : tree.parent? (o.place first) = above := by
  simp [Tree.parent?, Tree.node?, h.node.1, nodeAt]

theorem Outline.Stands.children : tree.children (o.place first) = places first o.children := by
  simp [Tree.children, Tree.node?, h.node.1, nodeAt]

theorem Outline.Stands.contains : tree.contains (o.place first) = true := by
  have hnode := h.node.1
  simp only [Tree.contains, decide_eq_true_eq]
  exact (Array.getElem?_eq_some_iff.mp hnode).1

theorem Outline.Stands.text :
    tree.text (o.place first) = textOn tree.source o.label.span := by
  simp only [Tree.text, h.range, textOn]

theorem Outline.Stands.binding? : types.binding? (o.place first) = o.label.binding := h.node.2.1

/-- What is at and below the node on top of `o`. -/
theorem Outline.Stands.descendants (htree : tree.Sound) :
    tree.descendants (o.place first) =
      o.place first :: (places first o.children).flatMap tree.descendants := by
  rw [htree.descendants_eq h.contains, h.children]

end

@[simp] theorem Outline.suppress_suppress (o : Outline) (keys keys' : List String) :
    (o.suppress keys).suppress keys' = o.suppress (keys ++ keys') := by
  obtain ⟨label, children⟩ := o
  simp [suppress]

@[simp] theorem Outline.suppress_nil (o : Outline) : o.suppress [] = o := by
  obtain ⟨label, children⟩ := o
  simp [suppress]

theorem stands_suppress_nil (h : o.Stands tree.nodes types above first) :
    (o.suppress []).Stands tree.nodes types above first := by
  rwa [suppress_nil]

/-! ### Nodes that are not looked at -/

variable {settings : DiscardedResult} (types)

/-- Nothing is said of a node `id` that does not hang from an expression statement. -/
theorem check_of_parent (htree : tree.Sound) {id : NodeId} (hid : tree.contains id = true)
    (hparent : (tree.parent? id).bind tree.kind? ≠ some .expressionStatement) :
    settings.check (.on tree types id) id = .noMatch := by
  refine (check_eq_noMatch_iff (.on tree types id) htree (Visit.parent?_on types htree hid)).mpr ?_
  rintro ⟨callee, statement, owner, hflagged⟩
  have hup : tree.parent? id = some statement := hflagged.hasParent
  rw [hup] at hparent
  exact hparent hflagged.isStatement

/-- Nothing is said of a node `id` that is no call. -/
theorem check_of_kind (htree : tree.Sound) {id : NodeId} (hid : tree.contains id = true)
    (hkind : tree.kind? id ≠ some .methodInvocation) :
    settings.check (.on tree types id) id = .noMatch := by
  refine (check_eq_noMatch_iff (.on tree types id) htree (Visit.parent?_on types htree hid)).mpr ?_
  rintro ⟨callee, statement, owner, hflagged⟩
  have hcall : tree.isCall id = true := hflagged.isCall
  exact hkind (by simpa [Tree.isCall] using hcall)

variable {types}

mutual

/-- No node of the outline is an `expressionStatement`. -/
def Outline.Quiet : Outline → Prop
  | .node label children => label.kind ≠ .expressionStatement ∧ Outline.QuietAll children

/-- No node of the outlines is an `expressionStatement`. -/
def Outline.QuietAll : List Outline → Prop
  | [] => True
  | o :: os => o.Quiet ∧ Outline.QuietAll os

end

mutual

theorem Expr.quiet (scope : Scope) : ∀ e : Expr, (e.outline scope).Quiet
  | .literal kind _ => by cases kind <;> simp [Expr.outline, Outline.value, Quiet, QuietAll]
  | .self _ | .name _ _ => by simp [Expr.outline, Outline.reference, Quiet, QuietAll]
  | .paren inner _ => by
    simp [Expr.outline, Outline.value, Quiet, QuietAll, inner.quiet scope]
  | .create _ arguments _ => by
    simp [Expr.outline, Outline.value, Quiet, Expr.quietAll scope arguments]
  | .callOwn _ _ arguments _ => by
    simp [Expr.outline, Outline.value, Outline.reference, Quiet, QuietAll,
      Expr.quietAll scope arguments]
  | .select receiver _ _ => by
    simp [Expr.outline, Outline.reference, Quiet, QuietAll, receiver.quiet scope]
  | .callOn receiver _ _ arguments _ => by
    simp [Expr.outline, Outline.value, Outline.reference, Quiet, QuietAll, receiver.quiet scope,
      Expr.quietAll scope arguments]
  | .assign target value => by
    simp [Expr.outline, Outline.value, Quiet, QuietAll, target.quiet scope, value.quiet scope]

theorem Expr.quietAll (scope : Scope) : ∀ es : List Expr, QuietAll (Expr.outlines scope es)
  | [] => trivial
  | e :: es => ⟨e.quiet scope, Expr.quietAll scope es⟩

end

mutual

/-- Nothing is said at the nodes of an outline `o` that is `Quiet`. -/
theorem check_of_quiet (settings : DiscardedResult) (htree : tree.Sound) {first : Nat}
    {above : Option NodeId} {o : Outline} (h : o.Stands tree.nodes types above first)
    (hquiet : o.Quiet)
    (habove : above.bind tree.kind? ≠ some .expressionStatement) :
    ∀ id ∈ tree.descendants (o.place first), settings.check (.on tree types id) id = .noMatch := by
  rw [h.descendants htree]
  refine List.forall_mem_cons.mpr ⟨check_of_parent types htree h.contains (by rwa [h.parent?]), ?_⟩
  have hkind := h.kind?
  obtain ⟨label, children⟩ := o
  intro id hid
  obtain ⟨child, hchild, hid⟩ := List.mem_flatMap.mp hid
  refine check_of_quietAll settings htree h.2.2 hquiet.2 ?_ child hchild id hid
  rw [Option.bind_some]
  intro heq
  exact hquiet.1 (Option.some.inj (hkind.symm.trans heq))

theorem check_of_quietAll (settings : DiscardedResult) (htree : tree.Sound) {first : Nat}
    {above : Option NodeId} {os : List Outline} (h : StandAll tree.nodes types above first os)
    (hquiet : QuietAll os)
    (habove : above.bind tree.kind? ≠ some .expressionStatement) :
    ∀ top ∈ places first os, ∀ id ∈ tree.descendants top,
      settings.check (.on tree types id) id = .noMatch := by
  cases os with
  | nil => simp [places]
  | cons o os =>
    exact List.forall_mem_cons.mpr ⟨check_of_quiet settings htree h.1 hquiet.1 habove,
      check_of_quietAll settings htree h.2 hquiet.2 habove⟩

end

/-! ### Chains -/

theorem Expr.isCall_iff (scope : Scope) (e : Expr) :
    e.isCall = true ↔ (e.outline scope).label.kind = .methodInvocation := by
  cases e with
  | literal kind span => cases kind <;> simp [Expr.isCall, Expr.outline, Outline.value, label]
  | _ => simp [Expr.isCall, Expr.outline, Outline.value, Outline.reference, label]

/-- The walk along a chain of calls ends where the chain starts: at `e.root?`. -/
theorem chain_of_stands {scope : Scope} : ∀ {e : Expr} {first : Nat} {above : Option NodeId},
    (e.outline scope).Stands tree.nodes types above first → e.isCall = true →
    ∃ callee, tree.callee? ((e.outline scope).place first) = some callee ∧
      types.binding? callee = e.callee? scope ∧
      match e.root? with
      | none => tree.Chain callee .own
      | some root => tree.Chain callee (.receiver ((root.outline scope).place first)) ∧
        ∃ above, (root.outline scope).Stands tree.nodes types above first
  | .callOwn method place arguments stop, first, above, h, _ => by
    have hcallee := h.2.2.1
    refine ⟨_, ?_, hcallee.binding?, .own hcallee.kind?⟩
    rw [Tree.callee?, h.children]
    rfl
  | .callOn receiver method nameStop arguments stop, first, above, h, _ => by
    have hcallee := h.2.2.1
    have hreceiver := hcallee.2.2.1
    have hnext : tree.receiver? ((Outline.reference .memberSelect
        ⟨receiver.span.start, nameStop⟩ method
        (Draft.methodBinding? scope (receiver.type? scope) method) [receiver.outline scope]).place
          first) = some ((receiver.outline scope).place first) := by
      rw [Tree.receiver?, hcallee.children]
      rfl
    have hcall : tree.isCall ((receiver.outline scope).place first) = receiver.isCall := by
      rw [Tree.isCall, hreceiver.kind?, Bool.eq_iff_iff, Expr.isCall_iff scope]
      simp
    refine ⟨_, ?_, hcallee.binding?, ?_⟩
    · rw [Tree.callee?, h.children]
      rfl
    · simp only [Expr.root?]
      -- The walk goes on from a receiver that is a call, and stops at any other.
      cases hreceives : receiver.isCall with
      | false =>
        simp only [Bool.false_eq_true, if_false]
        exact ⟨.receiver hcallee.kind? hnext (hcall.trans hreceives), _, hreceiver⟩
      | true =>
        obtain ⟨inner, hinner, -, hchain⟩ := chain_of_stands hreceiver hreceives
        simp only [if_true]
        cases hroot : receiver.root? with
        | none =>
          rw [hroot] at hchain
          exact .call hcallee.kind? hnext (hcall.trans hreceives) hinner hchain
        | some root =>
          rw [hroot] at hchain
          exact ⟨.call hcallee.kind? hnext (hcall.trans hreceives) hinner hchain.1, hchain.2⟩
  | .literal _ _, _, _, _, h | .self _, _, _, _, h | .name _ _, _, _, _, h
  | .paren _ _, _, _, _, h | .create _ _ _, _, _, _, h | .select _ _ _, _, _, _, h
  | .assign _ _, _, _, _, h => by simp [Expr.isCall] at h

/-- The expression `e` stands as a `PlainName` if it is one. -/
theorem plainName_iff {scope : Scope} : ∀ {e : Expr} {first : Nat} {above : Option NodeId},
    (e.outline scope).Stands tree.nodes types above first →
    (tree.PlainName ((e.outline scope).place first) ↔ e.isPlain = true)
  | .self _, _, _, h | .name _ _, _, _, h => iff_of_true (.name h.kind?) rfl
  | .select receiver member stop, first, above, h => by
    have hnext : tree.receiver? ((Expr.outline scope (.select receiver member stop)).place first) =
        some ((receiver.outline scope).place first) := by
      rw [Tree.receiver?, h.children]
      rfl
    rw [Expr.isPlain, ← plainName_iff h.2.2.1]
    refine ⟨fun hplain => ?_, fun hplain => .qualified h.kind? hnext hplain⟩
    cases hplain with
    | name hkind =>
      rw [h.kind?] at hkind
      cases hkind
    | qualified _ hreceiver hplain =>
      rwa [Option.some.inj (hnext.symm.trans hreceiver)]
  | .literal kind _, _, _, h => by
    refine iff_of_false (fun hplain => ?_) (by simp [Expr.isPlain])
    have hkind := hplain.kind?
    rw [h.kind?] at hkind
    cases kind <;> simp [Expr.outline, Outline.value, label] at hkind
  | .paren _ _, _, _, h | .create _ _ _, _, _, h | .callOwn _ _ _ _, _, _, h
  | .callOn _ _ _ _ _, _, _, h | .assign _ _, _, _, h => by
    refine iff_of_false (fun hplain => ?_) (by simp [Expr.isPlain])
    have hkind := hplain.kind?
    rw [h.kind?] at hkind
    simp [Expr.outline, Outline.value, label] at hkind

/-! ### Calls that are statements -/

theorem Expr.flag?_eq_some_iff {scope : Scope} {e : Expr} {owner : TypeId} :
    e.flag? settings scope = some owner ↔ (e.callee? scope).bind Binding.owner = some owner ∧
      (e.callee? scope).bind Binding.returns = some owner ∧
      ∃ name ∈ settings.types, scope.types.typeName? owner = some name := by
  have hname : (scope.types.typeName? owner).any settings.types.contains = true ↔
      ∃ name ∈ settings.types, scope.types.typeName? owner = some name := by
    cases scope.types.typeName? owner <;> simp [eq_comm]
  rw [← hname]
  unfold Expr.flag?
  cases e.callee? scope with
  | none => simp
  | some binding =>
    simp only [Option.bind_some, Option.filter_eq_some_iff, decide_eq_true_eq, and_assoc]

theorem isAssignable_congr {table table' : TypeTable} (h : table.types = table'.types)
    (source target : TypeId) :
    table.isAssignable source target = table'.isAssignable source target := by
  rw [Bool.eq_iff_iff, TypeTable.isAssignable_iff, TypeTable.isAssignable_iff]
  simp only [TypeTable.Above, TypeTable.supertypes_congr h]

/-- The expression `root` stands as a `Target` if it `holds` the result. -/
theorem target_iff_holds (settings : DiscardedResult) {scope : Scope}
    (htypes : types.types = scope.types.types) {root : Expr}
    {first : Nat} {above : Option NodeId} (returned : TypeId)
    (h : (root.outline scope).Stands tree.nodes types above first) :
    Target settings tree types returned ((root.outline scope).place first) ↔
      root.holds settings scope tree.source returned = true := by
  have habove : ∀ type, types.Above returned type ↔
      scope.types.isAssignable returned type = true := fun type => by
    rw [← isAssignable_congr htypes, TypeTable.isAssignable_iff]
  have hbound : (∃ binding, types.binding? ((root.outline scope).place first) = some binding ∧
      (binding.kind = .localVariable ∨ binding.kind = .field) ∧
      ∃ type, binding.type = some type ∧ types.Above returned type) ↔
      ((root.outline scope).label.binding.any fun binding =>
        (binding.kind = .localVariable || binding.kind = .field) &&
          binding.type.any (scope.types.isAssignable returned)) = true := by
    rw [h.binding?]
    simp only [Option.any_eq_true, Bool.and_eq_true, Bool.or_eq_true, decide_eq_true_eq, habove]
  rw [Expr.holds, Bool.and_eq_true, Bool.and_eq_true, ← hbound, bne_iff_ne, ← plainName_iff h,
    ← Expr.span_outline scope, ← h.text]
  exact ⟨fun ht => ⟨⟨ht.plain, ht.notSelf⟩, ht.bound⟩, fun ht => ⟨ht.1.1, ht.2, ht.1.2⟩⟩

/-- A call `value` that is a statement is `Flagged` as its expression is. -/
theorem flagged_iff_of_stands (settings : DiscardedResult) {scope : Scope}
    (htypes : types.types = scope.types.types) {value : Expr} {stop first : Nat}
    {keys : List String} {above : Option NodeId}
    (h : (((Item.evaluate value stop).outline scope).suppress keys).Stands tree.nodes types above
      first) (hcall : value.isCall = true) {callee : NodeId}
    (hcallee : tree.callee? ((value.outline scope).place first) = some callee)
    (hbinding : types.binding? callee = value.callee? scope) (owner : TypeId) :
    (∃ statement, Flagged settings tree types ((value.outline scope).place first) callee statement
        owner) ↔
      value.flag? settings scope = some owner := by
  have hvalue := h.2.2.1
  have hname : types.typeName? owner = scope.types.typeName? owner := by
    rw [TypeTable.typeName?, TypeTable.typeName?, htypes]
  rw [Expr.flag?_eq_some_iff, ← hbinding, ← hname]
  constructor
  · rintro ⟨statement, hflagged⟩
    exact ⟨hflagged.declaredBy, hflagged.returns, hflagged.configured⟩
  · rintro ⟨howner, hreturns, hconfigured⟩
    have hkind := (Expr.isCall_iff scope value).mp hcall
    exact ⟨_, by simp [Tree.isCall, hvalue.kind?, hkind], hvalue.parent?, h.kind?, hcallee, howner,
      hreturns, hconfigured⟩

/-- The verdict at the call `value` of an expression statement is its `finding?`. -/
theorem check_of_stands (settings : DiscardedResult) (htree : tree.Sound) {scope : Scope}
    (htypes : types.types = scope.types.types) {value : Expr} {stop first : Nat}
    {keys : List String} {above : Option NodeId}
    (h : (((Item.evaluate value stop).outline scope).suppress keys).Stands tree.nodes types above
      first) :
    settings.check (.on tree types ((value.outline scope).place first))
        ((value.outline scope).place first) =
      match value.finding? settings scope tree.source stop with
      | some finding => .finding (finding.description ((value.outline scope).place first))
      | none => .noMatch := by
  have hvalue := h.2.2.1
  have hparent' := Visit.parent?_on types htree hvalue.contains
  by_cases hcall : value.isCall = true
  -- Whether the call is flagged is asked of the expression. If it is, the chain of the tree ends
  -- where that of the expression does, and never in a fault.
  · obtain ⟨callee, hcallee, hbinding, hchain⟩ := chain_of_stands hvalue hcall
    have hflagged := flagged_iff_of_stands settings htypes h hcall hcallee hbinding
    rw [Expr.finding?]
    cases hflag : value.flag? settings scope with
    | none =>
      refine (check_eq_noMatch_iff _ htree hparent').mpr ?_
      rintro ⟨callee', statement, owner, hf⟩
      obtain rfl := Option.some.inj (hcallee.symm.trans hf.hasCallee)
      rw [(hflagged owner).mp ⟨statement, hf⟩] at hflag
      cases hflag
    | some owner =>
      obtain ⟨statement, hf⟩ := (hflagged owner).mpr hflag
      obtain rfl := Option.some.inj (hvalue.parent?.symm.trans hf.hasParent)
      obtain ⟨end', hend', hend⟩ := check_eq_of_flagged (.on tree types _) htree hparent' hf
      have hrange : tree.range ⟨first + sizeAll [value.outline scope]⟩ =
          ⟨value.span.start, stop⟩ := h.range
      cases hroot : value.root? with
      | none =>
        rw [hroot] at hchain
        obtain rfl := hend'.unique hchain
        rcases hend with ⟨_, _, hfault, -⟩ | ⟨_, hreceiver, -, -⟩ | ⟨-, -, he⟩
        · cases hfault
        · cases hreceiver
        · rw [he]
          simp [deletion, Finding.description, hrange, Visit.on]
      | some root =>
        rw [hroot] at hchain
        obtain ⟨hchain, up, hstands⟩ := hchain
        obtain rfl := hend'.unique hchain
        have htarget := target_iff_holds settings htypes owner hstands
        rcases hend with ⟨_, _, hfault, -⟩ | ⟨root', hreceiver, ht, he⟩ | ⟨-, hno, he⟩
        · cases hfault
        · cases hreceiver
          rw [he]
          simp [assignment, Finding.description, Option.filter, htarget.mp ht, hstands.text,
            Expr.span_outline, hvalue.range, Visit.on]
        · have hnot : ¬ root.holds settings scope tree.source owner = true := fun hholds =>
            hno _ rfl (htarget.mpr hholds)
          rw [he]
          simp [deletion, Finding.description, Option.filter, hnot, hrange, Visit.on]
  · have hflag : value.flag? settings scope = none := by
      cases value <;> simp_all [Expr.flag?, Expr.callee?, Expr.isCall]
    rw [Expr.finding?, hflag]
    refine check_of_kind types htree hvalue.contains ?_
    rw [hvalue.kind?]
    simpa [Expr.isCall_iff scope] using hcall

/-! ## The report of a scan -/

/-- The finding `f` is what the diagnostic `d` is about. -/
def Finding.Reported (settings : DiscardedResult) (tree : Tree) (d : Diagnostic) (f : Finding) :
    Prop :=
  ∃ anchor, tree.contains anchor = true ∧ tree.range anchor = f.call ∧
    d = (f.description anchor).diagnostic settings.rule tree

/-- The `answers` are without a failure, and their diagnostics are about the `findings` in order. -/
def Yields (settings : DiscardedResult) (tree : Tree) (answers : List Evaluation)
    (findings : List Finding) : Prop :=
  answers.filterMap Evaluation.failure? = [] ∧
    List.Forall₂ (Finding.Reported settings tree) (answers.filterMap Evaluation.diagnostic?)
      findings

theorem Yields.append {answers answers' : List Evaluation} {findings findings' : List Finding}
    (h : Yields settings tree answers findings) (h' : Yields settings tree answers' findings') :
    Yields settings tree (answers ++ answers') (findings ++ findings') := by
  refine ⟨by rw [List.filterMap_append, h.1, h'.1, List.append_nil], ?_⟩
  rw [List.filterMap_append]
  exact List.rel_append h.2 h'.2

theorem yields_nil : Yields settings tree [] [] := ⟨rfl, .nil⟩

theorem Yields.nothing_cons {answers : List Evaluation} {findings : List Finding}
    (h : Yields settings tree answers findings) :
    Yields settings tree (.nothing :: answers) findings := h

/-- The answers of the rule at the node `id` and below it. -/
def answersAt (settings : DiscardedResult) (tree : Tree) (types : TypeTable) (id : NodeId) :
    List Evaluation :=
  (tree.descendants id).map fun node => answer tree types (node, settings.rule)

theorem answer_of_check {id : NodeId}
    (h : settings.check (.on tree types id) id = .noMatch) :
    answer tree types (id, settings.rule) = .nothing := nothing_iff.mpr h

theorem yields_of_noMatch {ids : List NodeId}
    (h : ∀ id ∈ ids, settings.check (.on tree types id) id = .noMatch) :
    Yields settings tree (ids.map fun node => answer tree types (node, settings.rule)) [] := by
  induction ids with
  | nil => exact yields_nil
  | cons id ids ih =>
    obtain ⟨hid, hids⟩ := List.forall_mem_cons.mp h
    rw [List.map_cons, answer_of_check hid]
    exact (ih hids).nothing_cons

/-- The answers at the node on top of `o` are its own and those at the nodes below. -/
theorem answersAt_place (htree : tree.Sound) (h : o.Stands tree.nodes types above first) :
    answersAt settings tree types (o.place first) =
      answer tree types (o.place first, settings.rule) ::
        (places first o.children).flatMap (answersAt settings tree types) := by
  rw [answersAt, h.descendants htree, List.map_cons, List.map_flatMap]
  rfl

/-- The answers in an expression `e` that hangs from no expression statement. -/
theorem yields_of_expr (settings : DiscardedResult) (htree : tree.Sound) {scope : Scope} {e : Expr}
    (h : (e.outline scope).Stands tree.nodes types above first)
    (habove : above.bind tree.kind? ≠ some .expressionStatement) :
    Yields settings tree (answersAt settings tree types ((e.outline scope).place first)) [] :=
  yields_of_noMatch (check_of_quiet settings htree h (e.quiet scope) habove)

/-- The answers at a node that is no call are those below it: their `findings` are its own. -/
theorem yields_of_children (htree : tree.Sound) {findings : List Finding}
    (h : o.Stands tree.nodes types above first) (hkind : o.label.kind ≠ .methodInvocation)
    (hchildren : Yields settings tree
      ((places first o.children).flatMap (answersAt settings tree types)) findings) :
    Yields settings tree (answersAt settings tree types (o.place first)) findings := by
  rw [answersAt_place htree h,
    answer_of_check (check_of_kind types htree h.contains (by simpa [h.kind?] using hkind))]
  exact hchildren.nothing_cons

/-- The answers at the expression statement of `value` and below it. -/
theorem yields_of_evaluate (htree : tree.Sound) {scope : Scope}
    (htypes : types.types = scope.types.types) {value : Expr} {stop : Nat} {keys : List String}
    (h : (((Item.evaluate value stop).outline scope).suppress keys).Stands tree.nodes types above
      first) :
    Yields settings tree
      (answersAt settings tree types
        ((((Item.evaluate value stop).outline scope).suppress keys).place first))
      ((Item.evaluate value stop).findings settings tree.source scope) := by
  have hvalue := h.2.2.1
  have hcheck := check_of_stands settings htree htypes h
  -- Nothing is said below the call.
  have hbelow : Yields settings tree ((places first (value.outline scope).children).flatMap
      (answersAt settings tree types)) [] := by
    have hquiet := value.quiet scope
    have hkind := hvalue.kind?
    have hstands := hvalue.node.2.2
    generalize value.outline scope = o at hquiet hkind hstands
    obtain ⟨label, children⟩ := o
    have hnoMatch := check_of_quietAll settings htree hstands hquiet.2 (by
      rw [Option.bind_some, hkind]
      exact fun heq => hquiet.1 (Option.some.inj heq))
    have hall : ∀ id ∈ (places first children).flatMap tree.descendants,
        settings.check (.on tree types id) id = .noMatch := fun id hid => by
      obtain ⟨top, htop, hid⟩ := List.mem_flatMap.mp hid
      exact hnoMatch top htop id hid
    have hyields := yields_of_noMatch hall
    rwa [List.map_flatMap] at hyields
  refine yields_of_children htree h (by simp [Item.outline, suppress, label]) ?_
  have hplaces : places first (((Item.evaluate value stop).outline scope).suppress keys).children =
      [(value.outline scope).place first] := rfl
  rw [hplaces, List.flatMap_cons, List.flatMap_nil, List.append_nil, answersAt_place htree hvalue,
    Item.findings]
  cases hfinding : value.finding? settings scope tree.source stop with
  | none =>
    rw [hfinding] at hcheck
    rw [answer_of_check hcheck]
    exact hbelow.nothing_cons
  | some f =>
    rw [hfinding] at hcheck
    have hfound : answer tree types ((value.outline scope).place first, settings.rule) =
        .found ((f.description ((value.outline scope).place first)).diagnostic settings.rule
          tree) := by
      refine found_iff.mpr ⟨_, hcheck, ?_, ?_, rfl⟩
      · rw [f.anchor_description]
        exact hvalue.contains
      · unfold Finding.description
        cases f.target <;> exact List.pairwise_singleton _ _
    have hcall : f.call = value.span := by
      obtain ⟨owner, -, rfl⟩ := Option.map_eq_some_iff.mp hfinding
      rfl
    rw [hfound]
    refine ⟨hbelow.1, .cons ⟨_, hvalue.contains, ?_, rfl⟩ hbelow.2⟩
    rw [hvalue.range, Expr.span_outline, hcall]

/-- The children of any other statement `o` do not hang from an expression statement. -/
theorem above_of_stands (h : o.Stands tree.nodes types above first)
    (hkind : o.label.kind ≠ .expressionStatement) :
    (some (o.place first)).bind tree.kind? ≠ some .expressionStatement := by
  rw [Option.bind_some, h.kind?]
  simpa using hkind

theorem types_after (scope : Scope) (item : Item) : (item.after scope).types = scope.types := by
  rw [item.after_eq_withLocals]
  rfl

mutual

/-- The answers at an `item` and below it are about its `findings`. -/
theorem yields_of_item (htree : tree.Sound) {scope : Scope}
    (htypes : types.types = scope.types.types) {first : Nat} {above : Option NodeId}
    {keys : List String} : ∀ {item : Item},
    ((item.outline scope).suppress keys).Stands tree.nodes types above first →
    Yields settings tree
      (answersAt settings tree types (((item.outline scope).suppress keys).place first))
      (item.findings settings tree.source scope)
  | .block items span, h =>
    yields_of_children htree h (by simp [Item.outline, suppress, label])
      (yields_of_items htree htypes h.2.2)
  | .suppressed keys' item, h => by
    simp only [Item.outline, suppress_suppress] at h ⊢
    exact yields_of_item htree htypes h
  | .ret value span, h => by
    refine yields_of_children htree h (by simp [Item.outline, suppress, label]) ?_
    have habove := above_of_stands h (by simp [Item.outline, suppress, label])
    cases value with
    | none => exact yields_nil
    | some e => exact (yields_of_expr settings htree h.2.2.1 habove).append yields_nil
  | .branch start condition yes none, h => by
    have habove := above_of_stands h (by simp [Item.outline, suppress, label])
    have hyields := yields_of_item htree htypes (stands_suppress_nil h.2.2.2.1)
    rw [suppress_nil] at hyields
    refine yields_of_children htree h (by simp [Item.outline, suppress, label]) ?_
    have := (yields_of_expr settings htree h.2.2.1 habove).append
      (hyields.append yields_nil)
    simpa [Item.findings, Item.outline, suppress, Outline.children, places] using this
  | .branch start condition yes (some no), h => by
    have habove := above_of_stands h (by simp [Item.outline, suppress, label])
    have hyields := yields_of_item htree htypes (stands_suppress_nil h.2.2.2.1)
    -- The second branch is in the scope behind the first, which has the same types.
    have hyields' := yields_of_item htree
      (htypes.trans (by rw [types_after])) (stands_suppress_nil h.2.2.2.2.1)
    rw [suppress_nil] at hyields hyields'
    refine yields_of_children htree h (by simp [Item.outline, suppress, label]) ?_
    have := (yields_of_expr settings htree h.2.2.1 habove).append
      (hyields.append (hyields'.append yields_nil))
    simpa [Item.findings, Item.outline, suppress, Outline.children, places] using this
  | .declare type name value span, h => by
    refine yields_of_children htree h (by simp [Item.outline, Outline.reference, suppress, label]) ?_
    have habove := above_of_stands h (by simp [Item.outline, Outline.reference, suppress, label])
    cases value with
    | none => exact yields_nil
    | some e => exact (yields_of_expr settings htree h.2.2.1 habove).append yields_nil
  | .evaluate value stop, h => yields_of_evaluate htree htypes h

theorem yields_of_items (htree : tree.Sound) {scope : Scope}
    (htypes : types.types = scope.types.types) {first : Nat} {above : Option NodeId} :
    ∀ {items : List Item}, StandAll tree.nodes types above first (Item.outlines scope items) →
    Yields settings tree
      ((places first (Item.outlines scope items)).flatMap (answersAt settings tree types))
      (Item.findingsAll settings tree.source scope items)
  | [], h => yields_nil
  | item :: rest, h => by
    have hyields := yields_of_item htree htypes (stands_suppress_nil h.1)
    rw [suppress_nil] at hyields
    exact hyields.append (yields_of_items htree (htypes.trans (by rw [types_after])) h.2)

end

/-- The report of a scan of a snippet has no failures, and its diagnostics are about the findings of
its `items`. -/
theorem scan_of_shows (settings : DiscardedResult) {scope : Scope} {items : List Item}
    (h : Shows tree types (unitOutline scope tree.source items))
    (htypes : types.types = scope.types.types) :
    (scan tree types (.ofList [settings.rule])).failures = [] ∧
      List.Forall₂ (Finding.Reported settings tree)
        (scan tree types (.ofList [settings.rule])).diagnostics
        (Item.findingsAll settings tree.source scope items) := by
  have hyields : Yields settings tree (answersAt settings tree types tree.root)
      (Item.findingsAll settings tree.source scope items) := by
    rw [h.root]
    exact yields_of_children h.sound h.stands (by simp [unitOutline, label])
      (yields_of_items h.sound htypes h.stands.2.2)
  have hquestions : questions tree (.ofList [settings.rule]) =
      (tree.descendants tree.root).map fun node => (node, settings.rule) := by
    rw [questions, Registry.ofList_eq_of_nodup (by simp)]
    exact List.flatMap_pure_eq_map _ _
  simp only [Yields, answersAt, List.filterMap_map] at hyields
  rw [scan_eq_filterMap types h.sound, hquestions, List.filterMap_map, List.filterMap_map]
  exact hyields

end

end Snippet

end TreeLint
