import TreeLint.Snippet.Elaborate

/-!
# Outlines of snippets

Elaboration threads a draft through a snippet and hands out places in an array. What it adds does not
depend on the places: it is the outline of the snippet, a tree of labels, planted part by part.

- `Outline`: the nodes of a construct, each with what is known about it.
- `Expr.outline`, `Item.outline`: the outline of a construct in a scope, and `Item.after` the scope
  behind an item.
- `Draft.plant`: adds the nodes of an outline, each behind its children.
- `addExpr_eq`, `addItem_eq`, `elaborate_eq`: elaboration plants outlines.
-/

namespace TreeLint

namespace TypeTable

variable {α : Type} {table table' : TypeTable}

theorem supertypes_congr (h : table.types = table'.types) (type : TypeId) :
    table.supertypes type = table'.supertypes type := by
  rw [supertypes, supertypes, h]

/-- A search looks at the types of a `table`, not at its bindings. -/
theorem searchFrom?_congr (h : table.types = table'.types) (answer : TypeId → Option α)
    (seen pending : List TypeId) :
    table.searchFrom? answer seen pending = table'.searchFrom? answer seen pending := by
  have hsuper := supertypes_congr h
  fun_induction searchFrom? table answer seen pending with
  | case1 => simp [searchFrom?]
  | case2 seen type pending hseen ih => simp [searchFrom?, hseen, ih]
  | case3 seen type pending hnew found hanswer => simp [searchFrom?, hnew, hanswer]
  | case4 seen type pending hnew hanswer ih => simp [searchFrom?, hnew, hanswer, ← hsuper, ih]

theorem search?_congr (h : table.types = table'.types) (answer : TypeId → Option α)
    (type : TypeId) : table.search? answer type = table'.search? answer type :=
  searchFrom?_congr h answer [] [type]

end TypeTable

namespace Snippet

/-! ## Scopes without bindings -/

namespace Scope

/-- The `scope` with nothing bound. -/
def bare (scope : Scope) : Scope := { scope with types := { scope.types with bindings := [] } }

/-- The `scope` with other local variables, `locals`. -/
def withLocals (scope : Scope) (locals : Assoc String TypeId) : Scope := { scope with locals }

variable (scope : Scope)

@[simp] theorem bare_bare : scope.bare.bare = scope.bare := rfl

@[simp] theorem bare_withLocals (locals : Assoc String TypeId) :
    (scope.withLocals locals).bare = scope.bare.withLocals locals := rfl

@[simp] theorem selfType_bare : scope.bare.selfType = scope.selfType := rfl

@[simp] theorem locals_bare : scope.bare.locals = scope.locals := rfl

@[simp] theorem resolveType?_bare (name : String) :
    scope.bare.resolveType? name = scope.resolveType? name := rfl

@[simp] theorem nameBinding?_bare (name : String) :
    Draft.nameBinding? scope.bare name = Draft.nameBinding? scope name := rfl

@[simp] theorem memberBinding?_bare (receiver : Option TypeId) (name : String) :
    Draft.memberBinding? scope.bare receiver name = Draft.memberBinding? scope receiver name := rfl

@[simp] theorem literalType?_bare (kind : LiteralKind) :
    Draft.literalType? scope.bare kind = Draft.literalType? scope kind := by
  cases kind <;> rfl

@[simp] theorem methodBinding?_bare (receiver : Option TypeId) (name : String) :
    Draft.methodBinding? scope.bare receiver name = Draft.methodBinding? scope receiver name := by
  have htypes : scope.bare.types.types = scope.types.types := rfl
  have h : ∀ owner, scope.bare.method? owner name = scope.method? owner name :=
    fun owner => TypeTable.search?_congr htypes _ owner
  simp only [Draft.methodBinding?, h]

end Scope

/-! ## Outlines -/

/-- What is known about a node: `kind` and `span`, and what its kind adds. -/
structure Label where
  kind : Kind
  span : Span
  name : Option String := none
  keys : List String := []
  binding : Option Binding := none
  deriving DecidableEq, Repr

/-- The nodes of a construct: a `node` on top, and its `children`. -/
inductive Outline where
  | node (label : Label) (children : List Outline)
  deriving Repr

namespace Outline

def label : Outline → Label
  | node label _ => label

def children : Outline → List Outline
  | node _ children => children

/-- The outline of a value of some `type`. -/
def value (kind : Kind) (span : Span) (type : Option TypeId) (children : List Outline) : Outline :=
  .node { kind, span, binding := some { kind := .value, type } } children

/-- The outline of a reference by `name`. -/
def reference (kind : Kind) (span : Span) (name : String) (binding : Option Binding)
    (children : List Outline) : Outline :=
  .node { kind, span, name := some name, binding } children

/-- The outline with more `keys` that suppress rules. -/
def suppress (keys : List String) : Outline → Outline
  | node label children => .node { label with keys := label.keys ++ keys } children

end Outline

/-- The type of the value of an expression in `scope`, if that is known. -/
def Expr.type? (scope : Scope) : Expr → Option TypeId
  | .literal kind _ => Draft.literalType? scope kind
  | .self _ => some scope.selfType
  | .name word _ => (Draft.nameBinding? scope word).bind Binding.type
  | .paren inner _ => inner.type? scope
  | .create type _ _ => scope.resolveType? type
  | .callOwn method _ _ _ =>
    (Draft.methodBinding? scope (some scope.selfType) method).bind Binding.returns
  | .select receiver member _ =>
    (Draft.memberBinding? scope (receiver.type? scope) member).bind Binding.type
  | .callOn receiver method _ _ _ =>
    (Draft.methodBinding? scope (receiver.type? scope) method).bind Binding.returns
  | .assign target _ => target.type? scope

mutual

/-- The outline of an expression in `scope`. -/
def Expr.outline (scope : Scope) : Expr → Outline
  | .literal .null span => .node { kind := .literal, span } []
  | .literal kind span => .value .literal span (Draft.literalType? scope kind) []
  | .self span => .reference .identifier span "this"
      (some { kind := .localVariable, type := some scope.selfType }) []
  | .name word span => .reference .identifier span word (Draft.nameBinding? scope word) []
  | .paren inner span => .value .parenthesized span (inner.type? scope) [inner.outline scope]
  | .create type arguments span =>
    .value .newObject span (scope.resolveType? type) (Expr.outlines scope arguments)
  | .callOwn method place arguments stop =>
    let binding := Draft.methodBinding? scope (some scope.selfType) method
    .value .methodInvocation ⟨place.start, stop⟩ (binding.bind Binding.returns)
      (.reference .identifier place method binding [] :: Expr.outlines scope arguments)
  | .select receiver member stop =>
    .reference .memberSelect ⟨receiver.span.start, stop⟩ member
      (Draft.memberBinding? scope (receiver.type? scope) member) [receiver.outline scope]
  | .callOn receiver method nameStop arguments stop =>
    let binding := Draft.methodBinding? scope (receiver.type? scope) method
    .value .methodInvocation ⟨receiver.span.start, stop⟩ (binding.bind Binding.returns)
      (.reference .memberSelect ⟨receiver.span.start, nameStop⟩ method binding
        [receiver.outline scope] :: Expr.outlines scope arguments)
  | .assign target value =>
    .value .assignment ⟨target.span.start, value.span.stop⟩ (target.type? scope)
      [target.outline scope, value.outline scope]

/-- The outlines of the arguments of a call in `scope`. -/
def Expr.outlines (scope : Scope) : List Expr → List Outline
  | [] => []
  | argument :: rest => argument.outline scope :: Expr.outlines scope rest

end

mutual

/-- The scope behind an item: `scope` is that in front of it. -/
def Item.after (scope : Scope) : Item → Scope
  | .block items _ => Item.afterAll scope items
  | .suppressed _ item => item.after scope
  | .branch _ _ yes none => yes.after scope
  | .branch _ _ yes (some no) => no.after (yes.after scope)
  | .declare type name _ _ =>
    match scope.resolveType? type with
    | some type => scope.withLocals (scope.locals.insert name type)
    | none => scope
  | .ret _ _ => scope
  | .evaluate _ _ => scope

/-- The scope behind items: `scope` is that in front of the first. -/
def Item.afterAll (scope : Scope) : List Item → Scope
  | [] => scope
  | item :: rest => Item.afterAll (item.after scope) rest

end

mutual

/-- The outline of an item; `scope` is that in front of it. -/
def Item.outline (scope : Scope) : Item → Outline
  | .block items span => .node { kind := .block, span } (Item.outlines scope items)
  | .suppressed keys item => (item.outline scope).suppress keys
  | .ret value span =>
    .node { kind := .returnStatement, span } (value.toList.map (Expr.outline scope))
  | .branch start condition yes none =>
    .node { kind := .ifStatement, span := ⟨start, yes.span.stop⟩ }
      [condition.outline scope, yes.outline scope]
  | .branch start condition yes (some no) =>
    .node { kind := .ifStatement, span := ⟨start, no.span.stop⟩ }
      [condition.outline scope, yes.outline scope, no.outline (yes.after scope)]
  | .declare type name value span =>
    .reference .variableDecl span name
      (some { kind := .localVariable, type := scope.resolveType? type })
      (value.toList.map (Expr.outline scope))
  | .evaluate value stop =>
    .node { kind := .expressionStatement, span := ⟨value.span.start, stop⟩ } [value.outline scope]

/-- The outlines of items, each in the scope behind those in front of it; `scope` is that of the
first. -/
def Item.outlines (scope : Scope) : List Item → List Outline
  | [] => []
  | item :: rest => item.outline scope :: Item.outlines (item.after scope) rest

end

/-! ### Outlines do not look at bindings -/

@[simp] theorem Expr.type?_bare (scope : Scope) (e : Expr) : e.type? scope.bare = e.type? scope := by
  induction e using Expr.type?.induct with
  | _ => simp_all [Expr.type?]

mutual

@[simp] theorem Expr.outline_bare (scope : Scope) : ∀ e : Expr,
    e.outline scope.bare = e.outline scope
  | .literal kind span => by cases kind <;> simp [Expr.outline]
  | .self _ | .name _ _ => by simp [Expr.outline]
  | .paren inner _ => by simp [Expr.outline, inner.outline_bare scope]
  | .create _ arguments _ => by simp [Expr.outline, Expr.outlines_bare scope arguments]
  | .callOwn _ _ arguments _ => by simp [Expr.outline, Expr.outlines_bare scope arguments]
  | .select receiver _ _ => by simp [Expr.outline, receiver.outline_bare scope]
  | .callOn receiver _ _ arguments _ => by
    simp [Expr.outline, receiver.outline_bare scope, Expr.outlines_bare scope arguments]
  | .assign target value => by
    simp [Expr.outline, target.outline_bare scope, value.outline_bare scope]

@[simp] theorem Expr.outlines_bare (scope : Scope) : ∀ es : List Expr,
    Expr.outlines scope.bare es = Expr.outlines scope es
  | [] => rfl
  | e :: es => by simp [Expr.outlines, e.outline_bare scope, Expr.outlines_bare scope es]

end

mutual

/-- An `item` changes the local variables and nothing else of a `scope`. -/
theorem Item.after_eq_withLocals (scope : Scope) : ∀ item : Item,
    item.after scope = scope.withLocals (item.after scope).locals
  | .block items _ => by
    simp only [Item.after]
    exact Item.afterAll_eq_withLocals scope items
  | .suppressed _ item => by
    simp only [Item.after]
    exact item.after_eq_withLocals scope
  | .branch _ _ yes none => by
    simp only [Item.after]
    exact yes.after_eq_withLocals scope
  | .branch _ _ yes (some no) => by
    simp only [Item.after]
    rw [no.after_eq_withLocals (yes.after scope), yes.after_eq_withLocals scope]
    rfl
  | .declare type _ _ _ => by
    simp only [Item.after]
    cases scope.resolveType? type <;> rfl
  | .ret _ _ | .evaluate _ _ => rfl

theorem Item.afterAll_eq_withLocals (scope : Scope) : ∀ items : List Item,
    Item.afterAll scope items = scope.withLocals (Item.afterAll scope items).locals
  | [] => rfl
  | item :: rest => by
    simp only [Item.afterAll]
    rw [Item.afterAll_eq_withLocals (item.after scope) rest, item.after_eq_withLocals scope]
    rfl

end

mutual

@[simp] theorem Item.after_bare (scope : Scope) : ∀ item : Item,
    item.after scope.bare = (item.after scope).bare
  | .block items _ => by simp [Item.after, Item.afterAll_bare scope items]
  | .suppressed _ item => by simp [Item.after, item.after_bare scope]
  | .branch _ _ yes none => by simp [Item.after, yes.after_bare scope]
  | .branch _ _ yes (some no) => by
    simp [Item.after, yes.after_bare scope, no.after_bare (yes.after scope)]
  | .declare type _ _ _ => by
    simp only [Item.after, Scope.resolveType?_bare]
    cases scope.resolveType? type <;> simp
  | .ret _ _ | .evaluate _ _ => rfl

@[simp] theorem Item.afterAll_bare (scope : Scope) : ∀ items : List Item,
    Item.afterAll scope.bare items = (Item.afterAll scope items).bare
  | [] => rfl
  | item :: rest => by
    simp [Item.afterAll, item.after_bare scope, Item.afterAll_bare (item.after scope) rest]

end

mutual

@[simp] theorem Item.outline_bare (scope : Scope) : ∀ item : Item,
    item.outline scope.bare = item.outline scope
  | .block items _ => by simp [Item.outline, Item.outlines_bare scope items]
  | .suppressed _ item => by simp [Item.outline, item.outline_bare scope]
  | .branch _ _ yes none => by simp [Item.outline, yes.outline_bare scope]
  | .branch _ _ yes (some no) => by
    simp [Item.outline, yes.outline_bare scope, no.outline_bare (yes.after scope)]
  | .ret value _ | .declare _ _ value _ => by cases value <;> simp [Item.outline]
  | .evaluate _ _ => by simp [Item.outline]

@[simp] theorem Item.outlines_bare (scope : Scope) : ∀ items : List Item,
    Item.outlines scope.bare items = Item.outlines scope items
  | [] => rfl
  | item :: rest => by
    simp [Item.outlines, item.outline_bare scope, Item.outlines_bare (item.after scope) rest]

end

section

variable {scope scope' : Scope}

theorem Expr.outline_congr (h : scope.bare = scope'.bare) (e : Expr) :
    e.outline scope = e.outline scope' := by
  rw [← Expr.outline_bare, h, Expr.outline_bare]

theorem Expr.outlines_congr (h : scope.bare = scope'.bare) (es : List Expr) :
    Expr.outlines scope es = Expr.outlines scope' es := by
  rw [← Expr.outlines_bare, h, Expr.outlines_bare]

theorem Item.outline_congr (h : scope.bare = scope'.bare) (item : Item) :
    item.outline scope = item.outline scope' := by
  rw [← Item.outline_bare, h, Item.outline_bare]

theorem Item.outlines_congr (h : scope.bare = scope'.bare) (items : List Item) :
    Item.outlines scope items = Item.outlines scope' items := by
  rw [← Item.outlines_bare, h, Item.outlines_bare]

/-- The local variables behind an `item` do not depend on bindings. -/
theorem Item.locals_after_congr (h : scope.bare = scope'.bare) (item : Item) :
    (item.after scope).locals = (item.after scope').locals := by
  rw [← Scope.locals_bare, ← Item.after_bare, h, Item.after_bare, Scope.locals_bare]

theorem Item.locals_afterAll_congr (h : scope.bare = scope'.bare) (items : List Item) :
    (Item.afterAll scope items).locals = (Item.afterAll scope' items).locals := by
  rw [← Scope.locals_bare, ← Item.afterAll_bare, h, Item.afterAll_bare, Scope.locals_bare]

end

/-! ## Planting -/

namespace Draft

/-- Adds a node with what its label says, above `children`. -/
def top (d : Draft) (label : Label) (children : List NodeId) : NodeId × Draft :=
  let (id, d) := d.node label.kind label.span label.name children
  let d := match label.binding with
    | some binding => d.bind id binding
    | none => d
  (id, d.suppress id label.keys)

mutual

/-- Adds the nodes of an outline to the draft `d`, a node behind its `children`. -/
def plant (d : Draft) : Outline → NodeId × Draft
  | .node label children =>
    let (ids, d) := d.plantAll children
    d.top label ids

/-- Adds the nodes of outlines to the draft `d`, one behind the other. -/
def plantAll (d : Draft) : List Outline → List NodeId × Draft
  | [] => ([], d)
  | outline :: rest =>
    let (id, d) := d.plant outline
    let (ids, d) := d.plantAll rest
    (id :: ids, d)

end

/-- The draft `d` with other local variables, `locals`. -/
def withLocals (d : Draft) (locals : Assoc String TypeId) : Draft :=
  { d with scope := d.scope.withLocals locals }

@[simp] theorem suppress_nil (d : Draft) (id : NodeId) : d.suppress id [] = d := rfl

/-- A node is planted the way `valueNode` adds a value. -/
theorem plant_value (d : Draft) (kind : Kind) (span : Span) (type : Option TypeId)
    (children : List Outline) :
    d.plant (.value kind span type children) =
      let (ids, d) := d.plantAll children
      ((d.valueNode kind span ids type).1.1, (d.valueNode kind span ids type).2) := by
  simp [Outline.value, plant, top, valueNode]

/-- A node is planted the way `Draft.reference` adds a reference. -/
theorem plant_reference (d : Draft) (kind : Kind) (span : Span) (name : String)
    (binding : Option Binding) (children : List Outline) :
    d.plant (.reference kind span name binding children) =
      let (ids, d) := d.plantAll children
      d.reference kind span name ids binding := by
  cases binding <;> simp [Outline.reference, plant, top, reference]

mutual

/-- Planting `o` changes bindings and nothing else of the scope. -/
theorem bare_plant (d : Draft) : ∀ o : Outline, (d.plant o).2.scope.bare = d.scope.bare
  | .node label children => by
    have h := bare_plantAll d children
    simp only [plant, top]
    cases label.binding <;> exact h

theorem bare_plantAll (d : Draft) : ∀ os : List Outline, (d.plantAll os).2.scope.bare = d.scope.bare
  | [] => rfl
  | o :: os => by
    simp only [plantAll]
    rw [bare_plantAll (d.plant o).2 os, bare_plant d o]

end

/-- Planting a reference to `name` changes bindings and nothing else of the scope. -/
theorem bare_reference (d : Draft) (kind : Kind) (span : Span) (name : String) (ids : List NodeId)
    (binding : Option Binding) :
    (d.reference kind span name ids binding).2.scope.bare = d.scope.bare := by
  cases binding <;> rfl

mutual

/-- Elaborating an expression `e` plants its outline. -/
theorem addExpr_eq (d : Draft) : ∀ e : Expr,
    d.addExpr e = (((d.plant (e.outline d.scope)).1, e.type? d.scope),
      (d.plant (e.outline d.scope)).2)
  | .literal kind span => by
    cases kind <;>
      simp [addExpr, Expr.outline, Expr.type?, plant_value, plantAll, valueNode, literalType?,
        plant, top]
  | .self span => by simp [addExpr, Expr.outline, Expr.type?, plant_reference, plantAll]
  | .name word span => by
    simp [addExpr, Expr.outline, Expr.type?, plant_reference, plantAll]
  | .paren inner span => by
    simp [addExpr, addExpr_eq d inner, Expr.outline, Expr.type?, plant_value, plantAll, valueNode]
  | .create type arguments span => by
    simp [addExpr, addArguments_eq d arguments, Expr.outline, Expr.type?, plant_value, valueNode]
  | .callOwn method place arguments stop => by
    have hscope := bare_reference d .identifier place method []
      (methodBinding? d.scope (some d.scope.selfType) method)
    simp only [addExpr, Expr.outline, Expr.type?, plant_value, plant_reference, plantAll, valueNode]
    rw [addArguments_eq, ← Expr.outlines_bare, hscope, Expr.outlines_bare]
  | .select receiver member stop => by
    have hscope := bare_plant d (receiver.outline d.scope)
    simp only [addExpr, addExpr_eq d receiver, Expr.outline, Expr.type?, plant_reference, plantAll]
    rw [← Scope.memberBinding?_bare (d.plant (receiver.outline d.scope)).2.scope, hscope,
      Scope.memberBinding?_bare]
  | .callOn receiver method nameStop arguments stop => by
    have hscope := bare_plant d (receiver.outline d.scope)
    have hscope' := bare_reference (d.plant (receiver.outline d.scope)).2 .memberSelect
      ⟨receiver.span.start, nameStop⟩ method [(d.plant (receiver.outline d.scope)).1]
      (methodBinding? d.scope (receiver.type? d.scope) method)
    simp only [addExpr, addExpr_eq d receiver, Expr.outline, Expr.type?, plant_value,
      plant_reference, plantAll, valueNode]
    rw [← Scope.methodBinding?_bare (d.plant (receiver.outline d.scope)).2.scope, hscope,
      Scope.methodBinding?_bare, addArguments_eq, ← Expr.outlines_bare, hscope', hscope,
      Expr.outlines_bare]
  | .assign target value => by
    have hvalue : value.outline (d.plant (target.outline d.scope)).2.scope =
        value.outline d.scope := by
      rw [← Expr.outline_bare, bare_plant, Expr.outline_bare]
    simp only [addExpr, addExpr_eq d target, Expr.outline, Expr.type?, plant_value, plantAll,
      valueNode]
    rw [addExpr_eq (d.plant (target.outline d.scope)).2 value, hvalue]

/-- Elaborating arguments `es` plants their outlines. -/
theorem addArguments_eq (d : Draft) : ∀ es : List Expr,
    d.addArguments es = d.plantAll (Expr.outlines d.scope es)
  | [] => rfl
  | e :: es => by
    simp only [addArguments, Expr.outlines, plantAll, addExpr_eq d e]
    rw [addArguments_eq (d.plant (e.outline d.scope)).2 es, ← Expr.outlines_bare,
      bare_plant, Expr.outlines_bare]

end

@[simp] theorem withLocals_self (d : Draft) : d.withLocals d.scope.locals = d := rfl

@[simp] theorem withLocals_withLocals (d : Draft) (locals locals' : Assoc String TypeId) :
    (d.withLocals locals).withLocals locals' = d.withLocals locals' := rfl

mutual

/-- Planting neither looks at the local variables `locals` nor changes them. -/
theorem plant_withLocals (d : Draft) (locals : Assoc String TypeId) : ∀ o : Outline,
    (d.withLocals locals).plant o = ((d.plant o).1, (d.plant o).2.withLocals locals)
  | .node label children => by
    simp only [plant, top, plantAll_withLocals d locals children]
    cases label.binding <;> rfl

theorem plantAll_withLocals (d : Draft) (locals : Assoc String TypeId) : ∀ os : List Outline,
    (d.withLocals locals).plantAll os = ((d.plantAll os).1, (d.plantAll os).2.withLocals locals)
  | [] => rfl
  | o :: os => by
    simp only [plantAll, plant_withLocals d locals o, plantAll_withLocals (d.plant o).2 locals os]

end

theorem locals_plant (d : Draft) (o : Outline) : (d.plant o).2.scope.locals = d.scope.locals := by
  have h := congrArg Scope.locals (bare_plant d o)
  exact h

theorem locals_plantAll (d : Draft) (os : List Outline) :
    (d.plantAll os).2.scope.locals = d.scope.locals := by
  have h := congrArg Scope.locals (bare_plantAll d os)
  exact h

/-- Elaborating an expression that may be absent, `value`, plants its outline. -/
theorem addOptional_eq (d : Draft) (value : Option Expr) :
    d.addOptional value = d.plantAll (value.toList.map (Expr.outline d.scope)) := by
  cases value with
  | none => rfl
  | some e => simp [addOptional, addExpr_eq, plantAll]

/-- The `keys` are added to the node planted last, the one on top of `o`. -/
theorem plant_suppress (d : Draft) (keys : List String) (o : Outline) :
    d.plant (o.suppress keys) = ((d.plant o).1, (d.plant o).2.suppress (d.plant o).1 keys) := by
  obtain ⟨label, children⟩ := o
  simp only [Outline.suppress, plant, top]
  cases label.binding <;> simp [suppress, List.foldl_append]

/-- Behind `item` the scope is the one in front of it with the local variables behind `item`, but
for bindings. -/
theorem bare_after {d : Draft} {scope : Scope} (h : d.scope.bare = scope.bare) (o : Outline)
    (item : Item) :
    ((d.plant o).2.withLocals (item.after scope).locals).scope.bare = (item.after scope).bare := by
  rw [item.after_eq_withLocals scope, Scope.bare_withLocals, ← h, ← bare_plant d o]
  rfl

mutual

/-- Elaborating an `item` plants its outline and goes on with the local variables behind it. -/
theorem addItem_eq (d : Draft) : ∀ item : Item,
    d.addItem item = ((d.plant (item.outline d.scope)).1,
      (d.plant (item.outline d.scope)).2.withLocals (item.after d.scope).locals)
  | .block items span => by
    simp only [addItem, addItems_eq d items, Item.outline, Item.after, plant]
    rfl
  | .suppressed keys item => by
    simp only [addItem, addItem_eq d item, Item.outline, Item.after, plant_suppress]
    rfl
  | .ret value span => by
    simp only [addItem, addOptional_eq, Item.outline, Item.after, plant]
    rw [← locals_plantAll d (value.toList.map (Expr.outline d.scope))]
    rfl
  | .branch start condition yes none => by
    have hbare := bare_plant d (condition.outline d.scope)
    simp only [addItem, addExpr_eq d condition, Item.outline, Item.after, plant, plantAll,
      addItem_eq (d.plant (condition.outline d.scope)).2 yes, Item.outline_congr hbare yes,
      Item.locals_after_congr hbare yes]
    rfl
  | .branch start condition yes (some no) => by
    have hbare := bare_plant d (condition.outline d.scope)
    have hbare' := bare_after hbare (yes.outline d.scope) yes
    simp only [addItem, addExpr_eq d condition, Item.outline, Item.after, plant, plantAll,
      addItem_eq (d.plant (condition.outline d.scope)).2 yes, Item.outline_congr hbare yes,
      Item.locals_after_congr hbare yes, addItem_eq _ no, Item.outline_congr hbare' no,
      Item.locals_after_congr hbare' no, plant_withLocals, withLocals_withLocals]
    rfl
  | .declare type name value span => by
    have hbare := bare_plantAll d (value.toList.map (Expr.outline d.scope))
    simp only [addItem, addOptional_eq, Item.outline, Item.after, plant_reference]
    cases d.scope.resolveType? type with
    | none =>
      rw [← locals_plantAll d (value.toList.map (Expr.outline d.scope))]
      rfl
    | some id =>
      have hlocals := locals_plantAll d (value.toList.map (Expr.outline d.scope))
      simp only [reference, node, bind, withLocals, Scope.withLocals]
      rw [← hlocals]
  | .evaluate value stop => by
    simp only [addItem, addExpr_eq d value, Item.outline, Item.after, plant, plantAll]
    rw [← locals_plant d (value.outline d.scope)]
    rfl

/-- Elaborating items plants their outlines and goes on with the local variables behind them. -/
theorem addItems_eq (d : Draft) : ∀ items : List Item,
    d.addItems items = ((d.plantAll (Item.outlines d.scope items)).1,
      (d.plantAll (Item.outlines d.scope items)).2.withLocals (Item.afterAll d.scope items).locals)
  | [] => rfl
  | item :: rest => by
    have hbare := bare_after (d := d) rfl (item.outline d.scope) item
    simp only [addItems, addItem_eq d item, addItems_eq _ rest, Item.outlines, Item.afterAll,
      plantAll, Item.outlines_congr hbare, Item.locals_afterAll_congr hbare,
      plantAll_withLocals, withLocals_withLocals]

end

end Draft

/-! ## A whole snippet -/

/-- The outline of a snippet made of `items`. -/
def unitOutline (scope : Scope) (source : String) (items : List Item) : Outline :=
  .node { kind := .compilationUnit, span := ⟨0, Text.byteSize source.toList⟩ }
    (Item.outlines scope items)

/-- The draft in which nothing is planted: it has `scope` and `source`. -/
def Draft.start (scope : Scope) (source : String) : Draft := ⟨scope, ⟨scope.path, source, #[]⟩⟩

/-- Elaborating a snippet plants its `unitOutline` and finishes the tree. -/
theorem elaborate_eq (scope : Scope) (source : String) (items : List Item) :
    elaborate scope source items =
      let (root, d) := (Draft.start scope source).plant (unitOutline scope source items)
      match d.builder.finish root with
      | .ok tree => .ok (tree, d.scope.types)
      | .error e => .error (.badTree e) := by
  unfold elaborate
  rw [← Draft.start, Draft.addItems_eq]
  rfl

end Snippet

end TreeLint
