import TreeLint.Proofs.Snippet.Places
import TreeLint.Proofs.Typing.Names

/-!
# Types that a snippet names

Whatever a scope names is a type of its table, and so is whatever the nodes of a snippet are bound
to: handles come from look-up alone.

- `Scope.Known`: all that a scope names is in its table. `Scope.Declared.known`: declarations keep
  it.
- `Expr.binds_outline`, `Item.binds_outline`: what elaboration binds nodes to.
- `Shows.known_binding`: the bindings of a tree that shows such an outline.
-/

namespace TreeLint

namespace TypeTable

variable {table table' : TypeTable} {type : TypeId}

/-- The `type` is one of the `table`. -/
def Knows (table : TypeTable) (type : TypeId) : Prop := ∃ name, table.typeName? type = some name

theorem Knows.mono (hnames : table.names <+: table'.names) (h : table.Knows type) :
    table'.Knows type := by
  obtain ⟨name, hname⟩ := h
  exact ⟨name, typeName?_mono hnames hname⟩

theorem Grows.distinct {more : List String} {above : String → List String}
    (h : Grows table table' more above) (hdistinct : ∀ name, (table.superNames name).Nodup)
    (name : String) : (table'.superNames name).Nodup := by
  rw [h.superNames_eq]
  exact List.foldlRecOn _ _ (hdistinct name) fun names hnames x _ => nodup_addNew hnames x

end TypeTable

/-- All types of the `binding` are types of the `table`. -/
structure Binding.Known (table : TypeTable) (binding : Binding) : Prop where
  type : ∀ type ∈ binding.type, table.Knows type
  owner : ∀ type ∈ binding.owner, table.Knows type
  returns : ∀ type ∈ binding.returns, table.Knows type

namespace Snippet

open TypeTable

/-! ## Scopes -/

namespace Scope

/-- All that `scope` names is in its table, and no type is declared twice right above another. -/
structure Known (scope : Scope) : Prop where
  closed : scope.types.Closed
  distinct : ∀ name, (scope.types.superNames name).Nodup
  selfType : scope.types.Knows scope.selfType
  locals : ∀ {name type}, scope.locals.get? name = some type → scope.types.Knows type
  fields : ∀ {name type}, scope.fields.get? name = some type → scope.types.Knows type
  methods : ∀ {owner name returns}, scope.methods.get? (owner, name) = some returns →
    scope.types.Knows owner ∧ scope.types.Knows returns

variable {scope : Scope}

/-- What a scope names stays known when its table grows to `table`. -/
theorem Known.grow (h : scope.Known) {table : TypeTable} {more : List String}
    {above : String → List String} (hgrows : Grows scope.types table more above) :
    ({ scope with types := table } : Scope).Known where
  closed := hgrows.closed
  distinct := hgrows.distinct h.distinct
  selfType := h.selfType.mono hgrows.prefix_names
  locals := fun hget => (h.locals hget).mono hgrows.prefix_names
  fields := fun hget => (h.fields hget).mono hgrows.prefix_names
  methods := fun hget => (h.methods hget).imp (·.mono hgrows.prefix_names)
    (·.mono hgrows.prefix_names)

theorem Known.intern (h : scope.Known) (name : String) :
    ({ scope with types := (scope.types.intern name).2 } : Scope).Known ∧
      (scope.types.intern name).2.Knows (scope.types.intern name).1 := by
  obtain ⟨hgrows, htype⟩ := intern_spec h.closed name
  exact ⟨h.grow hgrows, name, htype⟩

theorem known_basic : basic.Known := by
  obtain ⟨hgrows, hself⟩ := intern_spec closed_empty "com.example.Main"
  have hempty : ∀ name, (({} : TypeTable).superNames name).Nodup := fun name => by
    simp [superNames, lookup?]
  let start : Scope := ⟨"src/Main.java", (TypeTable.intern {} "com.example.Main").2,
    (TypeTable.intern {} "com.example.Main").1, [], [], []⟩
  have hstart : start.Known :=
    ⟨hgrows.closed, hgrows.distinct hempty, ⟨_, hself⟩, by simp [start, Assoc.get?],
      by simp [start, Assoc.get?], by simp [start, Assoc.get?]⟩
  exact List.foldlRecOn (motive := fun types => ({ start with types } : Scope).Known) _ _ hstart
    fun types h name _ => (h.intern name).1

/-- Every `Declared` scope names only types of its table. -/
theorem Declared.known (h : scope.Declared) : scope.Known := by
  induction h with
  | basic => exact known_basic
  | path path _ ih => exact ⟨ih.closed, ih.distinct, ih.selfType, ih.locals, ih.fields, ih.methods⟩
  | subtype sub super _ ih =>
    obtain ⟨hsub, name, htype⟩ := ih.intern sub
    obtain ⟨hgrows, hsuper⟩ := intern_spec hsub.closed super
    exact (hsub.grow hgrows).grow
      (addSupertype_spec hgrows.closed (typeName?_mono hgrows.prefix_names htype) hsuper)
  | method owner name returns _ ih =>
    obtain ⟨howner, hknows⟩ := ih.intern owner
    obtain ⟨hgrows, hreturns⟩ := intern_spec howner.closed returns
    have hboth := howner.grow hgrows
    exact ⟨hboth.closed, hboth.distinct, hboth.selfType, hboth.locals, hboth.fields,
      Assoc.of_get?_insert (P := fun (key : TypeId × String) type => Knows _ key.1 ∧ Knows _ type)
        ⟨hknows.mono hgrows.prefix_names, returns, hreturns⟩ hboth.methods⟩
  | addLocal name type _ ih =>
    obtain ⟨htype, hknows⟩ := ih.intern type
    exact ⟨htype.closed, htype.distinct, htype.selfType,
      Assoc.of_get?_insert (P := fun _ type => Knows _ type) hknows htype.locals,
      htype.fields, htype.methods⟩
  | field name type _ ih =>
    obtain ⟨htype, hknows⟩ := ih.intern type
    exact ⟨htype.closed, htype.distinct, htype.selfType, htype.locals,
      Assoc.of_get?_insert (P := fun _ type => Knows _ type) hknows htype.fields, htype.methods⟩
  | withSelf name _ ih =>
    obtain ⟨hname, hknows⟩ := ih.intern name
    exact ⟨hname.closed, hname.distinct, hknows, hname.locals, hname.fields, hname.methods⟩

theorem knows_of_resolveType? {name : String} {type : TypeId}
    (hname : scope.resolveType? name = some type) : scope.types.Knows type := by
  unfold Scope.resolveType? at hname
  rcases Option.or_eq_some_iff.mp hname with hlookup | ⟨-, hfind⟩
  · exact ⟨name, typeName?_of_lookup? hlookup⟩
  · obtain ⟨i, hi, rfl⟩ := Option.map_eq_some_iff.mp hfind
    obtain ⟨hlt, -⟩ := Array.findIdx?_eq_some_iff_getElem.mp hi
    exact ⟨scope.types.types[i].name, by simp [typeName?, hlt]⟩

theorem knows_of_literalType? {kind : LiteralKind} :
    ∀ type ∈ Draft.literalType? scope kind, scope.types.Knows type := by
  intro type htype
  cases kind with
  | null => cases htype
  | _ => exact knows_of_resolveType? htype

namespace Known

variable (h : scope.Known)

include h

theorem method? {owner declaring returns : TypeId} {name : String}
    (hmethod : scope.method? owner name = some (declaring, returns)) :
    scope.types.Knows declaring ∧ scope.types.Knows returns := by
  obtain ⟨_, -, type, -, hanswer⟩ := above_of_searchFrom? hmethod
  obtain ⟨returns', hget, heq⟩ := Option.map_eq_some_iff.mp hanswer
  cases heq
  exact h.methods hget

theorem nameBinding? {name : String} :
    ∀ binding ∈ Draft.nameBinding? scope name, binding.Known scope.types := by
  intro binding hbinding
  unfold Draft.nameBinding? at hbinding
  split at hbinding
  · rename_i type hget
    cases hbinding
    exact ⟨by simpa using h.locals hget, by simp, by simp⟩
  · rename_i type _ hget
    cases hbinding
    exact ⟨by simpa using h.fields hget, by simpa using h.selfType, by simp⟩
  · rename_i type _ _ hresolve
    cases hbinding
    exact ⟨by simpa using knows_of_resolveType? hresolve, by simp, by simp⟩
  · cases hbinding

theorem memberBinding? {receiver : Option TypeId} {name : String} :
    ∀ binding ∈ Draft.memberBinding? scope receiver name, binding.Known scope.types := by
  intro binding hbinding
  unfold Draft.memberBinding? at hbinding
  split at hbinding
  · obtain ⟨_, htype, rfl⟩ := Option.map_eq_some_iff.mp hbinding
    obtain ⟨type, hget, htype⟩ := Option.bind_eq_some_iff.mp htype
    cases htype
    exact ⟨by simpa using h.fields hget, by simpa using h.selfType, by simp⟩
  · cases hbinding

theorem methodBinding? {receiver : Option TypeId} {name : String} :
    ∀ binding ∈ Draft.methodBinding? scope receiver name, binding.Known scope.types := by
  intro binding hbinding
  obtain ⟨⟨owner, returns⟩, hmethod, rfl⟩ := Option.map_eq_some_iff.mp hbinding
  obtain ⟨type, -, hmethod⟩ := Option.bind_eq_some_iff.mp hmethod
  obtain ⟨howner, hreturns⟩ := h.method? hmethod
  exact ⟨by simp, by simpa using howner, by simpa using hreturns⟩

end Known

end Scope

/-! ## Outlines -/

/-- All types that the parts of the outline `o` are bound to are in the `table`. -/
def Outline.Binds (table : TypeTable) (o : Outline) : Prop :=
  ∀ part : Outline, part.Part o → ∀ binding ∈ part.label.binding, binding.Known table

variable {scope : Scope} {table : TypeTable}

theorem Outline.binds_node {label : Label} {children : List Outline}
    (hlabel : ∀ binding ∈ label.binding, binding.Known table)
    (hchildren : ∀ child ∈ children, child.Binds table) :
    (Outline.node label children).Binds table := by
  intro part hpart
  cases hpart with
  | self => exact hlabel
  | inside hchild hpart => exact hchildren _ hchild part hpart

theorem Outline.binds_value {kind : Kind} {span : Span} {type : Option TypeId}
    {children : List Outline} (htype : ∀ t ∈ type, table.Knows t)
    (hchildren : ∀ child ∈ children, child.Binds table) :
    (Outline.value kind span type children).Binds table := by
  refine Outline.binds_node (fun binding hbinding => ?_) hchildren
  cases hbinding
  exact ⟨htype, by simp, by simp⟩

theorem Outline.binds_suppress {keys : List String} {o : Outline} (h : o.Binds table) :
    (o.suppress keys).Binds table := by
  obtain ⟨label, children⟩ := o
  exact Outline.binds_node (h _ .self) fun child hchild part hpart =>
    h part (.inside hchild hpart)

theorem Scope.Known.returns (h : scope.Known) {receiver : Option TypeId} {name : String} :
    ∀ type ∈ (Draft.methodBinding? scope receiver name).bind Binding.returns,
      scope.types.Knows type := by
  intro type htype
  obtain ⟨binding, hbinding, htype⟩ := Option.bind_eq_some_iff.mp htype
  exact (h.methodBinding? binding hbinding).returns type htype

/-- The `type` of an expression is a type of the table. -/
theorem Expr.knows_type? (h : scope.Known) : ∀ (e : Expr) (type : TypeId),
    type ∈ e.type? scope → scope.types.Knows type
  | .literal _ _, type, htype => Scope.knows_of_literalType? type htype
  | .self _, type, htype => by
    cases htype
    exact h.selfType
  | .name _ _, type, htype => by
    obtain ⟨binding, hbinding, htype⟩ := Option.bind_eq_some_iff.mp htype
    exact (h.nameBinding? binding hbinding).type type htype
  | .paren inner _, type, htype => inner.knows_type? h type htype
  | .create _ _ _, type, htype => Scope.knows_of_resolveType? htype
  | .callOwn _ _ _ _, type, htype => h.returns type htype
  | .select _ _ _, type, htype => by
    obtain ⟨binding, hbinding, htype⟩ := Option.bind_eq_some_iff.mp htype
    exact (h.memberBinding? binding hbinding).type type htype
  | .callOn _ _ _ _ _, type, htype => h.returns type htype
  | .assign target _, type, htype => target.knows_type? h type htype

mutual

/-- The nodes of an expression `e` are bound to types of the table. -/
theorem Expr.binds_outline (h : scope.Known) : ∀ e : Expr, (e.outline scope).Binds scope.types
  | .literal kind span => by
    cases kind with
    | null => exact Outline.binds_node (by simp) (by simp)
    | _ => exact Outline.binds_value Scope.knows_of_literalType? (by simp)
  | .self span => by
    refine Outline.binds_node (fun binding hbinding => ?_) (by simp)
    cases hbinding
    exact ⟨by simpa using h.selfType, by simp, by simp⟩
  | .name word span => Outline.binds_node h.nameBinding? (by simp)
  | .paren inner span => by
    rw [Expr.outline]
    exact Outline.binds_value (inner.knows_type? h) (by simpa using inner.binds_outline h)
  | .create type arguments span => by
    rw [Expr.outline]
    exact Outline.binds_value (fun _ => Scope.knows_of_resolveType?)
      (Expr.binds_outlines h arguments)
  | .callOwn method place arguments stop => by
    rw [Expr.outline]
    refine Outline.binds_value h.returns (List.forall_mem_cons.mpr ⟨?_, ?_⟩)
    · exact Outline.binds_node h.methodBinding? (by simp)
    · exact Expr.binds_outlines h arguments
  | .select receiver member stop => by
    rw [Expr.outline]
    exact Outline.binds_node h.memberBinding? (by simpa using receiver.binds_outline h)
  | .callOn receiver method nameStop arguments stop => by
    rw [Expr.outline]
    refine Outline.binds_value h.returns (List.forall_mem_cons.mpr ⟨?_, ?_⟩)
    · exact Outline.binds_node h.methodBinding? (by simpa using receiver.binds_outline h)
    · exact Expr.binds_outlines h arguments
  | .assign target value => by
    rw [Expr.outline]
    exact Outline.binds_value (target.knows_type? h)
      (by simpa using ⟨target.binds_outline h, value.binds_outline h⟩)

theorem Expr.binds_outlines (h : scope.Known) : ∀ es : List Expr,
    ∀ o ∈ Expr.outlines scope es, o.Binds scope.types
  | [] => by simp [Expr.outlines]
  | e :: es => by
    rw [Expr.outlines]
    exact List.forall_mem_cons.mpr ⟨e.binds_outline h, Expr.binds_outlines h es⟩

end

theorem Expr.binds_optional (h : scope.Known) (value : Option Expr) :
    ∀ o ∈ value.toList.map (Expr.outline scope), o.Binds scope.types := by
  cases value with
  | none => simp
  | some e => simpa using e.binds_outline h

theorem Scope.Known.withLocals (h : scope.Known) {name : String} {type : TypeId}
    (htype : scope.types.Knows type) :
    (scope.withLocals (scope.locals.insert name type)).Known :=
  ⟨h.closed, h.distinct, h.selfType,
    Assoc.of_get?_insert (P := fun _ type => Knows _ type) htype h.locals, h.fields, h.methods⟩

mutual

/-- A variable that an `item` declares has a type of the table. -/
theorem Item.known_after {scope : Scope} (h : scope.Known) : ∀ item : Item,
    (item.after scope).Known ∧ (item.after scope).types = scope.types
  | .block items _ => by
    rw [Item.after]
    exact Item.known_afterAll h items
  | .suppressed _ item => by
    rw [Item.after]
    exact item.known_after h
  | .branch _ _ yes none => by
    rw [Item.after]
    exact yes.known_after h
  | .branch _ _ yes (some no) => by
    rw [Item.after]
    obtain ⟨hyes, htypes⟩ := yes.known_after h
    obtain ⟨hno, htypes'⟩ := no.known_after hyes
    exact ⟨hno, htypes'.trans htypes⟩
  | .declare typeName name _ _ => by
    rw [Item.after]
    cases htype : scope.resolveType? typeName with
    | none => exact ⟨h, rfl⟩
    | some type => exact ⟨h.withLocals (Scope.knows_of_resolveType? htype), rfl⟩
  | .ret _ _ => ⟨h, rfl⟩
  | .evaluate _ _ => ⟨h, rfl⟩

theorem Item.known_afterAll {scope : Scope} (h : scope.Known) : ∀ items : List Item,
    (Item.afterAll scope items).Known ∧ (Item.afterAll scope items).types = scope.types
  | [] => ⟨h, rfl⟩
  | item :: rest => by
    rw [Item.afterAll]
    obtain ⟨hitem, htypes⟩ := item.known_after h
    obtain ⟨hrest, htypes'⟩ := Item.known_afterAll hitem rest
    exact ⟨hrest, htypes'.trans htypes⟩

end

mutual

/-- The nodes of an `item` are bound to types of the table. -/
theorem Item.binds_outline {scope : Scope} (h : scope.Known) : ∀ item : Item,
    (item.outline scope).Binds scope.types
  | .block items _ => by
    rw [Item.outline]
    exact Outline.binds_node (by simp) (Item.binds_outlines h items)
  | .suppressed keys item => by
    rw [Item.outline]
    exact Outline.binds_suppress (item.binds_outline h)
  | .ret value _ => by
    rw [Item.outline]
    exact Outline.binds_node (by simp) (Expr.binds_optional h value)
  | .branch _ condition yes none => by
    rw [Item.outline]
    exact Outline.binds_node (by simp)
      (by simpa using ⟨condition.binds_outline h, yes.binds_outline h⟩)
  | .branch _ condition yes (some no) => by
    obtain ⟨hafter, htypes⟩ := yes.known_after h
    have hno := no.binds_outline hafter
    rw [htypes] at hno
    rw [Item.outline]
    exact Outline.binds_node (by simp)
      (by simpa using ⟨condition.binds_outline h, yes.binds_outline h, hno⟩)
  | .declare typeName name value _ => by
    rw [Item.outline]
    refine Outline.binds_node (fun binding hbinding => ?_) (Expr.binds_optional h value)
    cases hbinding
    exact ⟨fun _ => Scope.knows_of_resolveType?, by simp, by simp⟩
  | .evaluate value _ => by
    rw [Item.outline]
    exact Outline.binds_node (by simp) (by simpa using value.binds_outline h)

theorem Item.binds_outlines {scope : Scope} (h : scope.Known) : ∀ items : List Item,
    ∀ o ∈ Item.outlines scope items, o.Binds scope.types
  | [] => by simp [Item.outlines]
  | item :: rest => by
    obtain ⟨hafter, htypes⟩ := item.known_after h
    have hrest := Item.binds_outlines hafter rest
    rw [htypes] at hrest
    rw [Item.outlines]
    exact List.forall_mem_cons.mpr ⟨item.binds_outline h, hrest⟩

end

theorem binds_unitOutline (h : scope.Known) (source : String) (items : List Item) :
    (unitOutline scope source items).Binds scope.types :=
  Outline.binds_node (by simp) (Item.binds_outlines h items)

/-- In a `tree` that shows an outline `o`, a node `id` is bound as the part on top of which it
stands. -/
theorem Shows.known_binding {tree : Tree} {types : TypeTable} {o : Outline}
    (hshows : Shows tree types o) (hbinds : o.Binds table) {id : NodeId}
    (hid : tree.contains id = true) : ∀ binding ∈ types.binding? id, binding.Known table := by
  intro binding hbinding
  have hlt : id.index < 0 + o.size := by simpa [Tree.contains, hshows.size] using hid
  obtain ⟨part, m, above, hpart, hstands, hplace, -⟩ :=
    hshows.stands.exists_at (Nat.zero_le _) hlt
  refine hbinds part hpart binding ?_
  rw [← hstands.node.2.1, hplace]
  exact hbinding

end Snippet

end TreeLint
