import TreeLint.Proofs.Snippet.Known
import TreeLint.Proofs.Unit.Transcript

/-!
# Snippets as documents

A parsed snippet is rendered as a document and loaded again. The nodes come back counted in document
order, and the types in the order in which the document mentions them; nothing else changes. A
snippet whose nodes stand too deep in each other makes a document that is not read.

- `UnitDocument.names_build`, `superNames_build`: the types of a table, declared again.
- `SourceUnit.Mirrors`: the unit is a tree with its types but for their numbers.
- `UnitDocument.mirrors_of_build`: what the document of a tree makes.
- `Snippet.mirrors_of_render`: rendering a snippet and loading it.
-/

namespace TreeLint

/-! ## Types declared again -/

namespace TypeDocument

variable {docs : List TypeDocument} {doc : TypeDocument} {name : String}

theorem declaredAbove_of_not_mem (h : name ∉ docs.map TypeDocument.name) :
    declaredAbove docs name = [] := by
  have hnone : docs.filter (fun doc => doc.name = name) = [] := by
    rw [List.filter_eq_nil_iff]
    intro doc hdoc
    have hne : doc.name ≠ name := fun heq => h (heq ▸ List.mem_map_of_mem hdoc)
    simpa using hne
  rw [declaredAbove, hnone, List.flatMap_nil]

/-- Of names that `docs` declare once, each gets what its declaration `doc` says. -/
theorem declaredAbove_of_nodup (h : (docs.map TypeDocument.name).Nodup) (hdoc : doc ∈ docs) :
    declaredAbove docs doc.name = doc.supertypes := by
  induction docs with
  | nil => cases hdoc
  | cons first rest ih =>
    obtain ⟨hnot, hrest⟩ := List.nodup_cons.mp h
    rcases List.mem_cons.mp hdoc with rfl | hdoc
    · have hnone := declaredAbove_of_not_mem hnot
      unfold declaredAbove at hnone ⊢
      rw [List.filter_cons_of_pos (by simp), List.flatMap_cons, hnone, List.append_nil]
    · have hne : first.name ≠ doc.name := fun heq => hnot (heq ▸ List.mem_map_of_mem hdoc)
      have hstep := ih hrest hdoc
      unfold declaredAbove at hstep ⊢
      rw [List.filter_cons_of_neg (by simpa using hne), hstep]

end TypeDocument

/-- What is said about a `binding` with known types is what the binding carries. -/
theorem Binding.Known.carries {table : TypeTable} {binding : Binding} (h : binding.Known table) :
    binding.Carries table (.ofBinding table binding) := by
  have hnamed : ∀ type : Option TypeId, (∀ t ∈ type, table.Knows t) → type.map table.typeName? =
      (type.map fun t => (table.typeName? t).getD "").map some := fun type htype => by
    cases type with
    | none => rfl
    | some t =>
      obtain ⟨name, hname⟩ := htype t rfl
      simp [hname]
  exact ⟨rfl, hnamed _ h.type, hnamed _ h.owner, hnamed _ h.returns⟩

theorem Binding.Carries.mem_names {table : TypeTable} {binding : Binding} {doc : BindingDocument}
    (h : binding.Carries table doc) : ∀ name ∈ doc.mentioned, name ∈ table.names := by
  have hnames : ∀ (type : Option TypeId) (name : Option String),
      type.map table.typeName? = name.map some → ∀ x ∈ name.toList, x ∈ table.names := by
    intro type name htype x hx
    rw [Option.mem_toList] at hx
    rw [hx, Option.map_some] at htype
    obtain ⟨t, -, ht⟩ := Option.map_eq_some_iff.mp htype
    exact TypeTable.mem_names_iff.mpr ⟨t, ht⟩
  intro name hname
  rcases List.mem_append.mp hname with hname | hname
  · rcases List.mem_append.mp hname with hname | hname
    · exact hnames _ _ h.type name hname
    · exact hnames _ _ h.owner name hname
  · exact hnames _ _ h.returns name hname

namespace UnitDocument

variable {types : TypeTable} (hclosed : types.Closed) {name : String}

theorem map_name_typeDocuments (types : TypeTable) :
    (typeDocuments types).map TypeDocument.name = types.names := by
  rw [typeDocuments, List.map_map]
  rfl

include hclosed

/-- A `type` of a table, as a document declares it. -/
theorem mem_typeDocuments {type : TypeId} (htype : types.typeName? type = some name) :
    ⟨name, types.superNames name⟩ ∈ typeDocuments types := by
  obtain ⟨info, hinfo, rfl⟩ := Option.map_eq_some_iff.mp htype
  have hsupers : types.supertypes type = info.supertypes := by
    rw [TypeTable.supertypes, hinfo]
    rfl
  have hknown : ∀ super ∈ info.supertypes, types.Knows super := fun super hsuper =>
    hclosed.known (hsupers ▸ hsuper)
  have hmap : types.superNames info.name =
      info.supertypes.map fun super => (types.typeName? super).getD "" := by
    rw [hclosed.superNames_eq htype, hsupers]
    generalize info.supertypes = supers at hknown
    induction supers with
    | nil => rfl
    | cons super supers ih =>
      obtain ⟨⟨above, habove⟩, hrest⟩ := List.forall_mem_cons.mp hknown
      rw [List.filterMap_cons_some habove, List.map_cons, habove, ih hrest, Option.getD_some]
  rw [hmap]
  refine List.mem_map.mpr ⟨info, ?_, rfl⟩
  rw [← Array.getElem?_toList] at hinfo
  exact List.mem_of_getElem? hinfo

theorem declaredAbove_typeDocuments (name : String) :
    TypeDocument.declaredAbove (typeDocuments types) name = types.superNames name := by
  cases hlookup : types.lookup? name with
  | none =>
    rw [TypeTable.superNames, hlookup, TypeDocument.declaredAbove_of_not_mem]
    · rfl
    · rw [map_name_typeDocuments]
      exact TypeTable.lookup?_eq_none_iff.mp hlookup
  | some type =>
    have hdoc := mem_typeDocuments hclosed (TypeTable.typeName?_of_lookup? hlookup)
    exact TypeDocument.declaredAbove_of_nodup (by rw [map_name_typeDocuments]; exact hclosed.nodup)
      hdoc

theorem mem_mentioned_typeDocuments :
    name ∈ (typeDocuments types).flatMap TypeDocument.mentioned ↔ name ∈ types.names := by
  constructor
  · intro hname
    obtain ⟨doc, hdoc, hname⟩ := List.mem_flatMap.mp hname
    have hmem : doc.name ∈ types.names :=
      map_name_typeDocuments types ▸ List.mem_map_of_mem hdoc
    rcases List.mem_cons.mp hname with rfl | hname
    · exact hmem
    · have habove := TypeDocument.declaredAbove_of_nodup
        (by rw [map_name_typeDocuments]; exact hclosed.nodup) hdoc
      rw [← habove, declaredAbove_typeDocuments hclosed] at hname
      obtain ⟨type, super, -, -, hsuper⟩ := hclosed.mem_superNames_iff.mp hname
      exact TypeTable.mem_names_iff.mpr ⟨super, hsuper⟩
  · intro hname
    obtain ⟨type, htype⟩ := TypeTable.mem_names_iff.mp hname
    exact List.mem_flatMap.mpr ⟨_, mem_typeDocuments hclosed htype, List.mem_cons_self⟩

end UnitDocument

/-! ## The unit that the document makes -/

/-- The unit is a tree with its types but for their numbers: `σ` counts the nodes in document order,
and the types go by their names. -/
structure SourceUnit.Mirrors (unit : SourceUnit) (tree : Tree) (types : TypeTable)
    (σ : NodeId ≃ NodeId) : Prop where
  sourceFile : unit.sourceFile = none
  numbered : ∀ i id, (tree.descendants tree.root)[i]? = some id → σ id = ⟨i⟩
  /-- Path, text, root and, for every node, its kind, range, name, parent, ordered children and
  suppressions. -/
  renumbered : tree.Renumbered σ unit.tree
  /-- A node is bound when the other is, to types of the same names. -/
  bound : ∀ id, tree.contains id = true → Option.Rel
    (fun binding binding' => ∃ doc : BindingDocument, binding.Carries types doc ∧
      binding'.Carries unit.types doc) (types.binding? id) (unit.types.binding? (σ id))
  /-- Each name has one handle in each table, and what is declared above a type has a name. -/
  closed : types.Closed ∧ unit.types.Closed
  names : ∀ name, name ∈ unit.types.names ↔ name ∈ types.names
  /-- The names declared right above a name, in order. -/
  above : ∀ name, unit.types.superNames name = types.superNames name
  assignable : ∀ a b a' b' below above, types.typeName? a = some below →
    types.typeName? b = some above → unit.types.typeName? a' = some below →
    unit.types.typeName? b' = some above →
    unit.types.isAssignable a' b' = types.isAssignable a b

namespace UnitDocument

open NodeDocument

variable {tree : Tree} {types : TypeTable} {doc : UnitDocument}

/-- The parts of the document `doc` of `tree`. -/
theorem ofTree?_eq_some_iff : ofTree? tree types = some doc ↔
    ofNode? tree types tree.root = some doc.root ∧
      doc = ⟨tree.path, tree.source, none, typeDocuments types, doc.root⟩ := by
  unfold ofTree?
  constructor
  · intro h
    obtain ⟨root, hroot, rfl⟩ := Option.map_eq_some_iff.mp h
    exact ⟨hroot, rfl⟩
  · rintro ⟨hroot, hdoc⟩
    rw [hroot, hdoc]
    rfl

theorem exists_ofTree? (htree : tree.Sound) (types : TypeTable) :
    ∃ doc, ofTree? tree types = some doc := by
  obtain ⟨root, hroot⟩ := exists_ofNode? htree types htree.contains_root
  exact ⟨⟨tree.path, tree.source, none, typeDocuments types, root⟩,
    ofTree?_eq_some_iff.mpr ⟨hroot, rfl⟩⟩

/-- The nodes of `tree` are bound to types of the table `types`. -/
def BindsKnown (tree : Tree) (types : TypeTable) : Prop :=
  ∀ id, tree.contains id = true → ∀ binding ∈ types.binding? id, binding.Known types

variable (htree : tree.Sound) (hclosed : types.Closed) (hknown : BindsKnown tree types)
variable (hdoc : ofTree? tree types = some doc)

include htree hclosed hknown hdoc

/-- The document `doc` of a tree mentions the types of its table and no others. -/
theorem mem_mentioned_iff {name : String} : name ∈ doc.mentioned ↔ name ∈ types.names := by
  obtain ⟨hroot, heq⟩ := ofTree?_eq_some_iff.mp hdoc
  have htypes : doc.types = typeDocuments types := by rw [heq]
  have hnodes : name ∈ doc.root.preorder.flatMap NodeDocument.mentioned → name ∈ types.names := by
    intro hname
    obtain ⟨d, hd, hname⟩ := List.mem_flatMap.mp hname
    obtain ⟨id, hid, hof⟩ := exists_of_mem_preorder htree htree.contains_root hroot hd
    obtain ⟨node, -, rfl⟩ := exists_node htree hid hof
    cases hbinding : types.binding? id with
    | none => simp [NodeDocument.mentioned, ofNode, hbinding] at hname
    | some binding =>
      refine (hknown id hid binding hbinding).carries.mem_names name ?_
      simpa [NodeDocument.mentioned, ofNode, hbinding] using hname
  rw [UnitDocument.mentioned, List.mem_append, htypes, mem_mentioned_typeDocuments hclosed]
  exact or_iff_left_of_imp hnodes

variable {tree' : Tree} {types' : TypeTable}
variable (hbuild : doc.build tree.source = .ok (tree', types'))

include hbuild

/-- The types of the table are declared again in `types'`, each name once. -/
theorem names_build : types'.Closed ∧ ∀ name, name ∈ types'.names ↔ name ∈ types.names := by
  obtain ⟨hgrows, -⟩ := doc.grows_draft tree.source
  obtain ⟨-, -, rfl⟩ := build_eq_ok_iff.mp hbuild
  refine ⟨hgrows.closed, fun name => ?_⟩
  rw [hgrows.names_eq, TypeTable.mem_foldl_addNew, mem_mentioned_iff htree hclosed hknown hdoc]
  simp [TypeTable.names]

omit htree hknown in
/-- What is declared above `name` is declared again, in order. -/
theorem superNames_build (hdistinct : ∀ name, (types.superNames name).Nodup) (name : String) :
    types'.superNames name = types.superNames name := by
  obtain ⟨-, heq⟩ := ofTree?_eq_some_iff.mp hdoc
  obtain ⟨hgrows, -⟩ := doc.grows_draft tree.source
  obtain ⟨-, -, rfl⟩ := build_eq_ok_iff.mp hbuild
  have hempty : ({} : TypeTable).superNames name = [] := by
    simp [TypeTable.superNames, TypeTable.lookup?]
  have hdeclared : TypeDocument.declaredAbove doc.types name = types.superNames name := by
    rw [heq]
    exact declaredAbove_typeDocuments hclosed name
  rw [hgrows.superNames_eq, hempty, hdeclared,
    TypeTable.foldl_addNew_of_nodup (by simpa using hdistinct name), List.nil_append]

omit hclosed in
/-- The node `id` is bound again, to types of the same names. -/
theorem bound_build {id : NodeId} (hid : tree.contains id = true) :
    Option.Rel (fun binding binding' => ∃ doc : BindingDocument, binding.Carries types doc ∧
      binding'.Carries types' doc) (types.binding? id) (types'.binding? (htree.inOrder id)) := by
  obtain ⟨hroot, -⟩ := ofTree?_eq_some_iff.mp hdoc
  obtain ⟨-, hbound⟩ := doc.grows_draft tree.source
  obtain ⟨-, -, rfl⟩ := build_eq_ok_iff.mp hbuild
  obtain ⟨i, d, -, hplace, hd, hof⟩ := exists_at htree hroot hid
  obtain ⟨node, -, rfl⟩ := exists_node htree hid hof
  have hrel := hbound i _ hd
  rw [hplace]
  simp only [ofNode] at hrel
  generalize (doc.draft tree.source).types = types' at hrel ⊢
  generalize types'.binding? ⟨i⟩ = found at hrel ⊢
  cases hbinding : types.binding? id with
  | none =>
    rw [hbinding] at hrel
    cases hrel
    exact .none
  | some binding =>
    rw [hbinding] at hrel
    cases hrel with
    | some hcarries => exact .some ⟨_, (hknown id hid binding hbinding).carries, hcarries⟩

/-- **The unit of a document.** The document of `tree` makes the tree with its types again: `tree'`
and `types'` mirror it. -/
theorem mirrors_of_build (hdistinct : ∀ name, (types.superNames name).Nodup) :
    SourceUnit.Mirrors { tree := tree', types := types' } tree types htree.inOrder := by
  obtain ⟨hroot, heq⟩ := ofTree?_eq_some_iff.mp hdoc
  obtain ⟨hclosed', hnames⟩ := names_build htree hclosed hknown hdoc hbuild
  have habove := superNames_build hclosed hdoc hbuild hdistinct
  exact
    { sourceFile := rfl
      numbered := fun i id => htree.inOrder_eq
      renumbered := renumbered_of_build htree hroot hbuild (by rw [heq])
      bound := fun id => bound_build htree hknown hdoc hbuild
      closed := ⟨hclosed, hclosed'⟩
      names := hnames
      above := habove
      assignable := fun a b a' b' below above ha hb ha' hb' => by
        rw [Bool.eq_iff_iff, hclosed'.isAssignable_iff_names ha' hb',
          hclosed.isAssignable_iff_names ha hb]
        simp only [habove] }

end UnitDocument

/-! ## From text to text -/

namespace UnitDocument

open NodeDocument

variable {tree : Tree} {types : TypeTable} {doc : UnitDocument}
variable (htree : tree.Sound) (hnested : tree.Nested) (hdoc : ofTree? tree types = some doc)

include htree hnested hdoc

theorem nests_of_ofTree? : ∀ d ∈ doc.root.preorder, d.Nests tree.source.toList := by
  intro d hd
  obtain ⟨hroot, -⟩ := ofTree?_eq_some_iff.mp hdoc
  obtain ⟨id, hid, hof⟩ := exists_of_mem_preorder htree htree.contains_root hroot hd
  exact nests_of_ofNode? htree hnested hid hof

/-- The document `doc` of `tree` is read back when no node has more than 62 nodes above it, and not
read at all otherwise. -/
theorem parse?_render_cases (hsize : Text.byteSize tree.source.toList ≤ Decode.maxWord) :
    (∀ id, tree.contains id = true → (tree.ancestors id).tail.length ≤ 62) ∧
        parse? doc.render = some doc ∨
      (¬ ∀ id, tree.contains id = true → (tree.ancestors id).tail.length ≤ 62) ∧
        parse? doc.render = none := by
  obtain ⟨hroot, -⟩ := ofTree?_eq_some_iff.mp hdoc
  have hbounded : ∀ d ∈ doc.root.preorder, d.Bounded := fun d hd => by
    have hnests := nests_of_ofTree? htree hnested hdoc d hd
    have hstop := Nat.le_trans hnests.inSource hsize
    exact ⟨Nat.le_trans hnests.forwards hstop, hstop⟩
  have hheight : doc.root.height ≤ 63 ↔
      ∀ id, tree.contains id = true → (tree.ancestors id).tail.length ≤ 62 := by
    rw [height_le_iff htree htree.contains_root hroot, htree.ancestors_root, List.length_singleton]
    constructor
    · intro h id hid
      have hlt := h id (htree.mem_descendants_root hid)
      rw [List.length_tail]
      omega
    · intro h id hid
      have hle := h id (htree.contains_of_mem_descendants htree.contains_root id hid)
      rw [List.length_tail] at hle
      omega
  rw [parse?_render hbounded, ← hheight]
  by_cases h : doc.root.height ≤ 63
  · exact .inl ⟨h, if_pos h⟩
  · exact .inr ⟨h, if_neg h⟩

/-- The document `doc` of `tree` is accepted when it is read. -/
theorem ofText_render_cases (hsize : Text.byteSize tree.source.toList ≤ Decode.maxWord)
    (disk : Disk) (cwd : Place) (base : String) :
    (∀ id, tree.contains id = true → (tree.ancestors id).tail.length ≤ 62) ∧
        (∃ tree' types', doc.build tree.source = .ok (tree', types') ∧
          SourceUnit.ofText disk cwd base doc.render = .ok { tree := tree', types := types' }) ∨
      (¬ ∀ id, tree.contains id = true → (tree.ancestors id).tail.length ≤ 62) ∧
        SourceUnit.ofText disk cwd base doc.render = .error .malformed := by
  obtain ⟨-, heq⟩ := ofTree?_eq_some_iff.mp hdoc
  have hsource : doc.source = some tree.source := by rw [heq]
  have hbuild := build_eq_ok_iff.mpr ⟨nests_of_ofTree? htree hnested hdoc, rfl, rfl⟩
  refine (parse?_render_cases htree hnested hdoc hsize).imp (And.imp_right fun hparse => ?_)
    (And.imp_right fun hparse => ?_)
  · exact ⟨_, _, hbuild, by simp [SourceUnit.ofText, hparse, hsource, hbuild, bind, Except.bind]⟩
  · simp [SourceUnit.ofText, hparse]

end UnitDocument

namespace Snippet

variable {scope : Scope} {source : String} {tree : Tree} {types : TypeTable}

/-- What a parsed snippet is: a `tree` with links that agree and ranges that nest, its nodes bound
to `types` of a table without repeats. -/
theorem facts_of_parse (hscope : scope.Declared) (hparse : parse scope source = .ok (tree, types)) :
    tree.source = source ∧ tree.Sound ∧ tree.Nested ∧ types.Closed ∧
      (∀ name, (types.superNames name).Nodup) ∧ UnitDocument.BindsKnown tree types := by
  obtain ⟨tokens, items, htokens, hitems⟩ := exists_items_of_parse hparse
  obtain ⟨tree', types', hparse', -, rfl, htypes, hshows⟩ :=
    exists_parse hscope.bindings_eq htokens hitems
  obtain ⟨rfl, rfl⟩ := Prod.mk.inj (Except.ok.inj (hparse.symm.trans hparse'))
  have hknown := hscope.known
  have hnested : tree.Nested := by
    have hstands : (unitOutline scope tree.source items).Stands
      (⟨tree.path, tree.source, tree.nodes⟩ : Builder).nodes types none 0 := hshows.stands
    have htree := isTree_of_stands hstands hshows.size (placed_unitOutline htokens hitems)
    have hroot := hshows.root
    obtain ⟨path, source, nodes, root⟩ := tree
    cases hroot
    exact Builder.nested_of_isTree htree
  have hbinds := binds_unitOutline hknown tree.source items
  obtain ⟨typesOf, bindings⟩ := types
  cases htypes
  refine ⟨rfl, hshows.sound, hnested, ⟨hknown.closed.nodup, hknown.closed.known⟩, hknown.distinct,
    fun id hid binding hbinding => ?_⟩
  have h := hshows.known_binding hbinds hid binding hbinding
  exact ⟨h.type, h.owner, h.returns⟩

/-- What is loaded from the document `doc` of a snippet is the snippet but for numbers, which `σ`
translates. -/
theorem exists_mirrors (hscope : scope.Declared) (hparse : parse scope source = .ok (tree, types))
    (hsize : Text.byteSize source.toList ≤ Decode.maxWord) {doc : UnitDocument}
    (hdoc : UnitDocument.ofTree? tree types = some doc) {disk : Disk} {cwd : Place} {base : String}
    {unit : SourceUnit} (hunit : SourceUnit.ofText disk cwd base doc.render = .ok unit) :
    ∃ σ, unit.Mirrors tree types σ := by
  obtain ⟨rfl, htree, hnested, hclosed, hdistinct, hknown⟩ := facts_of_parse hscope hparse
  rcases UnitDocument.ofText_render_cases htree hnested hdoc hsize disk cwd base with
    ⟨-, tree', types', hbuild, hload⟩ | ⟨-, hload⟩
  · rw [hload] at hunit
    cases hunit
    exact ⟨_, UnitDocument.mirrors_of_build htree hclosed hknown hdoc hbuild hdistinct⟩
  · rw [hload] at hunit
    cases hunit

/-- **Snippets as documents.** A parsed snippet has a document `doc`. Rendered, it is loaded exactly
when no node `id` of the snippet has more than 62 nodes above it, and is not read otherwise
(`malformed`). What is loaded, `unit`, is the snippet but for the numbers of its nodes, which are
counted in document order, and of its types (`Mirrors`). The offsets in the text have to be machine
words (`hsize`), as they are in any text that fits a machine. -/
theorem mirrors_of_render (hscope : scope.Declared)
    (hparse : parse scope source = .ok (tree, types))
    (hsize : Text.byteSize source.toList ≤ Decode.maxWord) (disk : Disk) (cwd : Place)
    (base : String) : ∃ doc, UnitDocument.ofTree? tree types = some doc ∧
      ((∃ unit, SourceUnit.ofText disk cwd base doc.render = .ok unit) ↔
        ∀ id, tree.contains id = true → (tree.ancestors id).tail.length ≤ 62) ∧
      (∀ e, SourceUnit.ofText disk cwd base doc.render = .error e → e = .malformed) ∧
      ∀ unit, SourceUnit.ofText disk cwd base doc.render = .ok unit →
        ∃ σ, unit.Mirrors tree types σ := by
  obtain ⟨hsource, htree, hnested, -, -, -⟩ := facts_of_parse hscope hparse
  obtain ⟨doc, hdoc⟩ := UnitDocument.exists_ofTree? htree types
  refine ⟨doc, hdoc, ?_, ?_, fun unit => exists_mirrors hscope hparse hsize hdoc⟩
  all_goals
    rcases UnitDocument.ofText_render_cases htree hnested hdoc (hsource ▸ hsize) disk cwd base with
      ⟨hdepth, tree', types', -, hload⟩ | ⟨hdepth, hload⟩
  · exact ⟨fun _ => hdepth, fun _ => ⟨_, hload⟩⟩
  · refine ⟨fun ⟨_, hunit⟩ => ?_, fun h => (hdepth h).elim⟩
    rw [hload] at hunit
    cases hunit
  · intro e he
    rw [hload] at he
    cases he
  · intro e he
    rw [hload] at he
    cases he
    rfl

/-- A scope with one variable, `a`. -/
def lone : Scope := Scope.basic.addLocal "a" "int"

theorem declared_lone : lone.Declared := .addLocal _ _ .basic

/-- A snippet of few nodes (`hfew`) is not deep. -/
theorem depth_le_of_size (hscope : scope.Declared) {tokens : List SnippetToken} {items : List Item}
    (htokens : SnippetToken.ofText source = .ok tokens)
    (hitems : Item.ofTokens scope.isType tokens = .ok items)
    (hfew : (unitOutline scope source items).size ≤ 63)
    (hparse : parse scope source = .ok (tree, types)) :
    ∀ id, tree.contains id = true → (tree.ancestors id).tail.length ≤ 62 := by
  obtain ⟨tree', types', hparse', -, -, -, hshows⟩ :=
    exists_parse hscope.bindings_eq htokens hitems
  obtain ⟨rfl, rfl⟩ := Prod.mk.inj (Except.ok.inj (hparse.symm.trans hparse'))
  intro id hid
  have hle := hshows.sound.length_ancestors_le hid
  rw [Tree.size, hshows.size] at hle
  rw [List.length_tail]
  omega

/-- The variable `a` that stands alone. -/
theorem exists_parse_lone : ∃ tree types, parse lone "a;" = .ok (tree, types) ∧
    ∀ id, tree.contains id = true → (tree.ancestors id).tail.length ≤ 62 := by
  have htokens : SnippetToken.ofText "a;" =
      .ok [⟨.name, ⟨0, 1⟩, "a"⟩, ⟨.mark ';', ⟨1, 2⟩, ";"⟩] := by decide +kernel
  have hitems : ∀ isType : String → Bool,
      Item.ofTokens isType [⟨.name, ⟨0, 1⟩, "a"⟩, ⟨.mark ';', ⟨1, 2⟩, ";"⟩] =
        .ok [.evaluate (.name "a" ⟨0, 1⟩) 2] := fun isType => by cbv
  obtain ⟨tree, types, hparse, -⟩ := exists_parse declared_lone.bindings_eq htokens (hitems _)
  refine ⟨tree, types, hparse, depth_le_of_size declared_lone htokens (hitems _) ?_ hparse⟩
  simp [unitOutline, Item.outlines, Item.outline, Expr.outline, Outline.reference, Outline.size,
    Outline.sizeAll]

theorem mirrors_of_render_lone : ∃ tree types doc unit σ,
    parse lone "a;" = .ok (tree, types) ∧ Text.byteSize "a;".toList ≤ Decode.maxWord ∧
      UnitDocument.ofTree? tree types = some doc ∧
      SourceUnit.ofText default default "" doc.render = .ok unit ∧ unit.Mirrors tree types σ := by
  obtain ⟨tree, types, hparse, hdepth⟩ := exists_parse_lone
  have hsize : Text.byteSize "a;".toList ≤ Decode.maxWord := by decide
  obtain ⟨doc, hdoc, hloads, -, hmirrors⟩ :=
    mirrors_of_render declared_lone hparse hsize default default ""
  obtain ⟨unit, hunit⟩ := hloads.mpr hdepth
  obtain ⟨σ, hσ⟩ := hmirrors unit hunit
  exact ⟨tree, types, doc, unit, σ, hparse, hsize, hdoc, hunit, hσ⟩

end Snippet

end TreeLint
