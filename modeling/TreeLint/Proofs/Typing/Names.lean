import Mathlib.Data.List.Basic
import TreeLint.Proofs.Typing.Above
import TreeLint.Unit.Load

/-!
# Types by name

The handle of a type says when its name was first mentioned, and nothing else. A table is seen here
as what does not depend on that: its names, and for each name those declared right above it. Every
operation adds names to such lists, each unless the list has it.

- `TypeTable.names`, `TypeTable.superNames`: a table by names. `TypeTable.Closed`: no name has two
  handles, and supertypes are types of the table.
- `intern_spec`, `addSupertype_spec`: the steps. `declare_spec`, `bindDocument_spec`: the runs.
- `isAssignable_iff_names`: types are assignable along the names declared.
-/

namespace TreeLint

namespace TypeTable

/-! ## Adding names to a list -/

/-- The list `names` with one more `name` at its end, unless the list has it. -/
def addNew (names : List String) (name : String) : List String :=
  if name ∈ names then names else names ++ [name]

theorem mem_foldl_addNew {names more : List String} {x : String} :
    x ∈ more.foldl addNew names ↔ x ∈ names ∨ x ∈ more := by
  induction more generalizing names with
  | nil => simp
  | cons name more ih =>
    have hstep : x ∈ addNew names name ↔ x ∈ names ∨ x = name := by
      unfold addNew
      split
      · rename_i hmem
        exact ⟨.inl, fun h => h.elim id (· ▸ hmem)⟩
      · simp
    rw [List.foldl_cons, ih, hstep, List.mem_cons, or_assoc]

theorem prefix_foldl_addNew (names more : List String) : names <+: more.foldl addNew names := by
  induction more generalizing names with
  | nil => exact List.prefix_rfl
  | cons name more ih =>
    refine List.IsPrefix.trans ?_ (ih (addNew names name))
    unfold addNew
    split
    · exact List.prefix_rfl
    · exact List.prefix_append names [name]

theorem nodup_addNew {names : List String} (h : names.Nodup) (name : String) :
    (addNew names name).Nodup := by
  unfold addNew
  split
  · exact h
  · rename_i hnot
    refine List.nodup_append.mpr ⟨h, by simp, ?_⟩
    simpa using fun a ha => ne_of_mem_of_not_mem ha hnot

/-- Names `more` without repeats are added as they stand. -/
theorem foldl_addNew_of_nodup {names more : List String} (h : (names ++ more).Nodup) :
    more.foldl addNew names = names ++ more := by
  induction more generalizing names with
  | nil => simp
  | cons name more ih =>
    have hnot : name ∉ names := fun hmem => by
      have := (List.nodup_append.mp h).2.2 name hmem name List.mem_cons_self
      exact this rfl
    rw [List.append_cons] at h
    rw [List.foldl_cons, addNew, if_neg hnot, ih h, List.append_assoc, List.singleton_append]

/-! ## A table by names -/

/-- The names of all types of `table`, in the order of their handles. -/
def names (table : TypeTable) : List String := table.types.toList.map TypeInfo.name

/-- The names declared right above `name`, in order. -/
def superNames (table : TypeTable) (name : String) : List String :=
  (((table.lookup? name).map table.supertypes).getD []).filterMap table.typeName?

/-- No name has two handles, and what is declared right above a type is a type of `table`. -/
structure Closed (table : TypeTable) : Prop where
  nodup : table.names.Nodup
  known : ∀ {type super}, super ∈ table.supertypes type → ∃ name, table.typeName? super = some name

variable {table table' : TypeTable} {type super : TypeId} {name : String}

theorem typeName?_eq_getElem? (table : TypeTable) (type : TypeId) :
    table.typeName? type = table.names[type.index]? := by
  simp [typeName?, names]

theorem typeName?_mono (h : table.names <+: table'.names)
    (htype : table.typeName? type = some name) : table'.typeName? type = some name := by
  rw [typeName?_eq_getElem?] at htype ⊢
  obtain ⟨rest, hrest⟩ := h
  rw [← hrest, List.getElem?_append_left (List.getElem?_eq_some_iff.mp htype).1, htype]

theorem mem_names_iff : name ∈ table.names ↔ ∃ type, table.typeName? type = some name := by
  simp only [typeName?_eq_getElem?, List.mem_iff_getElem?]
  exact ⟨fun ⟨i, h⟩ => ⟨⟨i⟩, h⟩, fun ⟨type, h⟩ => ⟨type.index, h⟩⟩

theorem lookup?_eq_idxOf? (table : TypeTable) (name : String) :
    table.lookup? name = (table.names.idxOf? name).map TypeId.mk := by
  obtain ⟨⟨types⟩, bindings⟩ := table
  rw [lookup?, List.findIdx?_toArray, names, List.idxOf?, List.findIdx?_map]
  rfl

theorem lookup?_eq_none_iff : table.lookup? name = none ↔ name ∉ table.names := by
  rw [lookup?_eq_idxOf?, Option.map_eq_none_iff, List.idxOf?_eq_none_iff]

theorem typeName?_of_lookup? (h : table.lookup? name = some type) :
    table.typeName? type = some name := by
  rw [lookup?_eq_idxOf?] at h
  obtain ⟨i, hi, rfl⟩ := Option.map_eq_some_iff.mp h
  obtain ⟨hlt, hname, -⟩ := List.idxOf?_eq_some_iff.mp hi
  rw [typeName?_eq_getElem?, List.getElem?_eq_getElem hlt, hname]

/-- A `type` above which another is declared is a type of the table. -/
theorem exists_typeName?_of_mem_supertypes (h : super ∈ table.supertypes type) :
    ∃ name, table.typeName? type = some name := by
  cases hinfo : table.types[type.index]? with
  | none => simp [supertypes, hinfo] at h
  | some info => exact ⟨info.name, by rw [typeName?, hinfo]; rfl⟩

namespace Closed

variable (h : table.Closed)

include h

theorem typeName?_inj {a b : TypeId} (ha : table.typeName? a = some name)
    (hb : table.typeName? b = some name) : a = b := by
  rw [typeName?_eq_getElem?] at ha hb
  have hlt := (List.getElem?_eq_some_iff.mp ha).1
  have hindex := (List.getElem?_inj hlt h.nodup).mp (ha.trans hb.symm)
  cases a
  exact congrArg TypeId.mk hindex

theorem lookup?_eq_some_iff :
    table.lookup? name = some type ↔ table.typeName? type = some name := by
  refine ⟨typeName?_of_lookup?, fun htype => ?_⟩
  cases hlookup : table.lookup? name with
  | none => exact (lookup?_eq_none_iff.mp hlookup (mem_names_iff.mpr ⟨type, htype⟩)).elim
  | some found => rw [h.typeName?_inj (typeName?_of_lookup? hlookup) htype]

theorem superNames_eq (htype : table.typeName? type = some name) :
    table.superNames name = (table.supertypes type).filterMap table.typeName? := by
  rw [superNames, h.lookup?_eq_some_iff.mpr htype]
  rfl

/-- The name `above` is declared right above `name` when one type is right above another of those
names. -/
theorem mem_superNames_iff {above : String} : above ∈ table.superNames name ↔
    ∃ type super, table.typeName? type = some name ∧ super ∈ table.supertypes type ∧
      table.typeName? super = some above := by
  constructor
  · intro hmem
    cases hlookup : table.lookup? name with
    | none => simp [superNames, hlookup] at hmem
    | some type =>
      have htype := typeName?_of_lookup? hlookup
      rw [h.superNames_eq htype, List.mem_filterMap] at hmem
      obtain ⟨super, hsuper, habove⟩ := hmem
      exact ⟨type, super, htype, hsuper, habove⟩
  · rintro ⟨type, super, htype, hsuper, habove⟩
    rw [h.superNames_eq htype]
    exact List.mem_filterMap.mpr ⟨super, hsuper, habove⟩

/-- The type `super` is declared right above `type` when its name is right above that of `type`. -/
theorem mem_supertypes_iff {above : String} (htype : table.typeName? type = some name)
    (hsuper : table.typeName? super = some above) :
    super ∈ table.supertypes type ↔ above ∈ table.superNames name := by
  rw [h.mem_superNames_iff]
  constructor
  · exact fun hmem => ⟨type, super, htype, hmem, hsuper⟩
  · rintro ⟨type', super', htype', hmem, hsuper'⟩
    rwa [h.typeName?_inj htype htype', h.typeName?_inj hsuper hsuper']

/-- Supertypes lead from `source` to `target` as their names do. -/
theorem above_iff_names {source target : TypeId} {below above : String}
    (hsource : table.typeName? source = some below)
    (htarget : table.typeName? target = some above) : table.Above source target ↔
      Relation.ReflTransGen (fun x y => y ∈ table.superNames x) below above := by
  constructor
  · intro hway
    induction hway generalizing above with
    | refl =>
      rw [hsource] at htarget
      cases htarget
      exact .refl
    | @tail type super _ hsuper ih =>
      obtain ⟨name, htype⟩ := exists_typeName?_of_mem_supertypes hsuper
      exact (ih htype).tail (h.mem_superNames_iff.mpr ⟨type, super, htype, hsuper, htarget⟩)
  · intro hway
    induction hway generalizing target with
    | refl => rw [h.typeName?_inj hsource htarget]; exact .refl
    | tail _ hmem ih =>
      obtain ⟨type, super, htype, hsuper, habove⟩ := h.mem_superNames_iff.mp hmem
      rw [← h.typeName?_inj habove htarget]
      exact (ih htype).tail hsuper

/-- The type `source` is assignable to `target` exactly when declared names lead from one to the
other. -/
theorem isAssignable_iff_names {source target : TypeId} {below above : String}
    (hsource : table.typeName? source = some below)
    (htarget : table.typeName? target = some above) : table.isAssignable source target = true ↔
      Relation.ReflTransGen (fun x y => y ∈ table.superNames x) below above := by
  rw [isAssignable_iff, h.above_iff_names hsource htarget]

end Closed

/-! ## Steps -/

theorem closed_empty : ({} : TypeTable).Closed :=
  ⟨List.nodup_nil, fun h => by simp [supertypes] at h⟩

theorem names_push (table : TypeTable) (name : String) :
    ({ table with types := table.types.push { name } } : TypeTable).names =
      table.names ++ [name] := by
  simp [names]

theorem supertypes_push (table : TypeTable) (name : String) (type : TypeId) :
    ({ table with types := table.types.push { name } } : TypeTable).supertypes type =
      table.supertypes type := by
  simp only [supertypes, Array.getElem?_push]
  split
  · rename_i hindex
    simp [hindex]
  · rfl

/-- What operations that mention the names `more` make of a table when they declare the names
`above x` right above each name `x`. -/
structure Grows (table table' : TypeTable) (more : List String) (above : String → List String) :
    Prop where
  closed : table'.Closed
  names_eq : table'.names = more.foldl addNew table.names
  superNames_eq : ∀ x, table'.superNames x = (above x).foldl addNew (table.superNames x)

namespace Grows

variable {table'' : TypeTable} {more more' : List String} {above above' : String → List String}

theorem refl (h : table.Closed) : Grows table table [] fun _ => [] := ⟨h, rfl, fun _ => rfl⟩

theorem trans (h : Grows table table' more above) (h' : Grows table' table'' more' above') :
    Grows table table'' (more ++ more') fun x => above x ++ above' x := by
  refine ⟨h'.closed, ?_, fun x => ?_⟩
  · rw [h'.names_eq, h.names_eq, List.foldl_append]
  · rw [h'.superNames_eq, h.superNames_eq, List.foldl_append]

theorem prefix_names (h : Grows table table' more above) : table.names <+: table'.names :=
  h.names_eq ▸ prefix_foldl_addNew table.names more

theorem typeName?_eq (h : Grows table table' more above)
    (htype : table.typeName? type = some name) : table'.typeName? type = some name :=
  typeName?_mono h.prefix_names htype

end Grows

/-- A new `name` gets the next handle. Those of the other names stay, and nothing is above it. -/
theorem grows_push (h : table.Closed) (hnot : name ∉ table.names) :
    Grows table { table with types := table.types.push { name } } [name] fun _ => [] := by
  have hnames := names_push table name
  have hsupers := supertypes_push table name
  have hnew : ({ table with types := table.types.push { name } } : TypeTable).typeName?
      ⟨table.types.size⟩ = some name := by simp [typeName?]
  generalize ({ table with types := table.types.push { name } } : TypeTable) = table' at *
  have hpre : table.names <+: table'.names := hnames ▸ List.prefix_append table.names [name]
  have hadd : addNew table.names name = table.names ++ [name] := if_neg hnot
  have hclosed : table'.Closed := by
    refine ⟨by rw [hnames, ← hadd]; exact nodup_addNew h.nodup name, fun {type super} hsuper => ?_⟩
    rw [hsupers] at hsuper
    obtain ⟨above, habove⟩ := h.known hsuper
    exact ⟨above, typeName?_mono hpre habove⟩
  refine ⟨hclosed, by rw [hnames, ← hadd]; rfl, fun x => ?_⟩
  rw [List.foldl_nil]
  cases hx : table.lookup? x with
  | some type =>
    have htype := typeName?_of_lookup? hx
    rw [hclosed.superNames_eq (typeName?_mono hpre htype), h.superNames_eq htype, hsupers]
    refine List.filterMap_congr fun super hsuper => ?_
    obtain ⟨above, habove⟩ := h.known hsuper
    rw [habove, typeName?_mono hpre habove]
  | none =>
    rw [superNames.eq_def table, hx]
    by_cases hxname : x = name
    · rw [hxname, hclosed.superNames_eq hnew, hsupers]
      simp [supertypes]
    · have hxnot : x ∉ table'.names := by
        simp [hnames, lookup?_eq_none_iff.mp hx, hxname]
      rw [superNames, lookup?_eq_none_iff.mpr hxnot]
      rfl

/-- The `name` gets a handle, and nothing is declared above it. -/
theorem intern_spec (h : table.Closed) (name : String) :
    Grows table (table.intern name).2 [name] (fun _ => []) ∧
      (table.intern name).2.typeName? (table.intern name).1 = some name := by
  unfold intern
  cases hlookup : table.lookup? name with
  | some type =>
    have htype := typeName?_of_lookup? hlookup
    have hmem : name ∈ table.names := mem_names_iff.mpr ⟨type, htype⟩
    exact ⟨⟨h, by simp [addNew, hmem], fun _ => rfl⟩, htype⟩
  | none => exact ⟨grows_push h (lookup?_eq_none_iff.mp hlookup), by simp [typeName?]⟩

theorem bindings_intern (table : TypeTable) (name : String) :
    (table.intern name).2.bindings = table.bindings := by
  unfold intern
  split <;> rfl

theorem names_addSupertype (table : TypeTable) (type super : TypeId) :
    (table.addSupertype type super).names = table.names := by
  refine List.ext_getElem? fun i => ?_
  simp only [names, addSupertype, List.getElem?_map, Array.getElem?_toList, Array.getElem?_modify]
  split
  · cases table.types[i]? with
    | none => rfl
    | some info =>
      simp only [Option.map_some]
      split <;> rfl
  · rfl

theorem supertypes_addSupertype {info : TypeInfo} (hinfo : table.types[type.index]? = some info)
    (super other : TypeId) : (table.addSupertype type super).supertypes other =
      if other = type then
        if super ∈ table.supertypes type then table.supertypes type
        else table.supertypes type ++ [super]
      else table.supertypes other := by
  have hindex : type.index = other.index ↔ other = type := by
    cases type
    cases other
    simp [eq_comm]
  simp only [supertypes, addSupertype, Array.getElem?_modify, hindex]
  split
  · rename_i hother
    rw [hother]
    simp only [hinfo, Option.map_some, Option.getD_some]
    split <;> rfl
  · rfl

theorem typeName?_addSupertype (table : TypeTable) (type super other : TypeId) :
    (table.addSupertype type super).typeName? other = table.typeName? other := by
  rw [typeName?_eq_getElem?, typeName?_eq_getElem?, names_addSupertype]

theorem Closed.addSupertype (h : table.Closed) (htype : table.typeName? type = some name)
    {above : String} (hsuper : table.typeName? super = some above) :
    (table.addSupertype type super).Closed := by
  refine ⟨names_addSupertype table type super ▸ h.nodup, fun {other above'} hmem => ?_⟩
  obtain ⟨info, hinfo, -⟩ := Option.map_eq_some_iff.mp htype
  rw [typeName?_addSupertype]
  rw [supertypes_addSupertype hinfo] at hmem
  split at hmem
  · split at hmem
    · exact h.known hmem
    · rcases List.mem_append.mp hmem with hmem | hmem
      · exact h.known hmem
      · rw [List.mem_singleton.mp hmem]
        exact ⟨above, hsuper⟩
  · exact h.known hmem

/-- The name `above` is declared right above `name`, unless it is already. -/
theorem addSupertype_spec (h : table.Closed) {above : String}
    (htype : table.typeName? type = some name) (hsuper : table.typeName? super = some above) :
    Grows table (table.addSupertype type super) [] fun x => if x = name then [above] else [] := by
  have hclosed := h.addSupertype htype hsuper
  have hnames := names_addSupertype table type super
  have hname := typeName?_addSupertype table type super
  obtain ⟨info, hinfo, -⟩ := Option.map_eq_some_iff.mp htype
  refine ⟨hclosed, hnames, fun x => ?_⟩
  cases hx : table.lookup? x with
  | none =>
    have hxnot := lookup?_eq_none_iff.mp hx
    have hne : x ≠ name := fun heq => hxnot (heq ▸ mem_names_iff.mpr ⟨type, htype⟩)
    rw [superNames, superNames, hx, lookup?_eq_none_iff.mpr (hnames.symm ▸ hxnot)]
    simp [hne]
  | some other =>
    have hother := typeName?_of_lookup? hx
    rw [hclosed.superNames_eq ((hname other).trans hother), h.superNames_eq hother, funext hname,
      supertypes_addSupertype hinfo]
    by_cases heq : x = name
    · subst heq
      obtain rfl := h.typeName?_inj hother htype
      have hmem := h.mem_supertypes_iff htype hsuper
      rw [h.superNames_eq hother] at hmem
      simp only [if_true, List.foldl_cons, List.foldl_nil, addNew, hmem]
      split
      · rfl
      · simp [List.filterMap_append, hsuper]
    · have hne : other ≠ type := fun hot => heq (by
        rw [hot, htype] at hother
        exact (Option.some.inj hother).symm)
      simp [hne, heq]

theorem bindings_addSupertype (table : TypeTable) (type super : TypeId) :
    (table.addSupertype type super).bindings = table.bindings := rfl

/-! ## Runs -/

theorem declareSupertypes_spec (h : table.Closed) (htype : table.typeName? type = some name)
    (above : List String) : Grows table (table.declareSupertypes type above) above
      (fun x => if x = name then above else []) ∧
      (table.declareSupertypes type above).bindings = table.bindings := by
  induction above generalizing table with
  | nil => exact ⟨by simpa [declareSupertypes] using Grows.refl h, rfl⟩
  | cons super above ih =>
    rw [declareSupertypes]
    obtain ⟨hintern, hsuper⟩ := intern_spec h super
    have hadd := addSupertype_spec hintern.closed (hintern.typeName?_eq htype) hsuper
    obtain ⟨hrest, hbindings⟩ := ih hadd.closed (hadd.typeName?_eq (hintern.typeName?_eq htype))
    refine ⟨?_, by rw [hbindings, bindings_addSupertype, bindings_intern]⟩
    have hall := (hintern.trans hadd).trans hrest
    refine ⟨hall.closed, by simpa using hall.names_eq, fun x => ?_⟩
    rw [hall.superNames_eq]
    by_cases hx : x = name <;> simp [hx]

end TypeTable

/-- The names that the declaration `doc` mentions. -/
def TypeDocument.mentioned (doc : TypeDocument) : List String := doc.name :: doc.supertypes

/-- The names that the binding `doc` mentions. -/
def BindingDocument.mentioned (doc : BindingDocument) : List String :=
  doc.type.toList ++ doc.owner.toList ++ doc.returns.toList

/-- The names that the declarations `docs` put right above `name`, in order. -/
def TypeDocument.declaredAbove (docs : List TypeDocument) (name : String) : List String :=
  (docs.filter fun doc => doc.name = name).flatMap TypeDocument.supertypes

/-- The `binding` says what `doc` says, with types in the place of their names. -/
structure Binding.Carries (types : TypeTable) (binding : Binding) (doc : BindingDocument) :
    Prop where
  kind : binding.kind = doc.kind
  type : binding.type.map types.typeName? = doc.type.map some
  owner : binding.owner.map types.typeName? = doc.owner.map some
  returns : binding.returns.map types.typeName? = doc.returns.map some

namespace TypeTable

variable {table table' : TypeTable} {type super : TypeId} {name : String}

/-- Every declaration of `docs` counts, however often its name is declared. -/
theorem declare_spec (h : table.Closed) (docs : List TypeDocument) :
    Grows table (table.declare docs) (docs.flatMap TypeDocument.mentioned)
      (TypeDocument.declaredAbove docs) ∧ (table.declare docs).bindings = table.bindings := by
  induction docs generalizing table with
  | nil => exact ⟨Grows.refl h, rfl⟩
  | cons doc docs ih =>
    rw [declare]
    obtain ⟨hintern, htype⟩ := intern_spec h doc.name
    obtain ⟨hsupers, hkept⟩ := declareSupertypes_spec hintern.closed htype doc.supertypes
    obtain ⟨hrest, hbindings⟩ := ih hsupers.closed
    refine ⟨?_, by rw [hbindings, hkept, bindings_intern]⟩
    have hall := (hintern.trans hsupers).trans hrest
    refine ⟨hall.closed, by simpa [TypeDocument.mentioned] using hall.names_eq, fun x => ?_⟩
    rw [hall.superNames_eq]
    by_cases hx : doc.name = x
    · simp [TypeDocument.declaredAbove, hx]
    · simp [TypeDocument.declaredAbove, hx, Ne.symm hx]

theorem map_typeName?_mono (h : table.names <+: table'.names) {type : Option TypeId}
    {name : Option String} (htype : type.map table.typeName? = name.map some) :
    type.map table'.typeName? = name.map some := by
  cases type with
  | none => exact htype
  | some type =>
    cases name with
    | none => cases htype
    | some name => exact congrArg some (typeName?_mono h (Option.some.inj htype))

theorem internOptional_spec (h : table.Closed) (name : Option String) :
    Grows table (table.internOptional name).2 name.toList (fun _ => []) ∧
      (table.internOptional name).1.map (table.internOptional name).2.typeName? = name.map some ∧
      (table.internOptional name).2.bindings = table.bindings := by
  cases name with
  | none => exact ⟨Grows.refl h, rfl, rfl⟩
  | some name =>
    obtain ⟨hintern, htype⟩ := intern_spec h name
    exact ⟨hintern, congrArg some htype, bindings_intern table name⟩

/-- The `node` is bound as `doc` says, and all others as before. -/
theorem bindDocument_spec (h : table.Closed) (node : NodeId) (doc : BindingDocument) :
    Grows table (table.bindDocument node doc) doc.mentioned (fun _ => []) ∧
      ∃ binding : Binding, binding.Carries (table.bindDocument node doc) doc ∧
        (table.bindDocument node doc).bindings = table.bindings.insert node binding := by
  obtain ⟨htype, htypes, hkept₁⟩ := internOptional_spec h doc.type
  obtain ⟨howner, howners, hkept₂⟩ := internOptional_spec htype.closed doc.owner
  obtain ⟨hreturns, hreturned, hkept₃⟩ := internOptional_spec howner.closed doc.returns
  have hall := (htype.trans howner).trans hreturns
  refine ⟨⟨⟨hall.closed.nodup, hall.closed.known⟩, hall.names_eq, hall.superNames_eq⟩, ?_⟩
  let typed := table.internOptional doc.type
  let owned := typed.2.internOptional doc.owner
  let returned := owned.2.internOptional doc.returns
  refine ⟨⟨doc.kind, typed.1, owned.1, returned.1⟩, ⟨rfl, ?_, ?_, ?_⟩, ?_⟩
  · exact map_typeName?_mono (howner.trans hreturns).prefix_names htypes
  · exact map_typeName?_mono hreturns.prefix_names howners
  · exact hreturned
  · exact congrArg (Assoc.insert node _) (hkept₃.trans (hkept₂.trans hkept₁))

end TypeTable

/-- What is carried stays so when more names get handles, in `table'`. -/
theorem Binding.Carries.mono {table table' : TypeTable} (h : table.names <+: table'.names)
    {binding : Binding} {doc : BindingDocument} (hcarries : binding.Carries table doc) :
    binding.Carries table' doc :=
  ⟨hcarries.kind, TypeTable.map_typeName?_mono h hcarries.type,
    TypeTable.map_typeName?_mono h hcarries.owner,
    TypeTable.map_typeName?_mono h hcarries.returns⟩

end TreeLint
