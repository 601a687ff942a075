import TreeLint.Proofs.Tree.Renumbering
import TreeLint.Proofs.Typing.Names

/-!
# Type facts up to the numbers of types

Two tables are the same up to the numbers of their types when a renumbering keeps names, what is
declared right above, and what the nodes of a tree are bound to. The order in which types are
declared above another may differ: it has no part in what is assignable.

- `TypeTable.Renumbered`: the tables are equal up to a renumbering.
- `Renumbered.isAssignable`: what is assignable in one is so in the other.
- `exists_renumbered_of_names`: tables that are equal by names are equal up to a renumbering.
-/

namespace TreeLint

/-- The `binding` with `τ` applied to its types. -/
def Binding.renumber (τ : TypeId ≃ TypeId) (binding : Binding) : Binding :=
  { binding with
    type := binding.type.map τ, owner := binding.owner.map τ
    returns := binding.returns.map τ }

namespace TypeTable

/-- The tables are equal but for the numbers of their types, `τ`, and the numbers of the nodes of
`tree`, `σ`. -/
structure Renumbered (tree : Tree) (σ : NodeId ≃ NodeId) (τ : TypeId ≃ TypeId)
    (table table' : TypeTable) : Prop where
  name : ∀ type, table'.typeName? (τ type) = table.typeName? type
  above : ∀ type super, τ super ∈ table'.supertypes (τ type) ↔ super ∈ table.supertypes type
  bound : ∀ id, tree.contains id = true →
    table'.binding? (σ id) = (table.binding? id).map (Binding.renumber τ)

variable {tree : Tree} {σ : NodeId ≃ NodeId} {table table' : TypeTable}

namespace Renumbered

/-- A `table` is what it is under the numbers that are there. -/
theorem refl (tree : Tree) (table : TypeTable) :
    Renumbered tree (Equiv.refl NodeId) (Equiv.refl TypeId) table table where
  name _ := rfl
  above _ _ := Iff.rfl
  bound node _ := by
    have hsame : Binding.renumber (Equiv.refl TypeId) = id := funext fun binding => by
      simp [Binding.renumber]
    rw [hsame, Option.map_id]
    rfl

variable {τ : TypeId ≃ TypeId} (h : Renumbered tree σ τ table table') {id : NodeId}

include h

theorem isAssignable (source target : TypeId) :
    table'.isAssignable (τ source) (τ target) = table.isAssignable source target := by
  rw [Bool.eq_iff_iff, isAssignable_iff, isAssignable_iff]
  constructor
  · intro hway
    have hback : table.Above (τ.symm (τ source)) (τ.symm (τ target)) :=
      hway.lift τ.symm fun type super hsuper => by
        change τ.symm super ∈ table.supertypes (τ.symm type)
        rwa [← h.above, τ.apply_symm_apply, τ.apply_symm_apply]
    rwa [τ.symm_apply_apply, τ.symm_apply_apply] at hback
  · intro hway
    exact hway.lift τ fun type super hsuper => (h.above type super).mpr hsuper

variable (hid : tree.contains id = true)

include hid

theorem typeOf? : table'.typeOf? (σ id) = (table.typeOf? id).map τ := by
  rw [TypeTable.typeOf?, TypeTable.typeOf?, h.bound id hid]
  cases table.binding? id <;> rfl

theorem ownerOf? : table'.ownerOf? (σ id) = (table.ownerOf? id).map τ := by
  rw [TypeTable.ownerOf?, TypeTable.ownerOf?, h.bound id hid]
  cases table.binding? id <;> rfl

theorem returnsOf? : table'.returnsOf? (σ id) = (table.returnsOf? id).map τ := by
  rw [TypeTable.returnsOf?, TypeTable.returnsOf?, h.bound id hid]
  cases table.binding? id <;> rfl

end Renumbered

/-! ## Equal by names -/

/-- The type of `table'` with the name that `type` has in `table`; a type without a name stays. -/
def matching (table table' : TypeTable) (type : TypeId) : TypeId :=
  ((table.typeName? type).bind table'.lookup?).getD type

section

variable (hclosed : table.Closed) (hclosed' : table'.Closed)
variable (hnames : ∀ name, name ∈ table'.names ↔ name ∈ table.names)

include hclosed hclosed' hnames

theorem typeName?_matching (type : TypeId) :
    table'.typeName? (table.matching table' type) = table.typeName? type := by
  unfold matching
  cases htype : table.typeName? type with
  | some name =>
    obtain ⟨type', htype'⟩ := mem_names_iff.mp ((hnames name).mpr (mem_names_iff.mpr ⟨type, htype⟩))
    rw [Option.bind_some, hclosed'.lookup?_eq_some_iff.mpr htype', Option.getD_some, htype']
  | none =>
    -- Both tables have the same number of types, so the place is outside of both.
    have hperm := (List.perm_ext_iff_of_nodup hclosed'.nodup hclosed.nodup).mpr hnames
    rw [typeName?_eq_getElem?, List.getElem?_eq_none_iff, ← hperm.length_eq] at htype
    rw [Option.bind_none, Option.getD_none, typeName?_eq_getElem?, List.getElem?_eq_none_iff]
    exact htype

theorem matching_matching (type : TypeId) :
    table'.matching table (table.matching table' type) = type := by
  have hname := typeName?_matching hclosed hclosed' hnames type
  cases htype : table.typeName? type with
  | some name =>
    rw [htype] at hname
    rw [matching, hname, Option.bind_some, hclosed.lookup?_eq_some_iff.mpr htype, Option.getD_some]
  | none =>
    rw [htype] at hname
    rw [matching, hname, Option.bind_none, Option.getD_none, matching, htype, Option.bind_none,
      Option.getD_none]

/-- The renumbering of types by their names, from `table` to `table'`. -/
def byName : TypeId ≃ TypeId where
  toFun := table.matching table'
  invFun := table'.matching table
  left_inv := matching_matching hclosed hclosed' hnames
  right_inv := matching_matching hclosed' hclosed fun name => (hnames name).symm

theorem typeName?_byName (type : TypeId) :
    table'.typeName? (byName hclosed hclosed' hnames type) = table.typeName? type :=
  typeName?_matching hclosed hclosed' hnames type

/-- Types `type` and `type'` with one `name` are each other's match. -/
theorem byName_eq {type type' : TypeId} {name : String} (htype : table.typeName? type = some name)
    (htype' : table'.typeName? type' = some name) :
    byName hclosed hclosed' hnames type = type' :=
  hclosed'.typeName?_inj ((typeName?_byName hclosed hclosed' hnames type).trans htype) htype'

/-- A `binding'` that carries what `binding` carries, with types of `table'`, is the other with
other numbers. -/
theorem renumber_of_carries {binding binding' : Binding} {doc : BindingDocument}
    (h : binding.Carries table doc) (h' : binding'.Carries table' doc) :
    binding' = binding.renumber (byName hclosed hclosed' hnames) := by
  have hmap : ∀ {type type' : Option TypeId} {name : Option String},
      type.map table.typeName? = name.map some → type'.map table'.typeName? = name.map some →
      type' = type.map (byName hclosed hclosed' hnames) := by
    intro type type' name htype htype'
    cases name with
    | none =>
      rw [Option.map_none, Option.map_eq_none_iff] at htype htype'
      rw [htype, htype', Option.map_none]
    | some name =>
      obtain ⟨t, rfl, ht⟩ := Option.map_eq_some_iff.mp htype
      obtain ⟨t', rfl, ht'⟩ := Option.map_eq_some_iff.mp htype'
      rw [Option.map_some, byName_eq hclosed hclosed' hnames ht ht']
  rw [Binding.renumber, ← hmap h.type h'.type, ← hmap h.owner h'.owner,
    ← hmap h.returns h'.returns, h.kind, ← h'.kind]

/-- Tables are equal up to a renumbering `τ` when they have the same names, the same names declared
right above each (`habove`), and bind nodes to types of the same names (`hbound`). -/
theorem exists_renumbered_of_names
    (habove : ∀ name above, above ∈ table'.superNames name ↔ above ∈ table.superNames name)
    (hbound : ∀ id, tree.contains id = true → Option.Rel
      (fun binding binding' => ∃ doc : BindingDocument, binding.Carries table doc ∧
        binding'.Carries table' doc) (table.binding? id) (table'.binding? (σ id))) :
    ∃ τ, Renumbered tree σ τ table table' := by
  have hname := typeName?_byName hclosed hclosed' hnames
  have hiff : ∀ {type super name above}, table.typeName? type = some name →
      table.typeName? super = some above →
      (byName hclosed hclosed' hnames super ∈
        table'.supertypes (byName hclosed hclosed' hnames type) ↔
          super ∈ table.supertypes type) := fun {type super name above} htype hsuper => by
    rw [hclosed.mem_supertypes_iff htype hsuper, ← habove,
      hclosed'.mem_supertypes_iff ((hname type).trans htype) ((hname super).trans hsuper)]
  refine ⟨byName hclosed hclosed' hnames, hname, fun type super => ⟨fun hmem => ?_, fun hmem => ?_⟩,
    fun id hid => ?_⟩
  · obtain ⟨name, htype⟩ := exists_typeName?_of_mem_supertypes hmem
    obtain ⟨above, hsuper⟩ := hclosed'.known hmem
    exact (hiff ((hname type).symm.trans htype) ((hname super).symm.trans hsuper)).mp hmem
  · obtain ⟨name, htype⟩ := exists_typeName?_of_mem_supertypes hmem
    obtain ⟨above, hsuper⟩ := hclosed.known hmem
    exact (hiff htype hsuper).mpr hmem
  · have hrel := hbound id hid
    generalize table.binding? id = found at hrel ⊢
    generalize table'.binding? (σ id) = found' at hrel ⊢
    cases hrel with
    | none => rfl
    | some hboth =>
      obtain ⟨doc, hcarries, hcarries'⟩ := hboth
      rw [Option.map_some, renumber_of_carries hclosed hclosed' hnames hcarries hcarries']

end

end TypeTable

end TreeLint
