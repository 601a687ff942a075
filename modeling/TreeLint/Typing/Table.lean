import TreeLint.Assoc
import TreeLint.Tree.Basic

/-!
# Type facts

The engine infers no types. A table holds what is known about one tree: the types that occur, each
under its full name once, which types are declared right above which, and what the nodes refer to.

- `TypeTable.intern` gives a name its handle.
- `TypeTable.isAssignable` holds when declared supertypes lead from one type to the other; its loop
  `reachesFrom` turns to the supertypes of the last type first.
- `TypeTable.search?` looks through a type and all above it for an answer, the nearest first.
-/

namespace TreeLint

/-- The place of a type in its table. Places here have no bound. A store with 32 bits for a place has
the same places for tables of fewer than `2 ^ 32` types; further types would all get the last one. -/
structure TypeId where
  index : Nat
  deriving DecidableEq, Repr, Inhabited

/-- What a bound node refers to. -/
inductive SymbolKind where
  | localVariable
  | field
  | method
  /-- The name of a type that qualifies an expression. -/
  | typeName
  /-- The value of an expression that names nothing. -/
  | value
  deriving DecidableEq, Repr, Inhabited

namespace SymbolKind

/-- Each kind of symbol with its name in documents. -/
def names : List (SymbolKind × String) :=
  [(localVariable, "local"), (field, "field"), (method, "method"), (typeName, "type"),
   (value, "value")]

/-- The name of `kind`. -/
def name (kind : SymbolKind) : String := (names.lookup kind).getD ""

/-- Each name with its kind of symbol. -/
def byName : List (String × SymbolKind) := names.map fun (kind, name) => (name, kind)

end SymbolKind

/-- What is known about a node. -/
structure Binding where
  kind : SymbolKind := .value
  /-- The static type of the entity or value. -/
  type : Option TypeId := none
  /-- The type that declares the member. -/
  owner : Option TypeId := none
  /-- The type that a method returns. -/
  returns : Option TypeId := none
  deriving DecidableEq, Repr, Inhabited

/-- A type and the types declared right above it, in the order of declaration. -/
structure TypeInfo where
  name : String
  supertypes : List TypeId := []
  deriving DecidableEq, Repr, Inhabited

/-- The types of a tree and the bindings of its nodes. -/
structure TypeTable where
  types : Array TypeInfo := #[]
  bindings : Assoc NodeId Binding := []
  deriving Repr, Inhabited

namespace TypeTable

/-- The handle of `name`, if it was interned. -/
def lookup? (table : TypeTable) (name : String) : Option TypeId :=
  (table.types.findIdx? fun info => info.name == name).map TypeId.mk

/-- The handle of `name`, and the table that has it. A new name gets the next free handle. -/
def intern (table : TypeTable) (name : String) : TypeId × TypeTable :=
  match table.lookup? name with
  | some type => (type, table)
  | none => (⟨table.types.size⟩, { table with types := table.types.push { name } })

/-- The name of `type`; `none` if the table has no such type. -/
def typeName? (table : TypeTable) (type : TypeId) : Option String :=
  (table.types[type.index]?).map TypeInfo.name

/-- The types declared right above `type`, in the order of declaration. -/
def supertypes (table : TypeTable) (type : TypeId) : List TypeId :=
  ((table.types[type.index]?).map TypeInfo.supertypes).getD []

/-- Declares `super` right above `type`; a second declaration changes nothing. -/
def addSupertype (table : TypeTable) (type super : TypeId) : TypeTable :=
  { table with
    types := table.types.modify type.index fun info =>
      if super ∈ info.supertypes then info
      else { info with supertypes := info.supertypes ++ [super] } }

/-- Number of types in `table`. -/
def typeCount (table : TypeTable) : Nat := table.types.size

/-- The handles of all types of `table`, in the order in which their names were interned. -/
def typeIds (table : TypeTable) : List TypeId := (List.range table.typeCount).map TypeId.mk

/-! ## Bindings -/

/-- Binds `node`, in place of what it was bound to before. -/
def bind (table : TypeTable) (node : NodeId) (binding : Binding) : TypeTable :=
  { table with bindings := table.bindings.insert node binding }

/-- What is known about `node`. -/
def binding? (table : TypeTable) (node : NodeId) : Option Binding := table.bindings.get? node

/-- Number of nodes that `table` binds. -/
def bindingCount (table : TypeTable) : Nat := table.bindings.length

/-- The static type of what `node` refers to. -/
def typeOf? (table : TypeTable) (node : NodeId) : Option TypeId :=
  (table.binding? node).bind Binding.type

/-- The type that declares the member to which `node` refers. -/
def ownerOf? (table : TypeTable) (node : NodeId) : Option TypeId :=
  (table.binding? node).bind Binding.owner

/-- The type that the method returns to which `node` refers. -/
def returnsOf? (table : TypeTable) (node : NodeId) : Option TypeId :=
  (table.binding? node).bind Binding.returns

/-! ## The types above a type

Two loops look upward from a type, through the supertypes declared. Each keeps in `seen` the types
that it has followed and follows none twice, so it ends where supertypes form a cycle, too. What
bounds a loop is `pending`, the types to turn to, and the declarations that it may still follow. -/

/-- Number of supertypes declared right above the types of the table that are not in `seen`. -/
def countAhead (table : TypeTable) (seen : List TypeId) : Nat :=
  ((table.typeIds.filter (· ∉ seen)).flatMap table.supertypes).length

/-- A `type` with declarations is one of the table. -/
theorem mem_typeIds_of_supertypes {table : TypeTable} {type : TypeId}
    (h : table.supertypes type ≠ []) : type ∈ table.typeIds := by
  cases hinfo : table.types[type.index]? with
  | none => simp [supertypes, hinfo] at h
  | some info =>
    have hlt := (Array.getElem?_eq_some_iff.mp hinfo).1
    exact List.mem_map.mpr ⟨type.index, List.mem_range.mpr hlt, rfl⟩

/-- When `type` joins `seen`, the values of `f` at it are no longer among those still to come. -/
theorem length_flatMap_filter_cons {type : TypeId} {seen : List TypeId} (h : type ∉ seen)
    (f : TypeId → List TypeId) (all : List TypeId) :
    (if type ∈ all then (f type).length else 0) +
        ((all.filter (· ∉ type :: seen)).flatMap f).length ≤
      ((all.filter (· ∉ seen)).flatMap f).length := by
  induction all with
  | nil => simp
  | cons other all ih =>
    by_cases heq : other = type
    · subst heq
      simp only [List.filter_cons, List.mem_cons, true_or, not_true_eq_false, decide_false, h,
        not_false_eq_true, decide_true, if_true, List.flatMap_cons, List.length_append,
        Bool.false_eq_true, if_false] at ih ⊢
      omega
    · have hne : ¬ type = other := fun h => heq h.symm
      by_cases hseen : other ∈ seen
      · simpa [List.filter_cons, heq, hne, hseen] using ih
      · simp only [List.filter_cons, List.mem_cons, heq, hne, hseen, false_or, not_false_eq_true,
          decide_true, if_true, List.flatMap_cons, List.length_append] at ih ⊢
        omega

/-- The declarations above `type` are ahead until `type` is followed. -/
theorem length_supertypes_add_countAhead_le (table : TypeTable) {type : TypeId}
    {seen : List TypeId} (h : type ∉ seen) :
    (table.supertypes type).length + table.countAhead (type :: seen) ≤ table.countAhead seen := by
  have hle := length_flatMap_filter_cons h table.supertypes table.typeIds
  by_cases hmem : type ∈ table.typeIds
  · rwa [if_pos hmem] at hle
  · have hnone : table.supertypes type = [] := by
      by_cases hnil : table.supertypes type = []
      · exact hnil
      · exact (hmem (mem_typeIds_of_supertypes hnil)).elim
    rw [if_neg hmem] at hle
    rwa [hnone]

/-- Whether declared supertypes lead to `target` from a type of the stack `pending`. The types
right above the one on top are put on the stack, so the last declared is turned to first. -/
def reachesFrom (table : TypeTable) (target : TypeId) : (seen pending : List TypeId) → Bool
  | _, [] => false
  | seen, type :: pending =>
    if type = target then true
    else if _ : type ∈ seen then table.reachesFrom target seen pending
    else table.reachesFrom target (type :: seen) ((table.supertypes type).reverse ++ pending)
termination_by seen pending => pending.length + table.countAhead seen
decreasing_by
  · simp
  · have := table.length_supertypes_add_countAhead_le ‹type ∉ seen›
    simp only [List.length_append, List.length_reverse, List.length_cons]
    omega

/-- Whether a value of type `source` may stand where `target` is expected: declared supertypes
lead from one to the other in any number of steps, none included. -/
def isAssignable (table : TypeTable) (source target : TypeId) : Bool :=
  table.reachesFrom target [] [source]

/-- Asks the types of the queue `pending` and those above them for an answer, breadth first. The
types right above one without an answer join the end of the queue. -/
def searchFrom? (table : TypeTable) (answer : TypeId → Option α) :
    (seen pending : List TypeId) → Option α
  | _, [] => none
  | seen, type :: pending =>
    if _ : type ∈ seen then table.searchFrom? answer seen pending
    else
      match answer type with
      | some found => some found
      | none => table.searchFrom? answer (type :: seen) (pending ++ table.supertypes type)
termination_by seen pending => pending.length + table.countAhead seen
decreasing_by
  · simp
  · have := table.length_supertypes_add_countAhead_le ‹type ∉ seen›
    simp only [List.length_append, List.length_cons]
    omega

/-- The first answer that `type` or a type above it gives, the nearest asked first. -/
def search? (table : TypeTable) (answer : TypeId → Option α) (type : TypeId) : Option α :=
  table.searchFrom? answer [] [type]

end TypeTable

end TreeLint
