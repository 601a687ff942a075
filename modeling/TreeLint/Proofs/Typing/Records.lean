import Mathlib.Algebra.Group.Nat.Defs
import Mathlib.Data.Finset.Card
import TreeLint.Proofs.Typing.Calls

/-!
# What calls leave in a table

A table of types says no more than the calls that made it: which names were given handles, what was
declared right above a type, and what a node was bound to last.

- `names_performAll`, `supertypes_performAll`, `binding?_performAll`, `bindingCount_performAll`: each
  part of a table from the calls.
- `TypeTable.Records`, `TypeTable.AddsType`: what a table is after calls, and what a new name adds to
  it. `records_performAll`, `addsType_intern`: that they hold.
- `IndexedTable`: names found in an index instead of the list of types, and handles of 32 bits.
  `Agrees.performAll`: it is the same table as long as handles last.
-/

namespace TreeLint

/-! ## What a call says -/

namespace TypeCall

/-- The `name` that a call interns. -/
def name? : TypeCall → Option String
  | intern name => some name
  | addSupertype _ _ | bind _ _ => none

/-- The type that a call declares right above `type`. -/
def above? (type : TypeId) : TypeCall → Option TypeId
  | addSupertype below super => if below = type then some super else none
  | intern _ | bind _ _ => none

/-- The `node` that a call binds. -/
def node? : TypeCall → Option NodeId
  | bind node _ => some node
  | intern _ | addSupertype _ _ => none

/-- What a call binds `node` to. -/
def bound? (node : NodeId) : TypeCall → Option Binding
  | bind other binding => if other = node then some binding else none
  | intern _ | addSupertype _ _ => none

end TypeCall

namespace TypeTable

variable {table : TypeTable} {call : TypeCall} {calls : List TypeCall} {type super : TypeId}
  {name : String} {node : NodeId}

/-! ## One call -/

theorem names_intern (table : TypeTable) (name : String) :
    (table.intern name).2.names = addNew table.names name := by
  unfold intern addNew
  cases hlookup : table.lookup? name with
  | some type =>
    exact (if_pos (mem_names_iff.mpr ⟨type, typeName?_of_lookup? hlookup⟩)).symm
  | none => rw [if_neg (lookup?_eq_none_iff.mp hlookup), names_push]

theorem names_perform (table : TypeTable) (call : TypeCall) :
    (table.perform call).names = call.name?.toList.foldl addNew table.names := by
  cases call with
  | intern name => exact names_intern table name
  | addSupertype type super => exact names_addSupertype table type super
  | bind node binding => rfl

theorem supertypes_perform (h : call.named.all table.contains = true) (type : TypeId) :
    (table.perform call).supertypes type = match call.above? type with
      | none => table.supertypes type
      | some super =>
        if super ∈ table.supertypes type then table.supertypes type
        else table.supertypes type ++ [super] := by
  cases call with
  | intern name => exact supertypes_intern table name type
  | bind node binding => rfl
  | addSupertype below super =>
    have hbelow : below.index < table.types.size :=
      of_decide_eq_true (List.all_eq_true.mp h below List.mem_cons_self)
    rw [perform, supertypes_addSupertype (Array.getElem?_eq_getElem hbelow), TypeCall.above?]
    by_cases htype : type = below
    · rw [if_pos htype, if_pos htype.symm, htype]
    · rw [if_neg htype, if_neg (Ne.symm htype)]

theorem bindings_perform (table : TypeTable) (call : TypeCall) :
    (table.perform call).bindings = match call with
      | .bind node binding => table.bindings.insert node binding
      | .intern _ | .addSupertype _ _ => table.bindings := by
  cases call with
  | intern name => exact bindings_intern table name
  | addSupertype type super => rfl
  | bind node binding => rfl

theorem binding?_perform (table : TypeTable) (call : TypeCall) (node : NodeId) :
    (table.perform call).binding? node = (call.bound? node).or (table.binding? node) := by
  rw [binding?, bindings_perform]
  cases call with
  | intern name => rfl
  | addSupertype type super => rfl
  | bind other binding =>
    rw [Assoc.get?_insert, TypeCall.bound?]
    split <;> rfl

theorem bindingCount_perform (table : TypeTable) (call : TypeCall) :
    (table.perform call).bindingCount = match call.node? with
      | none => table.bindingCount
      | some node =>
        if (table.binding? node).isSome = true then table.bindingCount
        else table.bindingCount + 1 := by
  rw [bindingCount, bindings_perform]
  cases call with
  | intern name => rfl
  | addSupertype type super => rfl
  | bind node binding => exact Assoc.length_insert node binding table.bindings

theorem closed_perform (h : table.Closed) (hcall : call.named.all table.contains = true) :
    (table.perform call).Closed := by
  cases call with
  | intern name => exact (intern_spec h name).1.closed
  | bind node binding => exact ⟨h.nodup, h.known⟩
  | addSupertype type super =>
    have hknown : ∀ other ∈ [type, super], ∃ name, table.typeName? other = some name :=
      fun other hother => by
        have hlt : other.index < table.types.size :=
          of_decide_eq_true (List.all_eq_true.mp hcall other hother)
        exact ⟨table.types[other.index].name, by simp [typeName?, hlt]⟩
    obtain ⟨_, htype⟩ := hknown type (by simp)
    obtain ⟨_, hsuper⟩ := hknown super (by simp)
    exact h.addSupertype htype hsuper

/-! ## A sequence of calls -/

theorem performAll_append (table : TypeTable) (calls more : List TypeCall) :
    table.performAll (calls ++ more) = (table.performAll calls).performAll more :=
  List.foldl_append

theorem performAll_concat (table : TypeTable) (calls : List TypeCall) (call : TypeCall) :
    table.performAll (calls ++ [call]) = (table.performAll calls).perform call :=
  performAll_append table calls [call]

theorem admits_append {more : List TypeCall} :
    table.admits (calls ++ more) = (table.admits calls && (table.performAll calls).admits more) := by
  induction calls generalizing table with
  | nil => rfl
  | cons call calls ih => rw [List.cons_append, admits, ih, admits, Bool.and_assoc]; rfl

theorem admits_concat : table.admits (calls ++ [call]) = true ↔
    table.admits calls = true ∧ call.named.all (table.performAll calls).contains = true := by
  simp [admits_append, admits]

theorem filterMap_concat {α β : Type} (f : α → Option β) (xs : List α) (x : α) :
    (xs ++ [x]).filterMap f = xs.filterMap f ++ (f x).toList := by
  rw [List.filterMap_append, List.filterMap_cons]
  cases f x <;> rfl

/-- A new element `x` comes behind all others in the order of first occurrence. -/
theorem eraseDups_concat {α : Type} [DecidableEq α] (xs : List α) (x : α) :
    (xs ++ [x]).eraseDups = if x ∈ xs then xs.eraseDups else xs.eraseDups ++ [x] := by
  rw [List.eraseDups_append]
  split <;> simp_all [List.removeAll, List.eraseDups_cons]

theorem nodup_eraseDups {α : Type} [DecidableEq α] (xs : List α) : xs.eraseDups.Nodup := by
  induction xs using List.reverseRecOn with
  | nil => exact List.nodup_nil
  | append_singleton xs x ih =>
    rw [eraseDups_concat]
    split
    · exact ih
    · rename_i hnew
      have hdisjoint : x ∉ xs.eraseDups := by rwa [List.mem_eraseDups]
      exact ih.append (List.nodup_singleton x) (by simpa using hdisjoint)

theorem closed_performAll (h : ({} : TypeTable).admits calls = true) :
    (({} : TypeTable).performAll calls).Closed := by
  induction calls using List.reverseRecOn with
  | nil => exact closed_empty
  | append_singleton calls call ih =>
    obtain ⟨hcalls, hcall⟩ := admits_concat.mp h
    rw [performAll_concat]
    exact closed_perform (ih hcalls) hcall

/-- The names are those that `calls` have interned, in the order in which they came first. -/
theorem names_performAll (calls : List TypeCall) :
    (({} : TypeTable).performAll calls).names = (calls.filterMap TypeCall.name?).eraseDups := by
  induction calls using List.reverseRecOn with
  | nil => rfl
  | append_singleton calls call ih =>
    rw [performAll_concat, names_perform, ih, filterMap_concat]
    cases call.name? with
    | none => rw [Option.toList_none, List.append_nil]; rfl
    | some name => simp [eraseDups_concat, addNew]

/-- What is right above `type` was declared there, in the order of the first declarations. -/
theorem supertypes_performAll (h : ({} : TypeTable).admits calls = true) (type : TypeId) :
    (({} : TypeTable).performAll calls).supertypes type =
      (calls.filterMap (TypeCall.above? type)).eraseDups := by
  induction calls using List.reverseRecOn with
  | nil => simp [performAll, supertypes]
  | append_singleton calls call ih =>
    obtain ⟨hcalls, hcall⟩ := admits_concat.mp h
    rw [performAll_concat, supertypes_perform hcall, ih hcalls, filterMap_concat]
    cases call.above? type with
    | none => rw [Option.toList_none, List.append_nil]
    | some super => simp [eraseDups_concat]

/-- The `node` is bound as it was last. -/
theorem binding?_performAll (calls : List TypeCall) (node : NodeId) :
    (({} : TypeTable).performAll calls).binding? node =
      (calls.filterMap (TypeCall.bound? node)).getLast? := by
  induction calls using List.reverseRecOn with
  | nil => rfl
  | append_singleton calls call ih =>
    rw [performAll_concat, binding?_perform, ih, filterMap_concat, List.getLast?_append]
    cases call.bound? node <;> rfl

theorem isSome_binding?_performAll (calls : List TypeCall) (node : NodeId) :
    ((({} : TypeTable).performAll calls).binding? node).isSome = true ↔
      node ∈ calls.filterMap TypeCall.node? := by
  induction calls using List.reverseRecOn with
  | nil => simp [performAll, binding?, Assoc.get?]
  | append_singleton calls call ih =>
    rw [performAll_concat, binding?_perform, Option.isSome_or, Bool.or_eq_true, ih, filterMap_concat,
      List.mem_append, or_comm]
    cases call with
    | intern name => simp [TypeCall.bound?, TypeCall.node?]
    | addSupertype type super => simp [TypeCall.bound?, TypeCall.node?]
    | bind other binding =>
      have hbound : (TypeCall.bound? node (.bind other binding)).isSome = true ↔ node = other := by
        by_cases hother : other = node
        · simp [TypeCall.bound?, hother]
        · simp [TypeCall.bound?, hother, Ne.symm hother]
      rw [hbound]
      simp [TypeCall.node?]

/-- A node counts once, however often `calls` bind it. -/
theorem bindingCount_performAll (calls : List TypeCall) :
    (({} : TypeTable).performAll calls).bindingCount =
      (calls.filterMap TypeCall.node?).toFinset.card := by
  induction calls using List.reverseRecOn with
  | nil => rfl
  | append_singleton calls call ih =>
    rw [performAll_concat, bindingCount_perform, ih, filterMap_concat]
    cases call.node? with
    | none => simp
    | some node => simp [isSome_binding?_performAll, Finset.card_insert_eq_ite]

theorem prefix_names_performAll (table : TypeTable) (calls : List TypeCall) :
    table.names <+: (table.performAll calls).names := by
  induction calls generalizing table with
  | nil => exact List.prefix_rfl
  | cons call calls ih =>
    refine List.IsPrefix.trans ?_ (ih (table.perform call))
    rw [names_perform]
    exact prefix_foldl_addNew table.names call.name?.toList

/-! ## Interning -/

theorem length_names (table : TypeTable) : table.names.length = table.typeCount := by
  simp [names, typeCount]

theorem intern_of_lookup? (h : table.lookup? name = some type) :
    table.intern name = (type, table) := by
  rw [intern, h]

theorem intern_of_not_mem (h : name ∉ table.names) : table.intern name =
    (⟨table.typeCount⟩, { table with types := table.types.push { name } }) := by
  rw [intern, lookup?_eq_none_iff.mpr h]
  rfl

theorem lookup?_push (table : TypeTable) (name other : String) :
    ({ table with types := table.types.push { name } } : TypeTable).lookup? other =
      (table.lookup? other).or (if name = other then some ⟨table.typeCount⟩ else none) := by
  have hidx : (table.names ++ [name]).idxOf? other = (table.names.idxOf? other).or
      (if name = other then some table.typeCount else none) := by
    simp [List.idxOf?, List.findIdx?_append, length_names]
  rw [lookup?_eq_idxOf?, lookup?_eq_idxOf?, names_push, hidx, Option.map_or]
  split <;> rfl

/-- A known `name` keeps the handle that it got behind `before`, and nothing changes. -/
theorem intern_performAll {before after : List TypeCall}
    (h : ({} : TypeTable).admits (before ++ .intern name :: after) = true) :
    let table := ({} : TypeTable).performAll (before ++ .intern name :: after)
    table.intern name = (((({} : TypeTable).performAll before).intern name).1, table) := by
  intro table
  refine intern_of_lookup? ((closed_performAll h).lookup?_eq_some_iff.mpr ?_)
  rw [admits_append, Bool.and_eq_true] at h
  have hname := (intern_spec (closed_performAll h.1) name).2
  have hrest : table = (((({} : TypeTable).performAll before).intern name).2).performAll after :=
    performAll_append {} before (.intern name :: after)
  change table.typeName? _ = some name
  rw [hrest]
  exact typeName?_mono (prefix_names_performAll _ after) hname

/-! ## What a table is after calls -/

/-- The `table` is what `calls` say. -/
structure Records (table : TypeTable) (calls : List TypeCall) : Prop where
  /-- To look a name up and to name a handle, `type`, are inverse to each other. -/
  lookup?_iff : ∀ {name type}, table.lookup? name = some type ↔ table.typeName? type = some name
  isSome_lookup? : ∀ {name}, (table.lookup? name).isSome = true ↔ .intern name ∈ calls
  isSome_typeName? : ∀ {type}, (table.typeName? type).isSome = true ↔ type.index < table.typeCount
  supertypes_eq : ∀ type,
    table.supertypes type = (calls.filterMap (TypeCall.above? type)).eraseDups
  nodup : ∀ type, (table.supertypes type).Nodup
  contains : ∀ type, ∀ super ∈ table.supertypes type, table.contains super = true
  binding?_eq : ∀ node, table.binding? node = (calls.filterMap (TypeCall.bound? node)).getLast?
  bindingCount_eq : table.bindingCount = (calls.filterMap TypeCall.node?).toFinset.card

/-- The table `table'` has one more type than `table`, called `name`, which has the next handle and
nothing above it. -/
structure AddsType (table : TypeTable) (name : String) (type : TypeId) (table' : TypeTable) :
    Prop where
  index_eq : type.index = table.typeCount
  typeCount_eq : table'.typeCount = table.typeCount + 1
  typeName?_new : table'.typeName? type = some name
  lookup?_new : table'.lookup? name = some type
  supertypes_new : table'.supertypes type = []
  typeName?_eq : ∀ {other}, other ≠ type → table'.typeName? other = table.typeName? other
  lookup?_eq : ∀ {other}, other ≠ name → table'.lookup? other = table.lookup? other
  supertypes_eq : ∀ other, table'.supertypes other = table.supertypes other
  bindings_eq : table'.bindings = table.bindings

theorem isSome_typeName?_iff :
    (table.typeName? type).isSome = true ↔ type.index < table.typeCount := by
  simp [typeName?, typeCount]

theorem mem_names_performAll :
    name ∈ (({} : TypeTable).performAll calls).names ↔ .intern name ∈ calls := by
  rw [names_performAll, List.mem_eraseDups, List.mem_filterMap]
  constructor
  · rintro ⟨call, hcall, hname⟩
    cases call with
    | intern other =>
      cases hname
      exact hcall
    | addSupertype type super | bind node binding => cases hname
  · exact fun hmem => ⟨_, hmem, rfl⟩

theorem records_of_admits (h : ({} : TypeTable).admits calls = true) :
    (({} : TypeTable).performAll calls).Records calls where
  lookup?_iff := (closed_performAll h).lookup?_eq_some_iff
  isSome_lookup? {name} := by
    rw [← mem_names_performAll, ← not_iff_not, ← lookup?_eq_none_iff, Option.not_isSome_iff_eq_none]
  isSome_typeName? := isSome_typeName?_iff
  supertypes_eq := supertypes_performAll h
  nodup type := by
    rw [supertypes_performAll h]
    exact nodup_eraseDups _
  contains type super hsuper := by
    obtain ⟨name, hname⟩ := (closed_performAll h).known hsuper
    exact decide_eq_true (isSome_typeName?_iff.mp (Option.isSome_of_eq_some hname))
  binding?_eq := binding?_performAll calls
  bindingCount_eq := bindingCount_performAll calls

theorem addsType_intern (h : name ∉ table.names) :
    AddsType table name (table.intern name).1 (table.intern name).2 := by
  rw [intern_of_not_mem h]
  have hlookup := lookup?_push table name
  have hsupers := supertypes_push table name
  refine ⟨rfl, by simp [typeCount], by simp [typeName?, typeCount], ?_, ?_, fun {other} hother => ?_,
    fun {other} hother => ?_, hsupers, rfl⟩
  · rw [hlookup, lookup?_eq_none_iff.mpr h]
    simp
  · rw [hsupers]
    simp [supertypes, typeCount]
  · have hindex : other.index ≠ table.types.size := fun heq => hother (congrArg TypeId.mk heq)
    simp only [typeName?]
    rw [Array.getElem?_push, if_neg hindex]
  · rw [hlookup, if_neg (Ne.symm hother), Option.or_none]

end TypeTable

/-! ## Names in an index, handles of 32 bits -/

/-- A table that finds names in `index` and not by a search through its types. -/
structure IndexedTable extends TypeTable where
  index : Assoc String TypeId := []

namespace IndexedTable

/-- The handle of `place`: a number of 32 bits. All places behind the last one share its handle. -/
def handle (place : Nat) : TypeId := ⟨min place (2 ^ 32 - 1)⟩

/-- The handle of `name`, if it was interned. -/
def lookup? (table : IndexedTable) (name : String) : Option TypeId := table.index.get? name

/-- The handle of `name`, and the table that has it. A new name goes into the list and the index. -/
def intern (table : IndexedTable) (name : String) : TypeId × IndexedTable :=
  match table.lookup? name with
  | some type => (type, table)
  | none =>
    let type := handle table.typeCount
    (type, { table with
      types := table.types.push { name }, index := table.index.insert name type })

/-- What one call makes of `table`. -/
def perform (table : IndexedTable) : TypeCall → IndexedTable
  | .intern name => (table.intern name).2
  | .addSupertype type super => { table with toTypeTable := table.addSupertype type super }
  | .bind node binding => { table with toTypeTable := table.bind node binding }

/-- What a sequence of `calls` makes of `table`. -/
def performAll (table : IndexedTable) (calls : List TypeCall) : IndexedTable :=
  calls.foldl perform table

/-- The tables `indexed` and `table` have the same types and bindings, and look names up alike. -/
structure Agrees (indexed : IndexedTable) (table : TypeTable) : Prop where
  toTypeTable_eq : indexed.toTypeTable = table
  lookup?_eq : ∀ name, indexed.lookup? name = table.lookup? name

variable {indexed : IndexedTable} {table : TypeTable}

theorem agrees_empty : ({} : IndexedTable).Agrees {} :=
  ⟨rfl, fun name => by simp [lookup?, TypeTable.lookup?, Assoc.get?]⟩

/-- While there are handles left (`hcount`), both tables give `name` the same one. -/
theorem Agrees.intern (h : indexed.Agrees table) (hcount : table.typeCount < 2 ^ 32)
    (name : String) : (indexed.intern name).1 = (table.intern name).1 ∧
      (indexed.intern name).2.Agrees (table.intern name).2 := by
  obtain ⟨rfl, hlookup⟩ := h
  unfold IndexedTable.intern
  cases hname : indexed.lookup? name with
  | some type =>
    rw [TypeTable.intern_of_lookup? (hlookup name ▸ hname)]
    exact ⟨rfl, rfl, hlookup⟩
  | none =>
    have hnot := TypeTable.lookup?_eq_none_iff.mp (hlookup name ▸ hname)
    have hhandle : handle indexed.typeCount = ⟨indexed.typeCount⟩ := by
      rw [handle, Nat.min_eq_left (by omega)]
    rw [TypeTable.intern_of_not_mem hnot]
    refine ⟨hhandle, rfl, fun other => ?_⟩
    rw [TypeTable.lookup?_push, ← hlookup]
    change Assoc.get? other (indexed.index.insert name _) = _
    rw [Assoc.get?_insert]
    by_cases heq : name = other
    · rw [if_pos heq, if_pos heq, ← heq, hname, hhandle, Option.none_or]
    · rw [if_neg heq, if_neg heq, Option.or_none]
      rfl

theorem Agrees.perform (h : indexed.Agrees table) (hcount : table.typeCount < 2 ^ 32)
    (call : TypeCall) : (indexed.perform call).Agrees (table.perform call) := by
  cases call with
  | intern name => exact (h.intern hcount name).2
  | addSupertype type super =>
    obtain ⟨rfl, hlookup⟩ := h
    refine ⟨rfl, fun name => (hlookup name).trans ?_⟩
    rw [TypeTable.lookup?_eq_idxOf?, TypeTable.lookup?_eq_idxOf?]
    exact congrArg (fun names => (names.idxOf? name).map TypeId.mk)
      (TypeTable.names_addSupertype indexed.toTypeTable type super).symm
  | bind node binding =>
    obtain ⟨rfl, hlookup⟩ := h
    exact ⟨rfl, hlookup⟩

/-- The number of types never goes down, so handles last to the end when they last at the end
(`hcount`). -/
theorem Agrees.performAll (h : indexed.Agrees table) {calls : List TypeCall}
    (hcount : (table.performAll calls).typeCount < 2 ^ 32) :
    (indexed.performAll calls).Agrees (table.performAll calls) := by
  induction calls generalizing indexed table with
  | nil => exact h
  | cons call calls ih =>
    have hle := (TypeTable.prefix_names_performAll table (call :: calls)).length_le
    rw [TypeTable.length_names, TypeTable.length_names] at hle
    exact ih (h.perform (by omega) call) hcount

end IndexedTable

namespace TypeTable

/-- **What calls leave in a table.** Let `calls` on an empty table name only types that it has
(`hcalls`), and let `table` have fewer than `2 ^ 32` types. To look a name up and to name a handle
are inverse to each other between the interned names and the handles below the number of types; what
is right above a type is what was declared there, in the order of the first declarations and without
repeats; a node is bound as it was last, and counts once (`Records`). A name that was interned
before keeps the handle that it got, and nothing changes; a new one gets the next handle, and all
else is as before (`AddsType`). A table with an index of names and handles of 32 bits, `indexed`, is
the same table. -/
theorem records_performAll (calls : List TypeCall) (hcalls : ({} : TypeTable).admits calls = true)
    (hcount : (({} : TypeTable).performAll calls).typeCount < 2 ^ 32) :
    let table := ({} : TypeTable).performAll calls
    let indexed := ({} : IndexedTable).performAll calls
    table.Records calls ∧
    (∀ before name after, calls = before ++ .intern name :: after →
      table.intern name = (((({} : TypeTable).performAll before).intern name).1, table)) ∧
    (∀ name, .intern name ∉ calls →
      AddsType table name (table.intern name).1 (table.intern name).2) ∧
    indexed.Agrees table ∧
    ∀ name, (indexed.intern name).1 = (table.intern name).1 ∧
      (indexed.intern name).2.Agrees (table.intern name).2 := by
  intro table indexed
  have hagrees : indexed.Agrees table := IndexedTable.agrees_empty.performAll hcount
  refine ⟨records_of_admits hcalls, fun before name after heq => ?_, fun name hnot => ?_, hagrees,
    hagrees.intern hcount⟩
  · subst heq
    exact intern_performAll hcalls
  · exact addsType_intern fun hmem => hnot (mem_names_performAll.mp hmem)

/-- Names, declarations and nodes that come twice, a type `A` above itself, and `A` and `B` above
each other. -/
def repeatedCalls : List TypeCall :=
  [.intern "A", .intern "B", .addSupertype ⟨1⟩ ⟨0⟩, .bind ⟨7⟩ {}, .intern "A", .addSupertype ⟨0⟩ ⟨1⟩,
    .addSupertype ⟨0⟩ ⟨0⟩, .bind ⟨2⟩ { type := some ⟨0⟩ }, .addSupertype ⟨0⟩ ⟨1⟩,
    .bind ⟨7⟩ { type := some ⟨1⟩ }]

theorem records_performAll_repeatedCalls :
    let table := ({} : TypeTable).performAll repeatedCalls
    ({} : TypeTable).admits repeatedCalls = true ∧ table.typeCount < 2 ^ 32 ∧
      table.intern "A" = (⟨0⟩, table) ∧ (table.intern "C").1 = ⟨2⟩ ∧
      table.supertypes ⟨0⟩ = [⟨1⟩, ⟨0⟩] ∧
      table.binding? ⟨7⟩ = some { type := some ⟨1⟩ } ∧ table.bindingCount = 2 ∧
      (({} : IndexedTable).performAll repeatedCalls).lookup? "B" = table.lookup? "B" := by
  intro table
  have hcalls : ({} : TypeTable).admits repeatedCalls = true := by cbv
  have hcount : table.typeCount = 2 := by cbv
  have hsize : table.typeCount < 2 ^ 32 := by rw [hcount]; decide
  obtain ⟨hrecords, hknown, hnew, hagrees, -⟩ := records_performAll repeatedCalls hcalls hsize
  refine ⟨hcalls, hsize, ?_, ?_, ?_, ?_, ?_, hagrees.lookup?_eq "B"⟩
  · have hfirst : ((({} : TypeTable).performAll []).intern "A").1 = ⟨0⟩ := by cbv
    exact (hknown [] "A" _ rfl).trans (by rw [hfirst])
  · have hadds := hnew "C" (by decide)
    exact congrArg TypeId.mk (hadds.index_eq.trans hcount)
  · rw [hrecords.supertypes_eq]
    rfl
  · rw [hrecords.binding?_eq]
    rfl
  · rw [hrecords.bindingCount_eq]
    rfl

end TypeTable

end TreeLint
