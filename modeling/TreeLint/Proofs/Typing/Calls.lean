import Mathlib.Data.List.Permutation
import TreeLint.Proofs.Typing.Names
import TreeLint.Proofs.Typing.Turns

/-!
# Calls on a table of types

A table is what a sequence of calls has made of an empty one. A call names the handles of types that
the table has; what stands above a type is what the calls have declared there.

- `TypeCall`, `TypeTable.performAll`, `TypeTable.admits`: sequences of calls, and those that name only
  types of the table.
- `mem_supertypes_perform`, `mem_supertypes_performAll`: one call, and a sequence of them.
- `isAssignable_performAll`: types are assignable along the declarations, in whatever order these
  were made.
-/

namespace TreeLint

/-- The types that `binding` names. -/
def Binding.types (binding : Binding) : List TypeId :=
  binding.type.toList ++ binding.owner.toList ++ binding.returns.toList

/-- One call on a table of types: `intern` gives a handle, the others name handles. -/
inductive TypeCall where
  | intern (name : String)
  | addSupertype (type super : TypeId)
  | bind (node : NodeId) (binding : Binding)
  deriving DecidableEq, Repr

/-- The types that a call names: none in `intern`. -/
def TypeCall.named : TypeCall → List TypeId
  | intern _ => []
  | addSupertype type super => [type, super]
  | bind _ binding => binding.types

namespace TypeTable

/-- Whether `table` has a type with the handle `type`. -/
def contains (table : TypeTable) (type : TypeId) : Bool := type.index < table.typeCount

/-- What one call makes of `table`. -/
def perform (table : TypeTable) : TypeCall → TypeTable
  | .intern name => (table.intern name).2
  | .addSupertype type super => table.addSupertype type super
  | .bind node binding => table.bind node binding

/-- What a sequence of `calls` makes of `table`. -/
def performAll (table : TypeTable) (calls : List TypeCall) : TypeTable := calls.foldl perform table

/-- Each call names only types that the table, `table` at first, has when the call is made. -/
def admits (table : TypeTable) : List TypeCall → Bool
  | [] => true
  | call :: calls => call.named.all table.contains && (table.perform call).admits calls

variable {table : TypeTable} {call : TypeCall} {calls : List TypeCall} {type super : TypeId}

theorem supertypes_intern (table : TypeTable) (name : String) (type : TypeId) :
    (table.intern name).2.supertypes type = table.supertypes type := by
  unfold intern
  split
  · rfl
  · exact supertypes_push table name type

/-- A `call` declares one type above another, or leaves all declarations as they are. -/
theorem mem_supertypes_perform (h : call.named.all table.contains = true) :
    super ∈ (table.perform call).supertypes type ↔
      super ∈ table.supertypes type ∨ call = .addSupertype type super := by
  cases call with
  | intern name => simp [perform, supertypes_intern]
  | bind node binding => simp [perform, TypeTable.bind, supertypes]
  | addSupertype below above =>
    have hbelow : below.index < table.types.size :=
      of_decide_eq_true (List.all_eq_true.mp h below List.mem_cons_self)
    rw [perform, supertypes_addSupertype (Array.getElem?_eq_getElem hbelow)]
    simp only [TypeCall.addSupertype.injEq]
    split
    · rename_i hsame
      subst hsame
      split <;> grind
    · rename_i hother
      simp [Ne.symm hother]

/-- What stands above `type` was there before, or one of `calls` has declared it. -/
theorem mem_supertypes_performAll (h : table.admits calls = true) :
    super ∈ (table.performAll calls).supertypes type ↔
      super ∈ table.supertypes type ∨ .addSupertype type super ∈ calls := by
  induction calls generalizing table with
  | nil => simp [performAll]
  | cons call calls ih =>
    obtain ⟨hcall, hcalls⟩ := Bool.and_eq_true_iff.mp h
    have hrest := ih hcalls
    rw [mem_supertypes_perform hcall, or_assoc] at hrest
    rw [List.mem_cons, eq_comm (b := call)]
    exact hrest

/-- Declared supertypes lead from `source` to `target` as `calls` have declared them. -/
theorem above_performAll {source target : TypeId}
    (h : ({} : TypeTable).admits calls = true) :
    (({} : TypeTable).performAll calls).Above source target ↔
      Relation.ReflTransGen (fun type super => .addSupertype type super ∈ calls) source target := by
  have hsupers : ∀ type super, super ∈ (({} : TypeTable).performAll calls).supertypes type ↔
      .addSupertype type super ∈ calls := fun type super => by
    rw [mem_supertypes_performAll h]
    simp [supertypes]
  simp only [Above, hsupers]

/-- What leads from `source` to `target` does so after more `calls`. -/
theorem Above.performAll {source target : TypeId} (habove : table.Above source target)
    (h : table.admits calls = true) : (table.performAll calls).Above source target :=
  Relation.ReflTransGen.mono
    (fun _ _ hsuper => (mem_supertypes_performAll h).mpr (.inl hsuper)) _ _ habove

/-- Let `calls` on an empty table name only types that it has, and let `table` be what they make of it.
The loop of `isAssignable` ends, whatever is declared above what, after at most as many turns as
supertypes are declared, and one. `a` is assignable to `b` exactly when declarations lead from `a` to `b`
in any number of steps. So a type is assignable to itself and along chains, calls that make the same
declarations in another order give the same answers, and what is assignable remains so after `more`
calls. -/
theorem isAssignable_performAll (calls : List TypeCall)
    (hcalls : ({} : TypeTable).admits calls = true) :
    let table := ({} : TypeTable).performAll calls
    (∀ a b, ∃ turns ≤ table.declarationCount + 1,
      table.Reaches b [] [a] turns (table.isAssignable a b)) ∧
    (∀ a b, table.isAssignable a b = true ↔
      Relation.ReflTransGen (fun type super => .addSupertype type super ∈ calls) a b) ∧
    (∀ a, table.isAssignable a a = true) ∧
    (∀ a b c, table.isAssignable a b = true → table.isAssignable b c = true →
      table.isAssignable a c = true) ∧
    (∀ other, ({} : TypeTable).admits other = true →
      (∀ type super, .addSupertype type super ∈ other ↔ .addSupertype type super ∈ calls) →
      ∀ a b, (({} : TypeTable).performAll other).isAssignable a b = table.isAssignable a b) ∧
    ∀ more, table.admits more = true →
      ∀ a b, table.isAssignable a b = true → (table.performAll more).isAssignable a b = true := by
  intro table
  have hreaches : ∀ calls, ({} : TypeTable).admits calls = true → ∀ a b,
      (({} : TypeTable).performAll calls).isAssignable a b = true ↔
        Relation.ReflTransGen (fun type super => .addSupertype type super ∈ calls) a b :=
    fun calls h a b => isAssignable_iff.trans (above_performAll h)
  refine ⟨exists_reaches_isAssignable table, hreaches calls hcalls, fun a => ?_, fun a b c hab hbc => ?_,
    fun other hother hsame a b => ?_, fun more hmore a b hab => ?_⟩
  · exact isAssignable_iff.mpr .refl
  · exact isAssignable_iff.mpr ((isAssignable_iff.mp hab).trans (isAssignable_iff.mp hbc))
  · rw [Bool.eq_iff_iff, hreaches other hother, hreaches calls hcalls]
    simp only [hsame]
  · exact isAssignable_iff.mpr ((isAssignable_iff.mp hab).performAll hmore)

/-- Types `A` and `B` above each other, `B` above itself, and `C` above `B`. -/
def cyclicCalls : List TypeCall :=
  [.intern "A", .intern "B", .addSupertype ⟨0⟩ ⟨1⟩, .addSupertype ⟨1⟩ ⟨1⟩, .intern "C",
    .bind ⟨0⟩ { type := some ⟨0⟩ }, .addSupertype ⟨1⟩ ⟨0⟩, .addSupertype ⟨1⟩ ⟨2⟩]

/-- In `cyclicCalls` the type `C` is above `A` and not below it, whichever declaration comes
first. -/
theorem isAssignable_performAll_cyclicCalls :
    let reordered : List TypeCall :=
      [.intern "A", .intern "B", .intern "C", .addSupertype ⟨1⟩ ⟨2⟩, .addSupertype ⟨1⟩ ⟨0⟩,
        .addSupertype ⟨1⟩ ⟨1⟩, .addSupertype ⟨0⟩ ⟨1⟩]
    ({} : TypeTable).admits cyclicCalls = true ∧ ({} : TypeTable).admits reordered = true ∧
      (({} : TypeTable).performAll cyclicCalls).isAssignable ⟨0⟩ ⟨2⟩ = true ∧
      (({} : TypeTable).performAll cyclicCalls).isAssignable ⟨2⟩ ⟨0⟩ = false ∧
      (({} : TypeTable).performAll reordered).isAssignable ⟨0⟩ ⟨2⟩ = true := by
  intro reordered
  have hcalls : ({} : TypeTable).admits cyclicCalls = true := by cbv
  have hreordered : ({} : TypeTable).admits reordered = true := by cbv
  obtain ⟨-, hreaches, -, -, hsame, -⟩ := isAssignable_performAll cyclicCalls hcalls
  have habove : (({} : TypeTable).performAll cyclicCalls).isAssignable ⟨0⟩ ⟨2⟩ = true :=
    (hreaches ⟨0⟩ ⟨2⟩).mpr
      ((Relation.ReflTransGen.single (by decide : .addSupertype ⟨0⟩ ⟨1⟩ ∈ cyclicCalls)).tail
        (by decide : .addSupertype ⟨1⟩ ⟨2⟩ ∈ cyclicCalls))
  have hbelow : (({} : TypeTable).performAll cyclicCalls).isAssignable ⟨2⟩ ⟨0⟩ = false := by
    rw [← Bool.not_eq_true, hreaches]
    intro hway
    rcases Relation.ReflTransGen.cases_head hway with heq | ⟨super, hsuper, -⟩
    · cases heq
    · simp [cyclicCalls] at hsuper
  have hdeclared : ∀ type super, .addSupertype type super ∈ reordered ↔
      .addSupertype type super ∈ cyclicCalls := fun type super => by
    simp only [reordered, cyclicCalls, List.mem_cons, reduceCtorEq, false_or, List.not_mem_nil,
      or_false]
    tauto
  exact ⟨hcalls, hreordered, habove, hbelow,
    (hsame reordered hreordered hdeclared ⟨0⟩ ⟨2⟩).trans habove⟩

end TypeTable

end TreeLint
