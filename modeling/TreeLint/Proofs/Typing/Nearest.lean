import TreeLint.Proofs.Typing.Above

/-!
# The nearest type with an answer

`TypeTable.search?` asks the types above `source` in the order of their distance, in declarations,
from it. The queue holds types of at most two distances: `near`, those still to ask at one, and behind
them `far`, those right above types already asked, one declaration further up.

- `TypeTable.Climbs`: that many declarations lead from one type to another.
- `TypeTable.Layered`: where the search stands, by distance. `Layered.advance`, `Layered.follow`,
  `Layered.skip`: the turns keep it.
- `nearest_of_search?`: the answer found is that of a nearest type that has one.
-/

namespace TreeLint

namespace TypeTable

variable {α : Type} {table : TypeTable} {answer : TypeId → Option α}

/-- That many declarations lead up from `source` to a type. -/
inductive Climbs (table : TypeTable) (source : TypeId) : Nat → TypeId → Prop
  | here : Climbs table source 0 source
  | up {steps : Nat} {type super : TypeId} (h : Climbs table source steps type)
      (hsuper : super ∈ table.supertypes type) : Climbs table source (steps + 1) super

variable {source : TypeId}

theorem Climbs.above {steps : Nat} {type : TypeId} (h : table.Climbs source steps type) :
    table.Above source type := by
  induction h with
  | here => exact .refl
  | up _ hsuper ih => exact ih.tail hsuper

/-- Where the search from `source` stands: the types at a smaller distance than `steps` are in `seen`,
those at this distance are in `seen` or `near`, and the types in `far` are one declaration further up. -/
structure Layered (table : TypeTable) (answer : TypeId → Option α) (source : TypeId)
    (seen : List TypeId) (steps : Nat) (near far : List TypeId) : Prop where
  searched : table.Searched (answer · = none) seen (near ++ far)
  climbs_near : ∀ type ∈ near, table.Climbs source steps type
  climbs_far : ∀ type ∈ far, table.Climbs source (steps + 1) type
  seen_below : ∀ n < steps, ∀ type, table.Climbs source n type → type ∈ seen
  seen_or_near : ∀ type, table.Climbs source steps type → type ∈ seen ∨ type ∈ near

theorem layered_start (table : TypeTable) (answer : TypeId → Option α) (source : TypeId) :
    table.Layered answer source [] 0 [source] [] where
  searched := by simp [Searched]
  climbs_near := fun type hmem => List.mem_singleton.mp hmem ▸ .here
  climbs_far := by simp
  seen_below := by simp
  seen_or_near := fun type h => by
    cases h
    exact .inr List.mem_cons_self

namespace Layered

variable {seen near far : List TypeId} {steps : Nat} {type : TypeId}

/-- When `near` is used up, all types at the distance `steps` are in `seen`, and the search goes on
with `far`, one declaration further up. -/
theorem advance (h : table.Layered answer source seen steps [] far) :
    table.Layered answer source seen (steps + 1) far [] := by
  have hseen : ∀ type, table.Climbs source steps type → type ∈ seen := fun type hclimbs => by
    simpa using h.seen_or_near type hclimbs
  refine ⟨by simpa using h.searched, h.climbs_far, by simp, fun n hn type hclimbs => ?_,
    fun type hclimbs => ?_⟩
  · rcases Nat.lt_succ_iff_lt_or_eq.mp hn with hlt | rfl
    · exact h.seen_below n hlt type hclimbs
    · exact hseen type hclimbs
  · cases hclimbs with
    | up hbelow hsuper => exact (h.searched _ (hseen _ hbelow)).2 type hsuper

/-- The first of the queue is at the front, at the distance `steps` or, if `near` is used up, at the
next. -/
theorem exists_front {pending : List TypeId} (h : table.Layered answer source seen steps near far)
    (hqueue : near ++ far = type :: pending) :
    ∃ steps near far, table.Layered answer source seen steps (type :: near) far ∧
      near ++ far = pending := by
  cases near with
  | nil =>
    rw [List.nil_append] at hqueue
    subst hqueue
    exact ⟨steps + 1, pending, [], h.advance, List.append_nil pending⟩
  | cons other near =>
    obtain ⟨rfl, rfl⟩ := List.cons.inj hqueue
    exact ⟨steps, near, far, h, rfl⟩

/-- The types right above `type`, which has no answer, are found one declaration further up. -/
theorem follow (h : table.Layered answer source seen steps (type :: near) far)
    (hanswer : answer type = none) :
    table.Layered answer source (type :: seen) steps near (far ++ table.supertypes type) where
  searched := by
    have hsearched : table.Searched (answer · = none) seen (type :: (near ++ far)) := h.searched
    rw [← List.append_assoc]
    exact hsearched.follow hanswer (fun _ hx => List.mem_append_left _ hx)
      fun _ hx => List.mem_append_right _ hx
  climbs_near := fun other hmem => h.climbs_near other (List.mem_cons_of_mem type hmem)
  climbs_far := fun other hmem => (List.mem_append.mp hmem).elim (h.climbs_far other)
    (.up (h.climbs_near type List.mem_cons_self))
  seen_below := fun n hn other hclimbs =>
    List.mem_cons_of_mem type (h.seen_below n hn other hclimbs)
  seen_or_near := fun other hclimbs =>
    met_follow (fun _ hx => hx) (h.seen_or_near other hclimbs)

/-- A `type` in `seen` is dropped. -/
theorem skip (h : table.Layered answer source seen steps (type :: near) far)
    (hseen : type ∈ seen) : table.Layered answer source seen steps near far where
  searched := h.searched.skip hseen
  climbs_near := fun other hmem => h.climbs_near other (List.mem_cons_of_mem type hmem)
  climbs_far := h.climbs_far
  seen_below := h.seen_below
  seen_or_near := fun other hclimbs => met_skip hseen (h.seen_or_near other hclimbs)

/-- No type at a smaller distance than `steps` has an answer. -/
theorem le_of_answer (h : table.Layered answer source seen steps near far) {other : TypeId}
    {n : Nat} (hclimbs : table.Climbs source n other) (hanswer : (answer other).isSome = true) :
    steps ≤ n := by
  refine Nat.le_of_not_lt fun hlt => ?_
  have hseen := h.seen_below n hlt other hclimbs
  rw [(h.searched other hseen).1] at hanswer
  cases hanswer

end Layered

/-- What a search finds from any point on is the answer of a nearest type that has one. -/
theorem nearest_of_searchFrom? {seen pending near far : List TypeId} {steps : Nat} {found : α}
    (h : table.searchFrom? answer seen pending = some found)
    (hlayered : table.Layered answer source seen steps near far) (hqueue : near ++ far = pending) :
    ∃ type steps, table.Climbs source steps type ∧ answer type = some found ∧
      ∀ other n, table.Climbs source n other → (answer other).isSome = true → steps ≤ n := by
  fun_induction searchFrom? table answer seen pending generalizing steps near far with
  | case1 => cases h
  | case2 seen type pending hseen ih =>
    obtain ⟨steps, near, far, hlayered, rfl⟩ := hlayered.exists_front hqueue
    exact ih h (hlayered.skip hseen) rfl
  | case3 seen type pending _ found' hanswer =>
    cases h
    obtain ⟨steps, near, far, hlayered, -⟩ := hlayered.exists_front hqueue
    exact ⟨type, steps, hlayered.climbs_near type List.mem_cons_self, hanswer,
      fun other n => hlayered.le_of_answer⟩
  | case4 seen type pending _ hanswer ih =>
    obtain ⟨steps, near, far, hlayered, rfl⟩ := hlayered.exists_front hqueue
    exact ih h (hlayered.follow hanswer) (List.append_assoc near far _).symm

/-- What `search?` finds from `source` is the answer of a nearest type that has one. -/
theorem nearest_of_search? {found : α} (h : table.search? answer source = some found) :
    ∃ type steps, table.Climbs source steps type ∧ answer type = some found ∧
      ∀ other n, table.Climbs source n other → (answer other).isSome = true → steps ≤ n :=
  nearest_of_searchFrom? h (layered_start table answer source) rfl

end TypeTable

end TreeLint
