import Mathlib.Logic.Relation
import TreeLint.Typing.Table

/-!
# The types above a type

Two loops look upward from a type. `TypeTable.reachesFrom` takes types from a stack and compares each
with `target`; `TypeTable.searchFrom?` takes them from a queue and asks each for an `answer`. The order
has no part in what they decide: each looks at all types to which declared supertypes lead. Nothing is
assumed of `table`, so cycles are no exception.

- `TypeTable.Above`: declared supertypes lead from one type to another.
- `TypeTable.Searched`: what is known of the types in `seen` after any number of turns.
  `Searched.follow`, `Searched.skip`: the turns of both loops keep it.
- `isAssignable_iff`: the walk along the stack finds `target` exactly when it is above.
- `search?_isSome_iff`: the search along the queue finds an answer exactly when a type above has one.
-/

namespace TreeLint

namespace TypeTable

variable {α : Type} {table : TypeTable} {answer : TypeId → Option α} {target : TypeId}

/-- Declared supertypes lead from `source` to `target`, in any number of steps. -/
def Above (table : TypeTable) (source target : TypeId) : Prop :=
  Relation.ReflTransGen (fun type super => super ∈ table.supertypes type) source target

/-! ## One turn -/

section

variable {miss : TypeId → Prop} {seen pending pending' : List TypeId} {next start type : TypeId}

/-- Where a loop stands: each type in `seen` is a miss, and the types right above it are in `seen`
or `pending`. -/
def Searched (table : TypeTable) (miss : TypeId → Prop) (seen pending : List TypeId) : Prop :=
  ∀ type ∈ seen, miss type ∧ ∀ super ∈ table.supertypes type, super ∈ seen ∨ super ∈ pending

/-- Dropping `next`, which is in `seen`, from `pending` loses no type. -/
theorem met_skip (hseen : next ∈ seen) (h : type ∈ seen ∨ type ∈ next :: pending) :
    type ∈ seen ∨ type ∈ pending := by
  rcases h with hold | hpending
  · exact .inl hold
  · rcases List.mem_cons.mp hpending with rfl | hpending
    · exact .inl hseen
    · exact .inr hpending

/-- Moving `next` from `pending` to `seen` loses no type. -/
theorem met_follow (hkept : ∀ x ∈ pending, x ∈ pending')
    (h : type ∈ seen ∨ type ∈ next :: pending) : type ∈ next :: seen ∨ type ∈ pending' := by
  rcases h with hold | hpending
  · exact .inl (List.mem_cons_of_mem next hold)
  · rcases List.mem_cons.mp hpending with rfl | hpending
    · exact .inl List.mem_cons_self
    · exact .inr (hkept type hpending)

/-- A turn that drops `next` keeps `Searched`. -/
theorem Searched.skip (h : table.Searched miss seen (next :: pending)) (hseen : next ∈ seen) :
    table.Searched miss seen pending := by
  intro x hx
  obtain ⟨hmiss, hsupers⟩ := h x hx
  exact ⟨hmiss, fun super hsuper => met_skip hseen (hsupers super hsuper)⟩

/-- A turn that follows `next` keeps `Searched`, at whichever end of `pending` the types right above
`next` are put. -/
theorem Searched.follow (h : table.Searched miss seen (next :: pending)) (hmiss : miss next)
    (hkept : ∀ x ∈ pending, x ∈ pending') (hnew : ∀ x ∈ table.supertypes next, x ∈ pending') :
    table.Searched miss (next :: seen) pending' := by
  intro x hx
  rcases List.mem_cons.mp hx with rfl | hx
  · exact ⟨hmiss, fun super hsuper => .inr (hnew super hsuper)⟩
  · obtain ⟨hmiss, hsupers⟩ := h x hx
    exact ⟨hmiss, fun super hsuper => met_follow hkept (hsupers super hsuper)⟩

/-- When nothing is pending, `seen` is closed under declared supertypes. -/
theorem Searched.miss_of_above (h : table.Searched miss seen []) (hstart : start ∈ seen)
    (habove : table.Above start type) : miss type := by
  have hseen : type ∈ seen := by
    induction habove with
    | refl => exact hstart
    | tail _ hsuper ih => simpa using (h _ ih).2 _ hsuper
  exact (h type hseen).1

end

/-! ## The walk along a stack -/

/-- A walk that reaches `target` has come from a type of `pending`. -/
theorem above_of_reachesFrom {seen pending : List TypeId}
    (h : table.reachesFrom target seen pending = true) :
    ∃ start ∈ pending, table.Above start target := by
  fun_induction reachesFrom table target seen pending with
  | case1 => cases h
  | case2 seen pending => exact ⟨target, List.mem_cons_self, .refl⟩
  | case3 seen type pending _ _ ih =>
    obtain ⟨start, hstart, habove⟩ := ih h
    exact ⟨start, List.mem_cons_of_mem type hstart, habove⟩
  | case4 seen type pending _ _ ih =>
    obtain ⟨start, hstart, habove⟩ := ih h
    rcases List.mem_append.mp hstart with hsuper | hold
    · exact ⟨type, List.mem_cons_self, .head (List.mem_reverse.mp hsuper) habove⟩
    · exact ⟨start, List.mem_cons_of_mem type hold, habove⟩

/-- A walk that ends without `target` leaves none of the types above `start` out. -/
theorem not_above_of_reachesFrom {seen pending : List TypeId} {start : TypeId}
    (h : table.reachesFrom target seen pending = false)
    (hsearched : table.Searched (· ≠ target) seen pending)
    (hstart : start ∈ seen ∨ start ∈ pending) : ¬ table.Above start target := by
  fun_induction reachesFrom table target seen pending with
  | case1 seen =>
    intro habove
    exact hsearched.miss_of_above (by simpa using hstart) habove rfl
  | case2 => cases h
  | case3 seen type pending _ hseen ih =>
    exact ih h (hsearched.skip hseen) (met_skip hseen hstart)
  | case4 seen type pending hne _ ih =>
    -- The types right above `type` go on top of the stack, in front of what was there.
    have hkept : ∀ x ∈ pending, x ∈ (table.supertypes type).reverse ++ pending :=
      fun x hx => List.mem_append_right _ hx
    have hnew : ∀ x ∈ table.supertypes type, x ∈ (table.supertypes type).reverse ++ pending :=
      fun x hx => List.mem_append_left _ (List.mem_reverse.mpr hx)
    exact ih h (hsearched.follow hne hkept hnew) (met_follow hkept hstart)

/-- `source` is assignable to `target` exactly when declared supertypes lead there. -/
theorem isAssignable_iff {source target : TypeId} :
    table.isAssignable source target = true ↔ table.Above source target := by
  unfold isAssignable
  constructor
  · intro h
    obtain ⟨start, hstart, habove⟩ := above_of_reachesFrom h
    rwa [List.mem_singleton.mp hstart] at habove
  · intro habove
    have hsearched : table.Searched (· ≠ target) [] [source] := by simp [Searched]
    cases hreaches : table.reachesFrom target [] [source] with
    | true => rfl
    | false =>
      exact (not_above_of_reachesFrom hreaches hsearched (.inr List.mem_cons_self) habove).elim

/-! ## The search along a queue -/

/-- What a search finds is the answer of a type above one of `pending`. -/
theorem above_of_searchFrom? {seen pending : List TypeId} {found : α}
    (h : table.searchFrom? answer seen pending = some found) :
    ∃ start ∈ pending, ∃ type, table.Above start type ∧ answer type = some found := by
  fun_induction searchFrom? table answer seen pending with
  | case1 => cases h
  | case2 seen type pending _ ih =>
    obtain ⟨start, hstart, above, habove, hanswer⟩ := ih h
    exact ⟨start, List.mem_cons_of_mem type hstart, above, habove, hanswer⟩
  | case3 seen type pending _ found' hanswer =>
    cases h
    exact ⟨type, List.mem_cons_self, type, .refl, hanswer⟩
  | case4 seen type pending _ _ ih =>
    obtain ⟨start, hstart, above, habove, hanswer⟩ := ih h
    rcases List.mem_append.mp hstart with hold | hsuper
    · exact ⟨start, List.mem_cons_of_mem type hold, above, habove, hanswer⟩
    · exact ⟨type, List.mem_cons_self, above, .head hsuper habove, hanswer⟩

/-- A search that finds nothing has asked all types above `start`. -/
theorem none_of_searchFrom? {seen pending : List TypeId} {start type : TypeId}
    (h : table.searchFrom? answer seen pending = none)
    (hsearched : table.Searched (answer · = none) seen pending)
    (hstart : start ∈ seen ∨ start ∈ pending) (habove : table.Above start type) :
    answer type = none := by
  fun_induction searchFrom? table answer seen pending with
  | case1 seen => exact hsearched.miss_of_above (by simpa using hstart) habove
  | case2 seen next pending hseen ih =>
    exact ih h (hsearched.skip hseen) (met_skip hseen hstart)
  | case3 => cases h
  | case4 seen next pending _ hanswer ih =>
    -- The types right above `next` join the end of the queue.
    have hkept : ∀ x ∈ pending, x ∈ pending ++ table.supertypes next :=
      fun x hx => List.mem_append_left _ hx
    have hnew : ∀ x ∈ table.supertypes next, x ∈ pending ++ table.supertypes next :=
      fun x hx => List.mem_append_right _ hx
    exact ih h (hsearched.follow hanswer hkept hnew) (met_follow hkept hstart)

/-- A search from `type` finds something exactly when some type above has an answer. -/
theorem search?_isSome_iff {type : TypeId} : (table.search? answer type).isSome = true ↔
    ∃ target, table.Above type target ∧ (answer target).isSome = true := by
  unfold search?
  constructor
  · intro h
    obtain ⟨found, hfound⟩ := Option.isSome_iff_exists.mp h
    obtain ⟨start, hstart, target, habove, hanswer⟩ := above_of_searchFrom? hfound
    rw [List.mem_singleton.mp hstart] at habove
    exact ⟨target, habove, by rw [hanswer]; rfl⟩
  · rintro ⟨target, habove, hanswer⟩
    have hsearched : table.Searched (answer · = none) [] [type] := by simp [Searched]
    cases hfound : table.searchFrom? answer [] [type] with
    | some found => rfl
    | none =>
      rw [none_of_searchFrom? hfound hsearched (.inr List.mem_cons_self) habove] at hanswer
      cases hanswer

end TypeTable

end TreeLint
