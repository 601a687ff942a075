import TreeLint.Proofs.Typing.Above

/-!
# How long the loops take

In each turn a loop takes one type from `pending`. The same type may be put there many times, once for
each type below it, and in a cycle of supertypes it is put there again after it has been followed. But
the types right above a type join `pending` only when it joins `seen`, which happens once. So
`pending.length + table.countAhead seen`, what is pending and what may still join it, loses at least one
in each turn.

- `TypeTable.Reaches`, `TypeTable.Ends`: the walk along a stack and the search along a queue, turn by
  turn.
- `exists_reaches`, `exists_ends`: the bound from any point on.
- `exists_reaches_isAssignable`, `exists_ends_search?`: from one type, neither loop takes more turns than
  supertypes are declared, and one.
-/

namespace TreeLint

namespace TypeTable

variable {α : Type} {table : TypeTable} {target : TypeId} {answer : TypeId → Option α}

/-- Number of supertypes that are declared in the table. -/
def declarationCount (table : TypeTable) : Nat := (table.typeIds.flatMap table.supertypes).length

/-- At the start, all declarations are ahead. -/
theorem countAhead_nil (table : TypeTable) : table.countAhead [] = table.declarationCount := by
  rw [countAhead, declarationCount, List.filter_eq_self.mpr (by simp)]

/-! ## The walk along a stack -/

/-- The walk from the stack `pending` ends with `result` after this number of turns. -/
inductive Reaches (table : TypeTable) (target : TypeId) :
    (seen pending : List TypeId) → (turns : Nat) → (result : Bool) → Prop
  | empty (seen : List TypeId) : Reaches table target seen [] 0 false
  | hit (seen pending : List TypeId) : Reaches table target seen (target :: pending) 1 true
  /-- A type in `seen` is dropped. -/
  | again {seen pending : List TypeId} {type : TypeId} {turns : Nat} {result : Bool}
      (hne : type ≠ target) (hseen : type ∈ seen)
      (h : Reaches table target seen pending turns result) :
      Reaches table target seen (type :: pending) (turns + 1) result
  /-- The types right above another type than `target` go on top of the stack. -/
  | follow {seen pending : List TypeId} {type : TypeId} {turns : Nat} {result : Bool}
      (hne : type ≠ target) (hnew : type ∉ seen)
      (h : Reaches table target (type :: seen) ((table.supertypes type).reverse ++ pending)
        turns result) :
      Reaches table target seen (type :: pending) (turns + 1) result

/-- A walk ends, on any table, with what `reachesFrom` says. -/
theorem exists_reaches (table : TypeTable) (target : TypeId) (seen pending : List TypeId) :
    ∃ turns ≤ pending.length + table.countAhead seen,
      table.Reaches target seen pending turns (table.reachesFrom target seen pending) := by
  fun_induction reachesFrom table target seen pending with
  | case1 seen => exact ⟨0, Nat.zero_le _, .empty seen⟩
  | case2 seen pending => exact ⟨1, by rw [List.length_cons]; omega, .hit seen pending⟩
  | case3 seen type pending hne hseen ih =>
    obtain ⟨turns, hturns, hreaches⟩ := ih
    refine ⟨turns + 1, ?_, .again hne hseen hreaches⟩
    rw [List.length_cons]
    omega
  | case4 seen type pending hne hnew ih =>
    obtain ⟨turns, hturns, hreaches⟩ := ih
    refine ⟨turns + 1, ?_, .follow hne hnew hreaches⟩
    -- What `type` adds to the stack is no longer ahead.
    have hahead := table.length_supertypes_add_countAhead_le hnew
    rw [List.length_append, List.length_reverse] at hturns
    rw [List.length_cons]
    omega

/-- Whether `source` is assignable to `target` is known after at most as many turns as supertypes are
declared, and one. -/
theorem exists_reaches_isAssignable (table : TypeTable) (source target : TypeId) :
    ∃ turns ≤ table.declarationCount + 1,
      table.Reaches target [] [source] turns (table.isAssignable source target) := by
  obtain ⟨turns, hturns, hreaches⟩ := exists_reaches table target [] [source]
  rw [countAhead_nil, List.length_singleton, Nat.add_comm] at hturns
  exact ⟨turns, hturns, hreaches⟩

/-! ## The search along a queue -/

/-- The search from the queue `pending` ends with `result` after this number of turns. -/
inductive Ends (table : TypeTable) (answer : TypeId → Option α) :
    (seen pending : List TypeId) → (turns : Nat) → (result : Option α) → Prop
  | empty (seen : List TypeId) : Ends table answer seen [] 0 none
  /-- A type in `seen` is dropped. -/
  | again {seen pending : List TypeId} {type : TypeId} {turns : Nat} {result : Option α}
      (hseen : type ∈ seen) (h : Ends table answer seen pending turns result) :
      Ends table answer seen (type :: pending) (turns + 1) result
  | found {seen pending : List TypeId} {type : TypeId} {found : α} (hnew : type ∉ seen)
      (hanswer : answer type = some found) :
      Ends table answer seen (type :: pending) 1 (some found)
  /-- The types right above a type without an answer join the end of the queue. -/
  | asked {seen pending : List TypeId} {type : TypeId} {turns : Nat} {result : Option α}
      (hnew : type ∉ seen) (hanswer : answer type = none)
      (h : Ends table answer (type :: seen) (pending ++ table.supertypes type) turns result) :
      Ends table answer seen (type :: pending) (turns + 1) result

/-- A search ends, on any table, with what `searchFrom?` says. -/
theorem exists_ends (table : TypeTable) (answer : TypeId → Option α)
    (seen pending : List TypeId) : ∃ turns ≤ pending.length + table.countAhead seen,
      table.Ends answer seen pending turns (table.searchFrom? answer seen pending) := by
  fun_induction searchFrom? table answer seen pending with
  | case1 seen => exact ⟨0, Nat.zero_le _, .empty seen⟩
  | case2 seen type pending hseen ih =>
    obtain ⟨turns, hturns, hends⟩ := ih
    refine ⟨turns + 1, ?_, .again hseen hends⟩
    rw [List.length_cons]
    omega
  | case3 seen type pending hnew found hanswer =>
    exact ⟨1, by rw [List.length_cons]; omega, .found hnew hanswer⟩
  | case4 seen type pending hnew hanswer ih =>
    obtain ⟨turns, hturns, hends⟩ := ih
    refine ⟨turns + 1, ?_, .asked hnew hanswer hends⟩
    have hahead := table.length_supertypes_add_countAhead_le hnew
    rw [List.length_append] at hturns
    rw [List.length_cons]
    omega

/-- A search from `source` ends after at most as many turns as supertypes are declared, and one. -/
theorem exists_ends_search? (table : TypeTable) (answer : TypeId → Option α) (source : TypeId) :
    ∃ turns ≤ table.declarationCount + 1,
      table.Ends answer [] [source] turns (table.search? answer source) := by
  obtain ⟨turns, hturns, hends⟩ := exists_ends table answer [] [source]
  rw [countAhead_nil, List.length_singleton, Nat.add_comm] at hturns
  exact ⟨turns, hturns, hends⟩

end TypeTable

end TreeLint
