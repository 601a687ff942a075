/-!
# Association lists with one entry a key

- `Assoc.get?` looks a key up; `Assoc.insert` replaces the entry of a known key where it stands,
  and puts a new key behind all others.
- `get?_insert` says what a lookup gives after an insertion, and `length_insert` that the list
  grows by the new keys alone.
-/

namespace TreeLint

/-- Pairs of a key and a value, in the order in which the keys were first inserted. -/
abbrev Assoc (κ α : Type) := List (κ × α)

namespace Assoc

variable {κ α : Type} [DecidableEq κ]

/-- The value stored under `key`. -/
def get? (key : κ) : Assoc κ α → Option α
  | [] => none
  | (k, a) :: rest => if k = key then some a else get? key rest

/-- Stores `value` under `key`. -/
def insert (key : κ) (value : α) : Assoc κ α → Assoc κ α
  | [] => [(key, value)]
  | (k, a) :: rest => if k = key then (key, value) :: rest else (k, a) :: insert key value rest

/-- Whether something is stored under `key`. -/
def contains (key : κ) (m : Assoc κ α) : Bool := (get? key m).isSome

theorem get?_insert (key other : κ) (value : α) (m : Assoc κ α) :
    get? other (insert key value m) = if key = other then some value else get? other m := by
  induction m with
  | nil => simp [insert, get?]
  | cons entry rest ih =>
    obtain ⟨k, a⟩ := entry
    by_cases hk : k = key
    · subst hk
      by_cases ho : k = other <;> simp [insert, get?, ho]
    · by_cases ho : k = other
      · subst ho
        simp [insert, get?, hk, Ne.symm hk]
      · simp [insert, get?, hk, ho, ih]

/-- What holds of the new entry, `key` with `value`, and of those before holds after an
insertion. -/
theorem of_get?_insert {P : κ → α → Prop} {key other : κ} {value found : α} {m : Assoc κ α}
    (hnew : P key value) (hold : get? other m = some found → P other found)
    (h : get? other (insert key value m) = some found) : P other found := by
  rw [get?_insert] at h
  split at h
  · rename_i hkey
    cases h
    exact hkey ▸ hnew
  · exact hold h

theorem length_insert (key : κ) (value : α) (m : Assoc κ α) :
    (insert key value m).length = if contains key m then m.length else m.length + 1 := by
  induction m with
  | nil => simp [insert, contains, get?]
  | cons entry rest ih =>
    obtain ⟨k, a⟩ := entry
    by_cases hk : k = key
    · simp [insert, contains, get?, hk]
    · simp only [contains] at ih
      simp only [insert, contains, get?, hk, if_false, List.length_cons, ih]
      split <;> simp_all

end Assoc

end TreeLint
