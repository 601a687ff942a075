import Mathlib.Data.List.Nodup
import TreeLint.Rule.Registry

/-!
# Registries of distinct rules

- `Registry.nodup_ofList`: no two rules of a registry have one name.
- `Registry.ofList_eq_of_nodup`: rules with distinct names are all kept, in order.
- `Registry.get?_name_iff`: a rule is found by its name unless an earlier one answers to it.
- `Registry.Unambiguous`: the registries in which every rule is found by its name.
-/

namespace TreeLint

theorem Rule.answersTo_iff {rule : Rule} {key : String} : rule.answersTo key = true ↔
    key = rule.name ∨ key = rule.code ∨ key ∈ rule.altNames := by
  simp [answersTo, or_assoc]

@[simp] theorem Rule.answersTo_name (rule : Rule) : rule.answersTo rule.name = true :=
  answersTo_iff.mpr (.inl rfl)

namespace Registry

variable {registry : Registry} {rules : List Rule}

/-- The step: a `rule` is added only under a new name. -/
theorem nodup_add (h : (registry.rules.map Rule.name).Nodup) (rule : Rule) :
    ((registry.add rule).rules.map Rule.name).Nodup := by
  unfold add
  split
  · exact h
  · rename_i hnew
    rw [List.map_append, List.map_cons, List.map_nil, List.nodup_append]
    refine ⟨h, List.nodup_singleton _, ?_⟩
    rintro name hname _ (_ | ⟨_, ⟨⟩⟩) rfl
    simp only [List.any_eq_true, beq_iff_eq, not_exists, not_and] at hnew
    obtain ⟨old, hold, heq⟩ := List.mem_map.mp hname
    exact hnew old hold heq

theorem nodup_ofList (rules : List Rule) : ((ofList rules).rules.map Rule.name).Nodup := by
  suffices h : ∀ registry : Registry, (registry.rules.map Rule.name).Nodup →
      ((rules.foldl add registry).rules.map Rule.name).Nodup from h {} List.nodup_nil
  induction rules with
  | nil => exact fun _ h => h
  | cons rule rules ih => exact fun registry h => ih (registry.add rule) (nodup_add h rule)

/-- Among `rules` whose names are new and distinct (`h`), all are added. -/
theorem foldl_add_eq (h : ((registry.rules ++ rules).map Rule.name).Nodup) :
    rules.foldl add registry = ⟨registry.rules ++ rules⟩ := by
  induction rules generalizing registry with
  | nil => simp
  | cons rule rules ih =>
    have hnew : registry.rules.any (·.name == rule.name) = false := by
      rw [List.any_eq_false]
      intro old hold heq
      rw [List.map_append, List.nodup_append] at h
      exact h.2.2 _ (List.mem_map_of_mem hold) _ List.mem_cons_self (by simpa using heq)
    have hadd : registry.add rule = ⟨registry.rules ++ [rule]⟩ := by simp [add, hnew]
    rw [List.foldl_cons, hadd, ih (by simpa using h)]
    simp

theorem ofList_eq_of_nodup (h : (rules.map Rule.name).Nodup) : ofList rules = ⟨rules⟩ := by
  simpa [ofList] using @foldl_add_eq {} rules (by simpa using h)

/-! ## Finding a rule by its name -/

theorem get?_eq_some_of_split {rule : Rule} {earlier later : List Rule}
    (hrules : registry.rules = earlier ++ rule :: later)
    (hclear : ∀ other ∈ earlier, other.answersTo rule.name = false) :
    registry.get? rule.name = some rule :=
  List.find?_eq_some_iff_append.mpr
    ⟨rule.answersTo_name, earlier, later, hrules, fun other hother => by simp [hclear other hother]⟩

/-- Before `rule` stand those of other names, the `earlier` ones. -/
theorem takeWhile_name_ne {rule : Rule} {earlier later : List Rule}
    (hnames : ((earlier ++ rule :: later).map Rule.name).Nodup) :
    (earlier ++ rule :: later).takeWhile (·.name ≠ rule.name) = earlier := by
  rw [List.map_append, List.nodup_append] at hnames
  rw [List.takeWhile_append_of_pos, List.takeWhile_cons_of_neg (by simp), List.append_nil]
  intro other hother
  exact decide_eq_true (hnames.2.2 _ (List.mem_map_of_mem hother) _ List.mem_cons_self)

theorem get?_name_iff (hnames : (registry.rules.map Rule.name).Nodup) {rule : Rule}
    (hrule : rule ∈ registry.rules) : registry.get? rule.name = some rule ↔
      ∀ earlier ∈ registry.rules.takeWhile (·.name ≠ rule.name),
        earlier.answersTo rule.name = false := by
  constructor
  · intro hget
    obtain ⟨-, earlier, later, hrules, hclear⟩ := List.find?_eq_some_iff_append.mp hget
    rw [hrules] at hnames ⊢
    rw [takeWhile_name_ne hnames]
    exact fun other hother => by simpa using hclear other hother
  · intro hclear
    obtain ⟨earlier, later, hrules⟩ := List.append_of_mem hrule
    rw [hrules] at hnames
    rw [hrules, takeWhile_name_ne hnames] at hclear
    exact get?_eq_some_of_split hrules hclear

/-- No `earlier` rule answers to the name of a `later` one. -/
def Unambiguous (registry : Registry) : Prop :=
  registry.rules.Pairwise fun earlier later => earlier.answersTo later.name = false

instance (registry : Registry) : Decidable registry.Unambiguous :=
  inferInstanceAs (Decidable (registry.rules.Pairwise fun earlier later =>
    earlier.answersTo later.name = false))

theorem Unambiguous.get?_name (h : registry.Unambiguous) {rule : Rule}
    (hrule : rule ∈ registry.rules) : registry.get? rule.name = some rule := by
  obtain ⟨earlier, later, hrules⟩ := List.append_of_mem hrule
  rw [Unambiguous, hrules, List.pairwise_append] at h
  exact get?_eq_some_of_split hrules fun other hother => h.2.2 other hother _ List.mem_cons_self

/-- Every rule is found by its name with `get?` exactly when none answers to the name of a later
one. -/
theorem unambiguous_iff (hnames : (registry.rules.map Rule.name).Nodup) :
    registry.Unambiguous ↔ ∀ rule ∈ registry.rules, registry.get? rule.name = some rule := by
  refine ⟨fun h rule hrule => h.get?_name hrule, fun h => List.pairwise_iff_getElem.mpr ?_⟩
  intro i j hi hj hij
  have hsplit : registry.rules.take j ++ registry.rules[j] :: registry.rules.drop (j + 1) =
      registry.rules := by
    rw [← List.drop_eq_getElem_cons hj, List.take_append_drop]
  have hfront := takeWhile_name_ne (hsplit.symm ▸ hnames)
  rw [hsplit] at hfront
  have hclear := (get?_name_iff hnames (List.getElem_mem hj)).mp (h _ (List.getElem_mem hj))
  rw [hfront] at hclear
  exact hclear _ (List.mem_take_iff_getElem.mpr ⟨i, by omega, rfl⟩)

end Registry

end TreeLint
