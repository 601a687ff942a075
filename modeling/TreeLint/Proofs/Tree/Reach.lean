import Mathlib.Data.List.Count
import Mathlib.Data.List.Nodup
import Mathlib.Logic.Relation
import TreeLint.Proofs.Tree.History

/-!
# The walk that meets every node

`Builder.reach` follows links downward and stops at a node met before. It decides something about
all links at once: that they lead to every node, and to none in two ways. The walk puts each
occurrence of a node in a list of children into `pending` once, so what it says about one run is a
count of those occurrences.

* `perm_of_reach`: the nodes met are the pending ones and the children of the nodes met, counted.
* `exists_reach_of_perm`: if the unmet nodes are the pending ones and the children of the unmet
  nodes, counted, then the walk does not stop early.
* `checkReach_eq_ok_iff`: the root and all children together are all nodes, each once, and the links
  lead to each from the root.
-/

namespace TreeLint

namespace Builder

variable {b : Builder} {root : NodeId}

/-- A link leads from `parent` to each `child` of it. -/
def Link (b : Builder) (parent child : NodeId) : Prop := child ∈ b.children parent

/-- The children of all nodes of `b`, node by node. -/
def allChildren (b : Builder) : List NodeId := b.ids.flatMap b.children

theorem mem_ids {id : NodeId} : id ∈ b.ids ↔ b.contains id = true := by
  cases id
  simp [ids, contains]

theorem nodup_ids (b : Builder) : b.ids.Nodup :=
  List.nodup_range.map fun i j h => by simpa using h

theorem mem_allChildren {child : NodeId} :
    child ∈ b.allChildren ↔ ∃ parent, b.contains parent = true ∧ child ∈ b.children parent := by
  simp [allChildren, mem_ids]

/-! ## What a completed walk has met -/

/-- The nodes met, `new`, are the `pending` nodes and the children of the nodes met, each as often
as it occurs there. No node is met twice, and all of them exist. -/
theorem perm_of_reach {met pending final : List NodeId} (h : b.reach met pending = .ok final) :
    ∃ new, final = new ++ met ∧ new.Perm (pending ++ new.flatMap b.children) ∧
      (∀ id ∈ new, b.contains id = true) ∧ (met.Nodup → final.Nodup) := by
  fun_induction reach b met pending with
  | case1 met =>
    cases h
    exact ⟨[], rfl, by simp, by simp, id⟩
  | case2 => cases h
  | case3 met id pending hid hmet ih =>
    obtain ⟨new, rfl, hperm, hnew, hnodup⟩ := ih h
    refine ⟨new ++ [id], by simp, ?_, ?_, ?_⟩
    · -- Each of the children of `id` came into `pending` once.
      rw [List.perm_iff_count] at hperm ⊢
      intro x
      have hx := hperm x
      simp only [List.count_append, List.count_reverse, List.count_cons, List.count_nil,
        List.flatMap_append, List.flatMap_cons, List.flatMap_nil, List.append_nil] at hx ⊢
      omega
    · intro x hx
      rcases List.mem_append.mp hx with hx | hx
      · exact hnew x hx
      · rwa [List.mem_singleton.mp hx]
    · intro hnd
      exact hnodup (List.nodup_cons.mpr ⟨hmet, hnd⟩)
  | case4 => cases h

/-- Every `id` that the links lead to from a `pending` node has been met. -/
theorem mem_of_reach {met pending final : List NodeId} (h : b.reach met pending = .ok final)
    {start id : NodeId} (hstart : start ∈ pending) (hlink : Relation.ReflTransGen b.Link start id) :
    id ∈ final := by
  obtain ⟨new, rfl, hperm, -, -⟩ := perm_of_reach h
  suffices hnew : id ∈ new from List.mem_append_left met hnew
  induction hlink with
  | refl => exact hperm.mem_iff.mpr (List.mem_append_left _ hstart)
  | tail _ hlink ih =>
    exact hperm.mem_iff.mpr (List.mem_append_right _ (List.mem_flatMap.mpr ⟨_, ih, hlink⟩))

/-- Whatever has been met, `id`, is in `met` already, or the links lead to it from a `pending`
node. -/
theorem link_of_reach {met pending final : List NodeId} (h : b.reach met pending = .ok final)
    {id : NodeId} (hid : id ∈ final) :
    id ∈ met ∨ ∃ start ∈ pending, Relation.ReflTransGen b.Link start id := by
  fun_induction reach b met pending with
  | case1 met =>
    cases h
    exact .inl hid
  | case2 => cases h
  | case3 met next pending _ _ ih =>
    rcases ih h with hmet | ⟨start, hstart, hlink⟩
    · rcases List.mem_cons.mp hmet with rfl | hmet
      · exact .inr ⟨id, List.mem_cons_self, .refl⟩
      · exact .inl hmet
    · rcases List.mem_append.mp hstart with hchild | hstart
      · exact .inr ⟨next, List.mem_cons_self, .head (List.mem_reverse.mp hchild) hlink⟩
      · exact .inr ⟨start, List.mem_cons_of_mem next hstart, hlink⟩
  | case4 => cases h

/-! ## When the walk is completed -/

/-- The walk is completed when the unmet nodes `rest` are the pending nodes and the children of the
unmet nodes, each as often as it occurs there. -/
theorem exists_reach_of_perm {met pending rest : List NodeId} (hnodup : rest.Nodup)
    (hrest : ∀ id ∈ rest, b.contains id = true ∧ id ∉ met)
    (hperm : (pending ++ rest.flatMap b.children).Perm rest) :
    ∃ final, b.reach met pending = .ok final := by
  fun_induction reach b met pending generalizing rest with
  | case1 met => exact ⟨met, rfl⟩
  | case2 met id pending hid hmet =>
    exact ((hrest id (hperm.mem_iff.mp List.mem_cons_self)).2 hmet).elim
  | case3 met id pending hid hmet ih =>
    have hmem : id ∈ rest := hperm.mem_iff.mp List.mem_cons_self
    have herase := List.perm_cons_erase hmem
    refine ih (hnodup.erase id) (fun x hx => ?_) ?_
    · obtain ⟨hne, hx⟩ := hnodup.mem_erase_iff.mp hx
      exact ⟨(hrest x hx).1, by simpa [hne] using (hrest x hx).2⟩
    · -- Take `id` away on both sides.
      have hflat := herase.flatMap_right b.children
      rw [List.perm_iff_count] at *
      intro x
      have h₁ := hperm x
      have h₂ := herase x
      have h₃ := hflat x
      simp only [List.count_append, List.count_reverse, List.count_cons, List.flatMap_cons,
        List.cons_append] at h₁ h₂ h₃ ⊢
      omega
  | case4 met id pending hid =>
    exact (hid (hrest id (hperm.mem_iff.mp List.mem_cons_self)).1).elim

theorem checkReach_eq_ok_iff_exists : b.checkReach root = .ok () ↔
    ∃ met, b.reach [] [root] = .ok met ∧ ∀ id, b.contains id = true → id ∈ met := by
  unfold checkReach
  cases hreach : b.reach [] [root] with
  | error e => simp
  | ok met =>
    simp only [Except.ok.injEq, exists_eq_left']
    cases hfind : (List.range b.nodes.size).find? fun index => ⟨index⟩ ∉ met with
    | none =>
      have hmem : ∀ id, b.contains id = true → id ∈ met := by
        rintro ⟨index⟩ hid
        simpa using List.find?_eq_none.mp hfind index (by simpa [contains] using hid)
      simpa using hmem
    | some index =>
      have hnot := List.find?_some hfind
      have hmem := List.mem_range.mp (List.mem_of_find?_eq_some hfind)
      constructor
      · rintro ⟨⟩
      · intro hall
        exact absurd (hall ⟨index⟩ (by simpa [contains] using hmem)) (by simpa using hnot)

/-- The walk from `root` meets every node, and none twice, exactly when the root and all children
together are all nodes, each once, and the links lead to each from the root. -/
theorem checkReach_eq_ok_iff : b.checkReach root = .ok () ↔
    (root :: b.allChildren).Perm b.ids ∧
      ∀ id, b.contains id = true → Relation.ReflTransGen b.Link root id := by
  rw [checkReach_eq_ok_iff_exists]
  constructor
  · rintro ⟨met, hreach, hall⟩
    obtain ⟨new, hnew, hperm, hcontains, hnodup⟩ := perm_of_reach hreach
    obtain rfl : met = new := by simpa using hnew
    have hids : met.Perm b.ids := (List.perm_ext_iff_of_nodup (hnodup List.nodup_nil)
      (nodup_ids b)).mpr fun id => ⟨fun h => mem_ids.mpr (hcontains id h), fun h =>
        hall id (mem_ids.mp h)⟩
    refine ⟨?_, fun id hid => ?_⟩
    · exact ((hids.flatMap_right b.children).symm.cons root).trans (hperm.symm.trans hids)
    · rcases link_of_reach hreach (hall id hid) with hmet | ⟨start, hstart, hlink⟩
      · cases hmet
      · rwa [List.mem_singleton.mp hstart] at hlink
  · rintro ⟨hperm, hlink⟩
    have hpending : ([root] ++ b.ids.flatMap b.children).Perm b.ids := hperm
    obtain ⟨met, hreach⟩ := exists_reach_of_perm (nodup_ids b)
      (fun id hid => ⟨mem_ids.mp hid, List.not_mem_nil⟩) hpending
    exact ⟨met, hreach, fun id hid => mem_of_reach hreach List.mem_cons_self (hlink id hid)⟩

end Builder

end TreeLint
