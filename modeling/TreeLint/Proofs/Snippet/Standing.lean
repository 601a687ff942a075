import Mathlib.Data.List.Perm.Basic
import TreeLint.Proofs.Snippet.Planting

/-!
# Outlines that stand make trees

Where an outline stands in an array, every node is the top of one of its parts. So what
`Builder.finish` checks of the nodes can be said of the outline.

- `Stands.exists_at`: the part of which a node is on top.
- `Outline.Placed`: the spans of an outline fit a source, and those of parts lie in that of the whole
  one behind the other.
- `finish_of_stands`: an outline that is placed makes a tree, with links that agree.
-/

namespace TreeLint

namespace Snippet

namespace Outline

variable {nodes : Array Node} {types : TypeTable}

/-! ## Parts -/

/-- The outline `o` is a part of itself and of every outline that it is below in. -/
inductive Part (o : Outline) : Outline → Prop
  | self : Part o o
  | inside {label : Label} {children : List Outline} {child : Outline} (hchild : child ∈ children)
      (h : o.Part child) : Part o (.node label children)

theorem StandAll.exists_of_mem {parent : Option NodeId} {first : Nat} {os : List Outline}
    (h : StandAll nodes types parent first os) {id : NodeId} (hid : id ∈ places first os) :
    ∃ o ∈ os, ∃ m, o.Stands nodes types parent m ∧ o.place m = id := by
  induction os generalizing first with
  | nil => simp [places] at hid
  | cons o os ih =>
    rcases List.mem_cons.mp hid with rfl | hid
    · exact ⟨o, List.mem_cons_self, first, h.1, rfl⟩
    · obtain ⟨o', ho', hstands⟩ := ih h.2 hid
      exact ⟨o', List.mem_cons_of_mem o ho', hstands⟩

mutual

/-- Every place `i` between the first node and the last is that of the node on top of a `part`. It
is the place of the whole, or a child of another place `j`. -/
theorem Stands.exists_at {parent : Option NodeId} {first : Nat} {o : Outline}
    (h : o.Stands nodes types parent first) {i : Nat} (hi : first ≤ i) (hlt : i < first + o.size) :
    ∃ (part : Outline) (m : Nat) (above : Option NodeId), part.Part o ∧
      part.Stands nodes types above m ∧ part.place m = ⟨i⟩ ∧
      ((above = parent ∧ o.place first = ⟨i⟩) ∨
        ∃ j node, above = some ⟨j⟩ ∧ nodes[j]? = some node ∧ ⟨i⟩ ∈ node.children) := by
  obtain ⟨label, children⟩ := o
  by_cases hlast : i = first + sizeAll children
  · subst hlast
    exact ⟨.node label children, first, parent, .self, h, rfl, .inl ⟨rfl, rfl⟩⟩
  · rw [size] at hlt
    obtain ⟨child, hmem, part, m, above, hpart, hstands, hplace, hup⟩ :=
      StandAll.exists_at h.2.2 hi (by omega)
    refine ⟨part, m, above, .inside hmem hpart, hstands, hplace, .inr ?_⟩
    rcases hup with ⟨rfl, hid⟩ | hup
    · exact ⟨_, _, rfl, h.1, hid⟩
    · exact hup

theorem StandAll.exists_at {parent : Option NodeId} {first : Nat} {os : List Outline}
    (h : StandAll nodes types parent first os) {i : Nat} (hi : first ≤ i)
    (hlt : i < first + sizeAll os) :
    ∃ o ∈ os, ∃ (part : Outline) (m : Nat) (above : Option NodeId), part.Part o ∧
      part.Stands nodes types above m ∧ part.place m = ⟨i⟩ ∧
      ((above = parent ∧ ⟨i⟩ ∈ places first os) ∨
        ∃ j node, above = some ⟨j⟩ ∧ nodes[j]? = some node ∧ ⟨i⟩ ∈ node.children) := by
  cases os with
  | nil => simp only [sizeAll] at hlt; omega
  | cons o os =>
    rw [sizeAll] at hlt
    by_cases hhere : i < first + o.size
    · obtain ⟨part, m, above, hpart, hstands, hplace, hup⟩ := Stands.exists_at h.1 hi hhere
      refine ⟨o, List.mem_cons_self, part, m, above, hpart, hstands, hplace, hup.imp_left ?_⟩
      rintro ⟨habove, hid⟩
      exact ⟨habove, hid ▸ List.mem_cons_self⟩
    · obtain ⟨o', ho', part, m, above, hpart, hstands, hplace, hup⟩ :=
        StandAll.exists_at h.2 (i := i) (by omega) (by omega)
      refine ⟨o', List.mem_cons_of_mem o ho', part, m, above, hpart, hstands, hplace,
        hup.imp_left ?_⟩
      rintro ⟨habove, hid⟩
      exact ⟨habove, List.mem_cons_of_mem _ hid⟩

end

theorem Stands.node {parent : Option NodeId} {first : Nat} {o : Outline}
    (h : o.Stands nodes types parent first) :
    nodes[(o.place first).index]? = some (nodeAt o.label parent (places first o.children)) ∧
      types.binding? (o.place first) = o.label.binding ∧
      StandAll nodes types (some (o.place first)) first o.children := by
  obtain ⟨label, children⟩ := o
  exact h

/-! ## Spans -/

mutual

/-- The spans of an outline fit `source`, and parts lie inside the whole one behind the other. -/
def Placed (source : List Char) : Outline → Prop
  | .node label children =>
    label.span.fits source = true ∧ PlacedAll source label.span.start children label.span.stop

/-- The outlines lie one behind the other between two places of the source, `start` and `stop`. -/
def PlacedAll (source : List Char) (start : Nat) : List Outline → (stop : Nat) → Prop
  | [], stop => start ≤ stop
  | o :: os, stop =>
    start ≤ o.label.span.start ∧ o.Placed source ∧ PlacedAll source o.label.span.stop os stop

end

variable {source : List Char}

theorem Placed.fits {o : Outline} (h : o.Placed source) :
    o.label.span.fits source = true ∧
      PlacedAll source o.label.span.start o.children o.label.span.stop := by
  obtain ⟨label, children⟩ := o
  exact h

theorem Placed.start_le_stop {o : Outline} (h : o.Placed source) :
    o.label.span.start ≤ o.label.span.stop := (Span.fits_iff.mp h.fits.1).1

theorem PlacedAll.le {start stop : Nat} {os : List Outline} (h : PlacedAll source start os stop) :
    start ≤ stop := by
  induction os generalizing start with
  | nil => exact h
  | cons o os ih =>
    have hstop := ih h.2.2
    have hspan := h.2.1.start_le_stop
    have hstart := h.1
    omega

theorem PlacedAll.mem {start stop : Nat} {os : List Outline} (h : PlacedAll source start os stop)
    {o : Outline} (ho : o ∈ os) :
    o.Placed source ∧ start ≤ o.label.span.start ∧ o.label.span.stop ≤ stop := by
  induction os generalizing start with
  | nil => cases ho
  | cons o' os ih =>
    rcases List.mem_cons.mp ho with rfl | ho
    · exact ⟨h.2.1, h.1, h.2.2.le⟩
    · obtain ⟨hplaced, hstart, hstop⟩ := ih h.2.2 ho
      have hspan := h.2.1.start_le_stop
      exact ⟨hplaced, by have := h.1; omega, hstop⟩

theorem Placed.part {o whole : Outline} (hpart : o.Part whole) (h : whole.Placed source) :
    o.Placed source := by
  induction hpart with
  | self => exact h
  | inside hchild _ ih => exact ih (h.2.mem hchild).1

/-- Outlines `os` that lie one behind the other have spans in order. -/
theorem PlacedAll.isChain {start stop : Nat} {os : List Outline}
    (h : PlacedAll source start os stop) :
    os.IsChain fun l r => l.label.span.stop ≤ r.label.span.start := by
  induction os generalizing start with
  | nil => exact .nil
  | cons o os ih =>
    cases os with
    | nil => exact .singleton o
    | cons o' os => exact List.isChain_cons_cons.mpr ⟨h.2.2.1, ih h.2.2⟩

end Outline

/-! ## Finished trees -/

section

open Outline

variable {b : Builder} {types : TypeTable} {o : Outline}

section

variable {first : Nat} {above : Option NodeId} (h : o.Stands b.nodes types above first)

include h

/-- The children of the node on top of `o` are the nodes on top of the parts right below. -/
theorem children_place : b.children (o.place first) = places first o.children := by
  simp [Builder.children, h.node.1, nodeAt]

theorem range_place : b.range (o.place first) = o.label.span :=
  Builder.range_of_getElem? h.node.1

theorem parent?_place : b.parent? (o.place first) = above := by
  simp [Builder.parent?, h.node.1, nodeAt]

theorem contains_place : b.contains (o.place first) = true :=
  Builder.contains_iff.mpr ⟨_, h.node.1⟩

end

theorem ranges_places {first : Nat} {above : Option NodeId} {os : List Outline}
    (h : StandAll b.nodes types above first os) :
    (places first os).map b.range = os.map fun o => o.label.span := by
  induction os generalizing first with
  | nil => rfl
  | cons o os ih => rw [places, List.map_cons, List.map_cons, range_place h.1, ih h.2]

/-! ### All nodes, each once -/

/-- The places from `first` on, as many as there are nodes. -/
def placesFrom (first size : Nat) : List NodeId := (List.range' first size).map NodeId.mk

theorem placesFrom_add (first m n : Nat) :
    placesFrom first (m + n) = placesFrom first m ++ placesFrom (first + m) n := by
  rw [placesFrom, ← List.range'_append_1, List.map_append]
  rfl

mutual

/-- The top and all children together are all nodes of an outline `o`. -/
theorem perm_of_stands {first : Nat} {above : Option NodeId} {o : Outline}
    (h : o.Stands b.nodes types above first) :
    ((placesFrom first o.size).flatMap b.children ++ [o.place first]).Perm
      (placesFrom first o.size) := by
  obtain ⟨label, children⟩ := o
  have hchildren := children_place h
  simp only [place, Outline.children] at hchildren
  rw [size, placesFrom_add, List.flatMap_append]
  refine List.Perm.append ?_ (List.Perm.refl _)
  simpa [placesFrom, hchildren] using perm_of_standAll h.2.2

theorem perm_of_standAll {first : Nat} {above : Option NodeId} {os : List Outline}
    (h : StandAll b.nodes types above first os) :
    ((placesFrom first (sizeAll os)).flatMap b.children ++ places first os).Perm
      (placesFrom first (sizeAll os)) := by
  cases os with
  | nil => exact .nil
  | cons o os =>
    have htop := perm_of_stands h.1
    have hrest := perm_of_standAll h.2
    rw [sizeAll, placesFrom_add, List.flatMap_append, places]
    refine List.Perm.trans ?_ (htop.append hrest)
    rw [List.append_assoc, List.append_assoc]
    refine List.Perm.append_left _ ?_
    rw [List.singleton_append]
    exact List.perm_middle

end

mutual

/-- Links lead from the node on top to all nodes `⟨i⟩` of an outline `o`. -/
theorem reached_of_stands {first : Nat} {above : Option NodeId} {o : Outline}
    (h : o.Stands b.nodes types above first) {i : Nat} (hi : first ≤ i) (hlt : i < first + o.size) :
    Relation.ReflTransGen b.Link (o.place first) ⟨i⟩ := by
  obtain ⟨label, children⟩ := o
  have hchildren := children_place h
  rw [size] at hlt
  by_cases hlast : i = first + sizeAll children
  · subst hlast
    exact .refl
  · obtain ⟨child, hmem, hlink⟩ := reached_of_standAll h.2.2 hi (by omega)
    exact .head (by rw [Builder.Link, hchildren]; exact hmem) hlink

theorem reached_of_standAll {first : Nat} {above : Option NodeId} {os : List Outline}
    (h : StandAll b.nodes types above first os) {i : Nat} (hi : first ≤ i)
    (hlt : i < first + sizeAll os) :
    ∃ id ∈ places first os, Relation.ReflTransGen b.Link id ⟨i⟩ := by
  cases os with
  | nil => simp only [sizeAll] at hlt; omega
  | cons o os =>
    rw [sizeAll] at hlt
    by_cases hhere : i < first + o.size
    · exact ⟨_, List.mem_cons_self, reached_of_stands h.1 hi hhere⟩
    · obtain ⟨id, hid, hlink⟩ := reached_of_standAll h.2 (i := i) (by omega) (by omega)
      exact ⟨id, List.mem_cons_of_mem _ hid, hlink⟩

end

variable (h : o.Stands b.nodes types none 0) (hsize : b.nodes.size = o.size)

include h hsize

/-- Every node `id` is on top of a `part`, and the root is on top of the whole. -/
theorem exists_part {id : NodeId} (hid : b.contains id = true) :
    ∃ (part : Outline) (m : Nat) (above : Option NodeId), part.Part o ∧
      part.Stands b.nodes types above m ∧ part.place m = id ∧
      ((above = none ∧ o.place 0 = id) ∨ ∃ parent, above = some parent ∧ id ∈ b.children parent) := by
  have hlt : id.index < b.nodes.size := by simpa [Builder.contains] using hid
  obtain ⟨part, m, above, hpart, hstands, hplace, hup⟩ :=
    h.exists_at (Nat.zero_le id.index) (by omega)
  refine ⟨part, m, above, hpart, hstands, hplace, hup.imp_right ?_⟩
  rintro ⟨j, node, rfl, hnode, hmem⟩
  exact ⟨⟨j⟩, rfl, by simpa [Builder.children, hnode] using hmem⟩

theorem linked_of_stands : b.Linked := by
  have hchild : ∀ {parent child}, child ∈ b.children parent →
      b.contains child = true ∧ b.parent? child = some parent := by
    intro parent child hchild
    obtain ⟨part, m, above, -, hstands, rfl, -⟩ :=
      exists_part h hsize (Builder.contains_of_child hchild)
    rw [children_place hstands] at hchild
    obtain ⟨below, -, m', hbelow, rfl⟩ := hstands.node.2.2.exists_of_mem hchild
    exact ⟨contains_place hbelow, parent?_place hbelow⟩
  refine ⟨fun hmem => (hchild hmem).1, fun {parent child} hparent => ?_,
    fun hmem => by simp [(hchild hmem).2]⟩
  have hcontains : b.contains child = true := by
    cases hnode : b.nodes[child.index]? with
    | none => simp [Builder.parent?, hnode] at hparent
    | some node => exact Builder.contains_iff.mpr ⟨node, hnode⟩
  obtain ⟨part, m, above, -, hstands, rfl, hup⟩ := exists_part h hsize hcontains
  rw [parent?_place hstands] at hparent
  rcases hup with ⟨rfl, -⟩ | ⟨parent', rfl, hmem⟩
  · cases hparent
  · cases hparent
    exact hmem

theorem checkReach_of_stands : b.checkReach (o.place 0) = .ok () := by
  have hids : b.ids = placesFrom 0 o.size := by
    rw [Builder.ids, hsize, List.range_eq_range']
    rfl
  refine Builder.checkReach_eq_ok_iff.mpr ⟨?_, fun id hid => ?_⟩
  · rw [Builder.allChildren, hids]
    exact (List.perm_append_singleton _ _).symm.trans (perm_of_stands h)
  · have hlt : id.index < b.nodes.size := by simpa [Builder.contains] using hid
    exact reached_of_stands h (Nat.zero_le id.index) (by omega)

theorem isTree_of_stands (hplaced : o.Placed b.source.toList) : b.IsTree (o.place 0) := by
  have hreach := Builder.checkReach_eq_ok_iff.mp (checkReach_of_stands h hsize)
  have hlinked := linked_of_stands h hsize
  have hroot : o.place 0 ∉ b.allChildren := fun hmem => by
    obtain ⟨parent, -, hchild⟩ := Builder.mem_allChildren.mp hmem
    have hsome := hlinked.isSome_parent? hchild
    rw [parent?_place h] at hsome
    cases hsome
  refine ⟨fun id hid => ?_, fun parent child hparent hchild => ?_, fun parent hparent => ?_, ?_,
    hreach.2⟩
  · obtain ⟨part, m, above, hpart, hstands, rfl, -⟩ := exists_part h hsize hid
    rw [range_place hstands]
    exact Span.fits_iff.mp (hplaced.part hpart).fits.1
  · obtain ⟨part, m, above, hpart, hstands, rfl, -⟩ := exists_part h hsize hparent
    rw [children_place hstands] at hchild
    obtain ⟨below, hmem, m', hbelow, rfl⟩ := hstands.node.2.2.exists_of_mem hchild
    rw [range_place hstands, range_place hbelow]
    exact ((hplaced.part hpart).fits.2.mem hmem).2
  · obtain ⟨part, m, above, hpart, hstands, rfl, -⟩ := exists_part h hsize hparent
    have hchain := (hplaced.part hpart).fits.2.isChain
    rw [← List.isChain_map (R := fun l r : Span => l.stop ≤ r.start) fun o : Outline => o.label.span,
      ← ranges_places hstands.node.2.2, List.isChain_map] at hchain
    rwa [children_place hstands]
  · exact (Builder.perm_ids_iff (contains_place h) hroot hlinked.contains_child).mp hreach.1

/-- An outline `o` that stands in a builder `b` and is placed in its source makes a tree. -/
theorem finish_of_stands (hplaced : o.Placed b.source.toList) :
    b.finish (o.place 0) = .ok ⟨b.path, b.source, b.nodes, o.place 0⟩ ∧
      (⟨b.path, b.source, b.nodes, o.place 0⟩ : Tree).Sound := by
  have hlinked := linked_of_stands h hsize
  have htree := isTree_of_stands h hsize hplaced
  exact ⟨(Builder.finish_eq_ok_iff hlinked (contains_place h)).mpr ⟨parent?_place h, htree, rfl⟩,
    Builder.sound_of_isTree hlinked (contains_place h) (parent?_place h) htree⟩

end

end Snippet

end TreeLint
