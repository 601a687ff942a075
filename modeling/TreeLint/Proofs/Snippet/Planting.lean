import TreeLint.Proofs.Snippet.Outline
import TreeLint.Proofs.Tree.Sound

/-!
# Where the nodes of an outline stand

An outline is planted in one run of places, a node behind all that is below it. So the place of each
node is known from the place of the first, and what was planted is the outline again.

- `Outline.place`: the place of the node on top. `Outline.Stands`: an outline stands in an array of
  nodes.
- `Draft.plant_spec`: what is planted stands, and nothing else has changed.
- `Outline.Placed`: the spans of an outline fit a source and nest. `finish_of_stands`: then it makes
  a tree.
-/

namespace TreeLint

namespace Snippet

namespace Outline

/-! ## Places -/

mutual

/-- Number of nodes: the one on top, and those of its `children`. -/
def size : Outline → Nat
  | .node _ children => sizeAll children + 1

/-- Number of nodes of outlines: the sum of their `size`. -/
def sizeAll : List Outline → Nat
  | [] => 0
  | o :: os => o.size + sizeAll os

end

/-- The place of the node on top when the first of the nodes stands at `first`. -/
def place (first : Nat) : Outline → NodeId
  | .node _ children => ⟨first + sizeAll children⟩

/-- The places of the nodes on top of outlines that stand one behind the other, from `first` on. -/
def places (first : Nat) : List Outline → List NodeId
  | [] => []
  | o :: os => o.place first :: places (first + o.size) os

theorem index_place (first : Nat) (o : Outline) : (o.place first).index + 1 = first + o.size := by
  obtain ⟨label, children⟩ := o
  simp [place, size]
  omega

theorem mem_places {first : Nat} {os : List Outline} {id : NodeId} (h : id ∈ places first os) :
    first ≤ id.index ∧ id.index < first + sizeAll os := by
  induction os generalizing first with
  | nil => simp [places] at h
  | cons o os ih =>
    have htop := index_place first o
    have hpos : 0 < o.size := by cases o; simp [size]
    rw [sizeAll]
    rcases List.mem_cons.mp h with rfl | h
    · omega
    · have := ih h
      omega

/-- The node that a `label` describes. -/
def nodeAt (label : Label) (parent : Option NodeId) (children : List NodeId) : Node :=
  { kind := label.kind, range := label.span, name := label.name, parent, children,
    suppressions := label.keys }

mutual

/-- The nodes of an outline stand in an array from the place `first` on, the one on top below
`parent`, and are bound as it says. -/
def Stands (nodes : Array Node) (types : TypeTable) (parent : Option NodeId) (first : Nat) :
    Outline → Prop
  | .node label children =>
    nodes[first + sizeAll children]? = some (nodeAt label parent (places first children)) ∧
      types.binding? ⟨first + sizeAll children⟩ = label.binding ∧
      StandAll nodes types (some ⟨first + sizeAll children⟩) first children

/-- Outlines stand in `nodes` one behind the other, from `first` on. -/
def StandAll (nodes : Array Node) (types : TypeTable) (parent : Option NodeId) (first : Nat) :
    List Outline → Prop
  | [] => True
  | o :: os => o.Stands nodes types parent first ∧ StandAll nodes types parent (first + o.size) os

end

section

variable {nodes nodes' : Array Node} {types types' : TypeTable} {parent parent' : Option NodeId}

mutual

/-- Only the places from the `first` node of `o` to the last matter. -/
theorem Stands.congr {parent : Option NodeId} {first : Nat} {o : Outline}
    (h : o.Stands nodes types parent first)
    (hnodes : ∀ i, first ≤ i → i < first + o.size → nodes'[i]? = nodes[i]?)
    (hbound : ∀ id : NodeId, first ≤ id.index → id.index < first + o.size →
      types'.binding? id = types.binding? id) : o.Stands nodes' types' parent first := by
  obtain ⟨label, children⟩ := o
  rw [size] at hnodes hbound
  obtain ⟨hnode, hbinding, hchildren⟩ := h
  refine ⟨?_, ?_, StandAll.congr hchildren (fun i hi hlt => hnodes i hi (by omega))
    fun id hi hlt => hbound id hi (by omega)⟩
  · rw [hnodes _ (by omega) (by omega), hnode]
  · rw [hbound _ (by simp) (by simp only; omega), hbinding]

theorem StandAll.congr {parent : Option NodeId} {first : Nat} {os : List Outline}
    (h : StandAll nodes types parent first os)
    (hnodes : ∀ i, first ≤ i → i < first + sizeAll os → nodes'[i]? = nodes[i]?)
    (hbound : ∀ id : NodeId, first ≤ id.index → id.index < first + sizeAll os →
      types'.binding? id = types.binding? id) : StandAll nodes' types' parent first os := by
  cases os with
  | nil => trivial
  | cons o os =>
    rw [sizeAll] at hnodes hbound
    exact ⟨Stands.congr h.1 (fun i hi hlt => hnodes i hi (by omega))
        fun id hi hlt => hbound id hi (by omega),
      StandAll.congr h.2 (fun i hi hlt => hnodes i (by omega) (by omega))
        fun id hi hlt => hbound id (by omega) (by omega)⟩

end

/-- Outlines `os` stay when the nodes on top get another parent, `parent'`. -/
theorem StandAll.adopt {first : Nat} {os : List Outline} (h : StandAll nodes types parent first os)
    (htop : ∀ id ∈ places first os,
      nodes'[id.index]? = (nodes[id.index]?).map fun node => { node with parent := parent' })
    (hothers : ∀ i, first ≤ i → i < first + sizeAll os → ⟨i⟩ ∉ places first os →
      nodes'[i]? = nodes[i]?)
    (hbound : ∀ id : NodeId, first ≤ id.index → id.index < first + sizeAll os →
      types'.binding? id = types.binding? id) : StandAll nodes' types' parent' first os := by
  induction os generalizing first with
  | nil => trivial
  | cons o os ih =>
    have hindex := index_place first o
    rw [sizeAll] at hothers hbound
    rw [places] at htop hothers
    obtain ⟨htop, htops⟩ := List.forall_mem_cons.mp htop
    -- The nodes on top of the outlines behind stand behind all nodes of this one.
    have hbehind : ∀ {i}, i < first + o.size → ⟨i⟩ ∉ places (first + o.size) os := fun hi hmem => by
      have := (mem_places hmem).1
      simp only at this
      omega
    refine ⟨?_, ih h.2 htops (fun i hi hlt hnot => hothers i (by omega) (by omega) ?_)
      fun id hi hlt => hbound id (by omega) (by omega)⟩
    · obtain ⟨label, children⟩ := o
      simp only [size] at hindex hothers hbound hbehind
      simp only [place] at htop hothers
      obtain ⟨hnode, hbinding, hchildren⟩ := h.1
      refine ⟨?_, ?_, hchildren.congr (fun i hi hlt => hothers i hi (by omega) ?_)
        fun id hi hlt => hbound id hi (by omega)⟩
      · rw [htop, hnode]
        rfl
      · rw [hbound _ (by simp) (by simp only; omega), hbinding]
      · rw [List.mem_cons, not_or]
        exact ⟨by simp; omega, hbehind (by omega)⟩
    · rw [List.mem_cons, not_or]
      refine ⟨fun heq => ?_, hnot⟩
      rw [← heq] at hindex
      simp only at hindex
      omega

end

end Outline

/-! ## Planting -/

namespace Draft

section

variable {d : Draft} {label : Label} {ids : List NodeId}

theorem size_top : (d.top label ids).2.builder.nodes.size = d.builder.nodes.size + 1 := by
  unfold top node suppress
  cases label.binding <;>
    simp [Builder.size_foldl_suppress, Builder.size_foldl_attach, Builder.push, bind]

theorem source_top : (d.top label ids).2.builder.source = d.builder.source ∧
    (d.top label ids).2.builder.path = d.builder.path := by
  have hkeys : ∀ (b : Builder) (id : NodeId),
      (label.keys.foldl (fun b key => b.suppress id key) b).source = b.source ∧
        (label.keys.foldl (fun b key => b.suppress id key) b).path = b.path := by
    intro b id
    induction label.keys generalizing b with
    | nil => exact ⟨rfl, rfl⟩
    | cons key keys ih => exact ih _
  have hids : ∀ (b : Builder) (id : NodeId),
      (ids.foldl (fun b child => b.attach id child) b).source = b.source ∧
        (ids.foldl (fun b child => b.attach id child) b).path = b.path := by
    intro b id
    induction ids generalizing b with
    | nil => exact ⟨rfl, rfl⟩
    | cons child ids ih =>
      have hattach : (b.attach id child).source = b.source ∧ (b.attach id child).path = b.path := by
        unfold Builder.attach
        split <;> exact ⟨rfl, rfl⟩
      rw [List.foldl_cons, (ih _).1, (ih _).2]
      exact hattach
  unfold top node suppress
  cases label.binding <;> simp only [bind, hkeys, hids] <;> exact ⟨rfl, rfl⟩

/-- A node is added behind all nodes, and its children `ids` get it for their parent. -/
theorem nodes_top (hids : ∀ id ∈ ids, id.index < d.builder.nodes.size) (i : Nat) :
    (d.top label ids).2.builder.nodes[i]? =
      if i = d.builder.nodes.size then some (Outline.nodeAt label none ids)
      else if ⟨i⟩ ∈ ids then (d.builder.nodes[i]?).map fun node =>
        { node with parent := some ⟨d.builder.nodes.size⟩ }
      else d.builder.nodes[i]? := by
  have hpush : ∀ id ∈ ids,
      (d.builder.push label.kind label.span label.name).contains id = true ∧
        id ≠ d.builder.nextId := by
    intro id hid
    have hlt := hids id hid
    refine ⟨by simp [Builder.contains, Builder.push]; omega, ?_⟩
    rintro rfl
    simp [Builder.nextId] at hlt
  have hnodes : (d.top label ids).2.builder = label.keys.foldl
      (fun b key => b.suppress d.builder.nextId key)
      (ids.foldl (fun b child => b.attach d.builder.nextId child)
        (d.builder.push label.kind label.span label.name)) := by
    unfold top node suppress
    cases label.binding <;> rfl
  rw [hnodes, Builder.nodes_foldl_suppress, Builder.nodes_foldl_attach hpush, Builder.nodes_push]
  simp only [Builder.nextId]
  by_cases hi : i = d.builder.nodes.size
  · simp [hi, Outline.nodeAt]
  · simp [hi]

theorem binding?_top (id : NodeId) : (d.top label ids).2.scope.types.binding? id =
    if id = ⟨d.builder.nodes.size⟩ then label.binding.or (d.scope.types.binding? id)
    else d.scope.types.binding? id := by
  unfold top node suppress
  cases label.binding with
  | none => simp
  | some binding =>
    simp only [bind, TypeTable.binding?, TypeTable.bind, Assoc.get?_insert, Builder.nextId,
      Option.some_or, eq_comm]

end

/-- What planting adds to a draft `d`: `size` nodes behind those that were there, and bindings of
them. -/
structure Grown (d d' : Draft) (size : Nat) : Prop where
  source : d'.builder.source = d.builder.source
  path : d'.builder.path = d.builder.path
  size : d'.builder.nodes.size = d.builder.nodes.size + size
  nodes : ∀ i < d.builder.nodes.size, d'.builder.nodes[i]? = d.builder.nodes[i]?
  bindings : ∀ id : NodeId, id.index < d.builder.nodes.size →
    d'.scope.types.binding? id = d.scope.types.binding? id

/-- No place of `d` without a node is bound. -/
def Unbound (d : Draft) : Prop :=
  ∀ id : NodeId, d.builder.nodes.size ≤ id.index → d.scope.types.binding? id = none

theorem Grown.trans {d d' d'' : Draft} {m n : Nat} (h : d.Grown d' m) (h' : d'.Grown d'' n) :
    d.Grown d'' (m + n) := by
  have hle : d.builder.nodes.size ≤ d'.builder.nodes.size := by rw [h.size]; omega
  refine ⟨h'.source.trans h.source, h'.path.trans h.path, by rw [h'.size, h.size]; omega, ?_, ?_⟩
  · exact fun i hi => (h'.nodes i (by omega)).trans (h.nodes i hi)
  · exact fun id hid => (h'.bindings id (by omega)).trans (h.bindings id hid)

mutual

/-- What is planted, `o`, stands behind the nodes that were there, and these are as they were. -/
theorem plant_spec {d : Draft} (hunbound : d.Unbound) : ∀ o : Outline,
    (d.plant o).1 = o.place d.builder.nodes.size ∧ d.Grown (d.plant o).2 o.size ∧
      (d.plant o).2.Unbound ∧ o.Stands (d.plant o).2.builder.nodes (d.plant o).2.scope.types none
        d.builder.nodes.size
  | .node label children => by
    obtain ⟨hids, hgrown, hunbound', hstandall⟩ := plantAll_spec hunbound children
    simp only [plant, Outline.place, Outline.size, Outline.Stands]
    -- Below the top all is planted: what follows is about the draft `grown` with one node more.
    generalize (d.plantAll children).2 = grown at hgrown hunbound' hstandall ⊢
    rw [hids, ← hgrown.size]
    have hplaces : ∀ id ∈ Outline.places d.builder.nodes.size children,
        d.builder.nodes.size ≤ id.index ∧ id.index < grown.builder.nodes.size := fun id hid => by
      rw [hgrown.size]
      exact Outline.mem_places hid
    have hnodes := @nodes_top grown label _ fun id hid => (hplaces id hid).2
    have hle : d.builder.nodes.size ≤ grown.builder.nodes.size := by rw [hgrown.size]; omega
    refine ⟨rfl, ⟨source_top.1.trans hgrown.source, source_top.2.trans hgrown.path, ?_, ?_, ?_⟩, ?_,
      ?_, ?_, ?_⟩
    · rw [size_top, hgrown.size, Nat.add_assoc]
    · -- The nodes that get a parent are new.
      intro i hi
      have hnot : ⟨i⟩ ∉ Outline.places d.builder.nodes.size children := fun hmem => by
        have := (hplaces _ hmem).1
        simp only at this
        omega
      rw [hnodes, if_neg (by omega), if_neg hnot, hgrown.nodes i hi]
    · intro id hid
      rw [binding?_top, if_neg (by rintro rfl; simp only at hid; omega), hgrown.bindings id hid]
    · intro id hid
      rw [size_top] at hid
      rw [binding?_top, if_neg (by rintro rfl; simp only at hid; omega), hunbound' id (by omega)]
    · rw [hnodes, if_pos rfl]
    · have hnone := hunbound' ⟨grown.builder.nodes.size⟩ (Nat.le_refl _)
      rw [binding?_top, if_pos rfl, hnone, Option.or_none]
    · refine hstandall.adopt (fun id hid => ?_) (fun i hi hlt hnot => ?_) fun id hid hlt => ?_
      · rw [hnodes, if_neg (by have := hplaces id hid; omega), if_pos hid]
      · rw [hnodes, if_neg (by rw [hgrown.size]; omega), if_neg hnot]
      · rw [binding?_top, if_neg]
        rintro rfl
        rw [hgrown.size] at hlt
        simp only at hlt
        omega

theorem plantAll_spec {d : Draft} (hunbound : d.Unbound) : ∀ os : List Outline,
    (d.plantAll os).1 = Outline.places d.builder.nodes.size os ∧
      d.Grown (d.plantAll os).2 (Outline.sizeAll os) ∧ (d.plantAll os).2.Unbound ∧
      Outline.StandAll (d.plantAll os).2.builder.nodes (d.plantAll os).2.scope.types none
        d.builder.nodes.size os
  | [] => by
    simp only [plantAll, Outline.places, Outline.sizeAll, Outline.StandAll, and_true, true_and]
    exact ⟨⟨rfl, rfl, rfl, fun _ _ => rfl, fun _ _ => rfl⟩, hunbound⟩
  | o :: os => by
    obtain ⟨hid, hgrown, hunbound', hstands⟩ := plant_spec hunbound o
    obtain ⟨hids, hgrowns, hunbound'', hstandall⟩ := plantAll_spec hunbound' os
    rw [hgrown.size] at hids hstandall
    simp only [plantAll, Outline.places, Outline.sizeAll, Outline.StandAll]
    refine ⟨by rw [hid, hids], hgrown.trans hgrowns, hunbound'', ?_, hstandall⟩
    -- The outlines behind this one leave its nodes as they are.
    refine hstands.congr (fun i _ hi => hgrowns.nodes i ?_) fun id _ hi => hgrowns.bindings id ?_ <;>
      rw [hgrown.size] <;> exact hi

end

end Draft

end Snippet

end TreeLint
