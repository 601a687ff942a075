import TreeLint.Tree.Builder

/-!
# Calls on a builder

A builder is what a sequence of calls has made of an empty one. This module says what every such
sequence keeps.

* `BuilderCall`, `Builder.performAll`, `Builder.admits`: sequences of calls, and those that name only
  nodes added before.
* `children_performAll`: the children of a node are the nodes attached to it, in order.
* `range?_performAll`: the range of a node is the one it was given last.
* `Builder.Linked`: links lead to nodes of the builder, and what has a parent is among its children.
  `Linked.perform` is the step, `linked_performAll` the run.
* `parent?_eq_none_iff`: a node has no parent exactly when no call attached it.
-/

namespace TreeLint

/-- One call on a builder: `push` adds a node, the others name nodes that are there. -/
inductive BuilderCall where
  | push (kind : Kind) (range : Span) (name : Option String)
  | attach (parent child : NodeId)
  | suppress (node : NodeId) (key : String)
  | setRange (node : NodeId) (range : Span)
  deriving DecidableEq, Repr

namespace BuilderCall

/-- The nodes that a call names: none in `push`. -/
def named : BuilderCall → List NodeId
  | push .. => []
  | attach parent child => [parent, child]
  | suppress node _ => [node]
  | setRange node _ => [node]

/-- The node that a call attaches to `parent`. -/
def attachedTo? (parent : NodeId) : BuilderCall → Option NodeId
  | attach p child => if p = parent then some child else none
  | _ => none

/-- The node to which a call attaches `child`. -/
def parentOf? (child : NodeId) : BuilderCall → Option NodeId
  | attach parent c => if c = child then some parent else none
  | _ => none

/-- The nodes that calls attach to `parent`, in order. -/
def attachedTo (parent : NodeId) (calls : List BuilderCall) : List NodeId :=
  calls.filterMap (attachedTo? parent)

/-- The ranges of all nodes after a call, when `ranges` are those before it. -/
def rerange (ranges : List Span) : BuilderCall → List Span
  | push _ range _ => ranges ++ [range]
  | setRange node range => ranges.set node.index range
  | _ => ranges

theorem attachedTo?_eq_some_iff {parent child : NodeId} {call : BuilderCall} :
    call.attachedTo? parent = some child ↔ call = attach parent child := by
  cases call <;> simp [attachedTo?, eq_comm]

theorem parentOf?_eq_some_iff {parent child : NodeId} {call : BuilderCall} :
    call.parentOf? child = some parent ↔ call = attach parent child := by
  cases call <;> simp [parentOf?, and_comm, eq_comm]

theorem mem_attachedTo {parent child : NodeId} {calls : List BuilderCall} :
    child ∈ attachedTo parent calls ↔ attach parent child ∈ calls := by
  simp [attachedTo, attachedTo?_eq_some_iff]

end BuilderCall

namespace Builder

/-- The builder over `source` before any call. -/
def start (path source : String) : Builder := { path, source }

/-- What one call makes of the builder `b`. -/
def perform (b : Builder) : BuilderCall → Builder
  | .push kind range name => b.push kind range name
  | .attach parent child => b.attach parent child
  | .suppress node key => b.suppress node key
  | .setRange node range => b.setRange node range

/-- What a sequence of `calls` makes of the builder `b`. -/
def performAll (b : Builder) (calls : List BuilderCall) : Builder := calls.foldl perform b

/-- Each call names only nodes that the builder, `b` at first, has when the call is made. -/
def admits (b : Builder) : List BuilderCall → Bool
  | [] => true
  | call :: calls => call.named.all b.contains && (b.perform call).admits calls

/-- The node above `id`. -/
def parent? (b : Builder) (id : NodeId) : Option NodeId := (b.nodes[id.index]?).bind Node.parent

variable {b : Builder} {id parent child : NodeId} {call : BuilderCall}

/-! ## One call -/

theorem contains_iff : b.contains id = true ↔ ∃ node, b.nodes[id.index]? = some node := by
  rw [contains, decide_eq_true_eq]
  constructor
  · intro h
    exact ⟨_, Array.getElem?_eq_getElem h⟩
  · rintro ⟨node, h⟩
    exact (Array.getElem?_eq_some_iff.mp h).1

theorem children_of_not_contains (h : b.contains id = false) : b.children id = [] := by
  have hnone : b.nodes[id.index]? = none := by simpa [contains] using h
  simp [children, hnone]

theorem nodes_update (b : Builder) (id : NodeId) (change : Node → Node) (i : Nat) :
    (b.update id change).nodes[i]? =
      if id.index = i then (b.nodes[i]?).map change else b.nodes[i]? := by
  simp [update, Array.getElem?_modify]

theorem contains_update (b : Builder) (other : NodeId) (change : Node → Node) (id : NodeId) :
    (b.update other change).contains id = b.contains id := by
  simp [contains, update]

/-- A `change` that leaves the children of a node alone. -/
theorem children_update (other : NodeId) (change : Node → Node)
    (h : ∀ node, (change node).children = node.children) (id : NodeId) :
    (b.update other change).children id = b.children id := by
  unfold children
  rw [nodes_update]
  split
  · cases b.nodes[id.index]? <;> simp [h]
  · rfl

/-- A `change` that leaves the parent of a node alone. -/
theorem parent?_update (other : NodeId) (change : Node → Node)
    (h : ∀ node, (change node).parent = node.parent) (id : NodeId) :
    (b.update other change).parent? id = b.parent? id := by
  unfold parent?
  rw [nodes_update]
  split
  · cases b.nodes[id.index]? <;> simp [h]
  · rfl

/-- A `change` that leaves the range of a node alone. -/
theorem ranges_update (other : NodeId) (change : Node → Node)
    (h : ∀ node, (change node).range = node.range) :
    (b.update other change).nodes.toList.map Node.range = b.nodes.toList.map Node.range := by
  refine List.ext_getElem? fun i => ?_
  simp only [List.getElem?_map, Array.getElem?_toList, nodes_update]
  split
  · cases b.nodes[i]? <;> simp [h]
  · rfl

theorem nodes_push (b : Builder) (kind : Kind) (range : Span) (name : Option String) (i : Nat) :
    (b.push kind range name).nodes[i]? =
      if i = b.nodes.size then some ⟨kind, range, name, none, [], []⟩ else b.nodes[i]? := by
  simp [push, Array.getElem?_push]

/-- Attaching `child` changes it and its new `parent`. -/
theorem nodes_attach {b : Builder} {parent child : NodeId} (hchild : b.contains child = true)
    (hne : child ≠ parent) (i : Nat) :
    (b.attach parent child).nodes[i]? =
      if i = parent.index then (b.nodes[i]?).map fun node =>
        { node with children := node.children ++ [child] }
      else if i = child.index then (b.nodes[i]?).map fun node => { node with parent := some parent }
      else b.nodes[i]? := by
  have hindex : child.index ≠ parent.index := fun h => hne (by cases child; cases parent; simp_all)
  simp only [attach, hchild, if_true, nodes_update]
  by_cases hp : i = parent.index
  · subst hp
    simp [hindex]
  · by_cases hc : i = child.index
    · subst hc
      simp [Ne.symm hp, hp]
    · simp [Ne.symm hp, Ne.symm hc, hp, hc]

theorem contains_attach {b : Builder} (parent child id : NodeId) :
    (b.attach parent child).contains id = b.contains id := by
  unfold attach
  split <;> simp [contains_update]

/-- Attaching the nodes `ids` changes them and their new `parent`. -/
theorem nodes_foldl_attach {b : Builder} {parent : NodeId} {ids : List NodeId}
    (hids : ∀ id ∈ ids, b.contains id = true ∧ id ≠ parent) (i : Nat) :
    (ids.foldl (fun b child => b.attach parent child) b).nodes[i]? =
      if i = parent.index then (b.nodes[i]?).map fun node =>
        { node with children := node.children ++ ids }
      else if ⟨i⟩ ∈ ids then (b.nodes[i]?).map fun node => { node with parent := some parent }
      else b.nodes[i]? := by
  induction ids generalizing b with
  | nil => simp
  | cons child ids ih =>
    obtain ⟨⟨hchild, hne⟩, hids⟩ := List.forall_mem_cons.mp hids
    have hnodes := nodes_attach hchild hne i
    rw [List.foldl_cons, ih fun id hid => by simpa [contains_attach] using hids id hid, hnodes]
    by_cases hp : i = parent.index
    · simp only [hp, if_true, Option.map_map, Function.comp_def, List.append_assoc,
        List.singleton_append]
    · have hmk : (⟨i⟩ : NodeId) = child ↔ i = child.index := by
        cases child
        simp
      simp only [hp, if_false, List.mem_cons, hmk]
      by_cases hc : i = child.index
      · simp only [hc, if_true, true_or, Option.map_map, Function.comp_def, ite_self]
      · simp only [hc, if_false, false_or]

theorem size_foldl_attach (b : Builder) (parent : NodeId) (ids : List NodeId) :
    (ids.foldl (fun b child => b.attach parent child) b).nodes.size = b.nodes.size := by
  induction ids generalizing b with
  | nil => rfl
  | cons child ids ih =>
    rw [List.foldl_cons, ih, attach]
    split <;> simp [update]

theorem nodes_foldl_suppress (b : Builder) (id : NodeId) (keys : List String) (i : Nat) :
    (keys.foldl (fun b key => b.suppress id key) b).nodes[i]? =
      if i = id.index then (b.nodes[i]?).map fun node =>
        { node with suppressions := node.suppressions ++ keys }
      else b.nodes[i]? := by
  induction keys generalizing b with
  | nil => simp
  | cons key keys ih =>
    rw [List.foldl_cons, ih, suppress, nodes_update]
    by_cases hi : i = id.index
    · simp [hi, Function.comp_def]
    · simp [hi, Ne.symm hi]

theorem size_foldl_suppress (b : Builder) (id : NodeId) (keys : List String) :
    (keys.foldl (fun b key => b.suppress id key) b).nodes.size = b.nodes.size := by
  induction keys generalizing b with
  | nil => rfl
  | cons key keys ih => rw [List.foldl_cons, ih, suppress, update, Array.size_modify]

/-- A node `id` stays. -/
theorem contains_perform (h : b.contains id = true) : (b.perform call).contains id = true := by
  cases call with
  | push => simp only [contains, perform, push, Array.size_push, decide_eq_true_eq] at h ⊢; omega
  | attach parent child =>
    simp only [perform, attach]
    split <;> simpa [contains_update] using h
  | suppress => simpa [perform, suppress, contains_update] using h
  | setRange => simpa [perform, setRange, contains_update] using h

/-- One `call` adds the node that it attaches, and nothing else, to the children of `id`. -/
theorem children_perform (h : call.named.all b.contains = true) (id : NodeId) :
    (b.perform call).children id = b.children id ++ (call.attachedTo? id).toList := by
  cases call with
  | push kind range name =>
    simp only [perform, children, nodes_push, BuilderCall.attachedTo?]
    split
    · rename_i hid
      simp [hid]
    · simp
  | attach parent child =>
    obtain ⟨hparent, hchild⟩ : b.contains parent = true ∧ b.contains child = true := by
      simpa [BuilderCall.named] using h
    simp only [perform, attach, hchild, if_true, BuilderCall.attachedTo?]
    by_cases hid : parent = id
    · subst hid
      obtain ⟨node, hnode⟩ := contains_iff.mp hparent
      simp only [children, nodes_update, if_true, hnode]
      split <;> simp
    · have hindex : parent.index ≠ id.index := fun he => hid (by cases parent; cases id; simp_all)
      simp only [children, nodes_update, hindex, if_false, hid]
      split
      · cases b.nodes[id.index]? <;> simp
      · simp
  | suppress node key =>
    simp only [BuilderCall.attachedTo?, Option.toList_none, List.append_nil]
    exact children_update node _ (fun _ => by rfl) id
  | setRange node range =>
    simp only [BuilderCall.attachedTo?, Option.toList_none, List.append_nil]
    exact children_update node _ (fun _ => by rfl) id

/-- One `call` changes the parent of the node that it attaches, and of no other. -/
theorem parent?_perform (h : call.named.all b.contains = true) (id : NodeId) :
    (b.perform call).parent? id = (call.parentOf? id).or (b.parent? id) := by
  cases call with
  | push kind range name =>
    simp only [perform, parent?, nodes_push, BuilderCall.parentOf?, Option.none_or]
    split
    · rename_i hid
      simp [hid]
    · rfl
  | attach parent child =>
    obtain ⟨-, hchild⟩ : b.contains parent = true ∧ b.contains child = true := by
      simpa [BuilderCall.named] using h
    simp only [perform, attach, hchild, if_true, BuilderCall.parentOf?]
    rw [parent?_update parent _ (fun _ => by rfl)]
    by_cases hid : child = id
    · subst hid
      obtain ⟨node, hnode⟩ := contains_iff.mp hchild
      simp [parent?, nodes_update, hnode]
    · have hindex : child.index ≠ id.index := fun he => hid (by cases child; cases id; simp_all)
      simp [parent?, nodes_update, hindex, hid]
  | suppress node key =>
    simp only [BuilderCall.parentOf?, Option.none_or]
    exact parent?_update node _ (fun _ => by rfl) id
  | setRange node range =>
    simp only [BuilderCall.parentOf?, Option.none_or]
    exact parent?_update node _ (fun _ => by rfl) id

/-- Only a new node and a new range change the ranges: `call.rerange` says how. -/
theorem ranges_perform (b : Builder) (call : BuilderCall) :
    (b.perform call).nodes.toList.map Node.range =
      call.rerange (b.nodes.toList.map Node.range) := by
  cases call with
  | push kind range name => simp [perform, push, BuilderCall.rerange]
  | attach parent child =>
    simp only [perform, attach, BuilderCall.rerange]
    split
    · rw [ranges_update parent _ fun _ => by rfl, ranges_update child _ fun _ => by rfl]
    · rfl
  | suppress node key => exact ranges_update node _ fun _ => by rfl
  | setRange node range =>
    refine List.ext_getElem? fun i => ?_
    simp only [perform, setRange, BuilderCall.rerange, List.getElem?_map, Array.getElem?_toList,
      nodes_update, List.getElem?_set, List.length_map, Array.length_toList]
    split
    · rename_i hi
      subst hi
      split
      · rename_i hlt
        simp [Array.getElem?_eq_getElem hlt]
      · rename_i hlt
        simp [Array.getElem?_eq_none (Nat.le_of_not_lt hlt)]
    · rfl

/-! ## A sequence of calls -/

theorem admits_cons {calls : List BuilderCall} : b.admits (call :: calls) = true ↔
    call.named.all b.contains = true ∧ (b.perform call).admits calls = true := by
  simp [admits]

theorem admits_append {calls more : List BuilderCall} : b.admits (calls ++ more) = true ↔
    b.admits calls = true ∧ (b.performAll calls).admits more = true := by
  induction calls generalizing b with
  | nil => simp [admits, performAll]
  | cons call calls ih => simp [admits, performAll, ih, and_assoc]

/-- The children of `id` are followed by the nodes that `calls` attach to it, in order. -/
theorem children_performAll {calls : List BuilderCall} (h : b.admits calls = true) (id : NodeId) :
    (b.performAll calls).children id = b.children id ++ BuilderCall.attachedTo id calls := by
  induction calls generalizing b with
  | nil => simp [performAll, BuilderCall.attachedTo]
  | cons call calls ih =>
    obtain ⟨hnamed, hcalls⟩ := admits_cons.mp h
    have hstep := ih hcalls
    rw [children_perform hnamed, List.append_assoc] at hstep
    rw [performAll, List.foldl_cons, ← performAll, hstep]
    cases hcall : call.attachedTo? id <;> simp [BuilderCall.attachedTo, hcall]

/-- None of `calls` changes the source or the path under which it is shown. -/
theorem source_performAll (b : Builder) (calls : List BuilderCall) :
    (b.performAll calls).source = b.source ∧ (b.performAll calls).path = b.path := by
  induction calls generalizing b with
  | nil => exact ⟨rfl, rfl⟩
  | cons call calls ih =>
    have hcall : (b.perform call).source = b.source ∧ (b.perform call).path = b.path := by
      cases call with
      | attach parent child =>
        simp only [perform, attach]
        split <;> exact ⟨rfl, rfl⟩
      | _ => exact ⟨rfl, rfl⟩
    have hrest := ih (b.perform call)
    rwa [hcall.1, hcall.2] at hrest

/-- The range of `id` is the one it was given last by `calls`. -/
theorem range?_performAll (path source : String) (calls : List BuilderCall) (id : NodeId) :
    ((start path source).performAll calls).range? id =
      (calls.foldl BuilderCall.rerange [])[id.index]? := by
  have hranges : ∀ b : Builder, (b.performAll calls).nodes.toList.map Node.range =
      calls.foldl BuilderCall.rerange (b.nodes.toList.map Node.range) := by
    intro b
    unfold performAll
    exact (List.foldl_hom (fun b : Builder => b.nodes.toList.map Node.range)
      fun b call => (ranges_perform b call).symm).symm
  rw [range?, ← Array.getElem?_toList, ← List.getElem?_map, hranges]
  rfl

/-- What every sequence of calls keeps of the links between nodes of `b`. The node that was attached
last to another need not be its only child, nor need a node have only one parent. -/
structure Linked (b : Builder) : Prop where
  /-- A link leads to a node, `child`. -/
  contains_child : ∀ {parent child}, child ∈ b.children parent → b.contains child = true
  /-- A node, `child`, is among the children of its parent. -/
  mem_children : ∀ {parent child}, b.parent? child = some parent → child ∈ b.children parent
  /-- A `child` has some parent. -/
  isSome_parent? : ∀ {parent child}, child ∈ b.children parent → (b.parent? child).isSome = true

theorem linked_start (path source : String) : (start path source).Linked := by
  constructor <;> intro parent child h <;> simp [start, children, parent?] at h

/-- The step: a `call` that names nodes of the builder (`h`) keeps its links in order. -/
theorem Linked.perform (hb : b.Linked) (h : call.named.all b.contains = true) :
    (b.perform call).Linked := by
  have hmem : ∀ {parent child}, child ∈ (b.perform call).children parent ↔
      child ∈ b.children parent ∨ call = .attach parent child := by
    intro parent child
    rw [children_perform h, List.mem_append, Option.mem_toList,
      BuilderCall.attachedTo?_eq_some_iff]
  have hnew : ∀ {parent child}, call = .attach parent child → b.contains child = true := by
    rintro parent child rfl
    simp only [BuilderCall.named, List.all_cons, Bool.and_eq_true] at h
    exact h.2.1
  constructor
  · intro parent child hchild
    rcases hmem.mp hchild with hold | hcall
    · exact contains_perform (hb.contains_child hold)
    · exact contains_perform (hnew hcall)
  · intro parent child hparent
    rw [parent?_perform h, Option.or_eq_some_iff, BuilderCall.parentOf?_eq_some_iff] at hparent
    rcases hparent with hcall | ⟨-, hold⟩
    · exact hmem.mpr (.inr hcall)
    · exact hmem.mpr (.inl (hb.mem_children hold))
  · intro parent child hchild
    rw [parent?_perform h, Option.isSome_or, Bool.or_eq_true]
    rcases hmem.mp hchild with hold | hcall
    · exact .inr (hb.isSome_parent? hold)
    · exact .inl (Option.isSome_of_eq_some (BuilderCall.parentOf?_eq_some_iff.mpr hcall))

/-- The run: `calls` that name nodes added before (`h`) leave the links of the builder in order. -/
theorem linked_performAll {calls : List BuilderCall} (hb : b.Linked) (h : b.admits calls = true) :
    (b.performAll calls).Linked := by
  induction calls generalizing b with
  | nil => exact hb
  | cons call calls ih =>
    obtain ⟨hnamed, hcalls⟩ := admits_cons.mp h
    exact ih (hb.perform hnamed) hcalls

/-- A node `id` has no parent exactly when no call attached it. -/
theorem parent?_eq_none_iff {path source : String} {calls : List BuilderCall}
    (h : (start path source).admits calls = true) (id : NodeId) :
    ((start path source).performAll calls).parent? id = none ↔
      ∀ parent, BuilderCall.attach parent id ∉ calls := by
  have hlinked := linked_performAll (linked_start path source) h
  have hchildren : ∀ parent, ((start path source).performAll calls).children parent =
      BuilderCall.attachedTo parent calls := fun parent => by
    rw [children_performAll h]
    simp [start, children]
  constructor
  · intro hnone parent hcall
    have hsome := hlinked.isSome_parent?
      ((hchildren parent).symm ▸ BuilderCall.mem_attachedTo.mpr hcall)
    simp [hnone] at hsome
  · intro hcalls
    rw [Option.eq_none_iff_forall_ne_some]
    intro parent hparent
    have hmem := hlinked.mem_children hparent
    rw [hchildren, BuilderCall.mem_attachedTo] at hmem
    exact hcalls parent hmem

end Builder

end TreeLint
