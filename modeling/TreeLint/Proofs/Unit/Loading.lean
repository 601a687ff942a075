import TreeLint.Proofs.Tree.Nesting
import TreeLint.Proofs.Unit.Placing
import TreeLint.Proofs.Unit.Rendering

/-!
# What a loaded document is

A document that holds its text makes a tree with links that agree, whatever its nodes are. So ranges
alone decide whether it is accepted, and what is loaded can be read off the document.

- `NodeDocument.Nests`: the ranges of a node and its children. `UnitDocument.build_eq_ok_iff`: a
  document is accepted when every node of it nests; `isOfRanges_of_build`: if not, a range is at
  fault.
- `UnitDocument.descendants_of_build`: the places of the nodes are their document order.
- `UnitDocument.grows_draft`: what the document makes of the empty table of types.
- `SourceUnit.ofText_spec`: all of it, from the text of a document on.
-/

namespace TreeLint

/-- The names that the node `doc` mentions. -/
def NodeDocument.mentioned (doc : NodeDocument) : List String :=
  (doc.binding.map BindingDocument.mentioned).getD []

namespace TypeTable

variable {table : TypeTable}

theorem carries_mono {table' : TypeTable} (h : table.names <+: table'.names)
    {binding : Option Binding} {doc : Option BindingDocument} :
    Option.Rel (Binding.Carries table) binding doc → Option.Rel (Binding.Carries table') binding doc
  | .none => .none
  | .some hcarries => .some (hcarries.mono h)

/-- The node `id` is bound exactly when its document `doc` gives it a binding. -/
theorem bindOne_spec (h : table.Closed) {id : NodeId} (hfree : table.binding? id = none)
    (doc : NodeDocument) :
    Grows table (table.bindOne id doc) doc.mentioned (fun _ => []) ∧
      (∀ other, other ≠ id → (table.bindOne id doc).binding? other = table.binding? other) ∧
      Option.Rel (Binding.Carries (table.bindOne id doc)) ((table.bindOne id doc).binding? id)
        doc.binding := by
  unfold bindOne NodeDocument.mentioned
  cases doc.binding with
  | none => exact ⟨.refl h, fun _ _ => rfl, by simp only [hfree]; exact .none⟩
  | some binding =>
    obtain ⟨hgrows, b, hcarries, hbindings⟩ := bindDocument_spec h id binding
    have hget : ∀ other, (table.bindDocument id binding).binding? other =
        if id = other then some b else table.binding? other := fun other => by
      rw [binding?, hbindings, Assoc.get?_insert]
      rfl
    refine ⟨hgrows, fun other hne => by rw [hget, if_neg (Ne.symm hne)], ?_⟩
    rw [hget, if_pos rfl]
    exact .some hcarries

/-- Every node is bound as its document in `docs` says, and the places in front of `first` as they
were. -/
theorem bindAll_spec (h : table.Closed) {first : Nat}
    (hfree : ∀ id : NodeId, first ≤ id.index → table.binding? id = none)
    (docs : List NodeDocument) :
    Grows table (table.bindAll first docs) (docs.flatMap NodeDocument.mentioned) (fun _ => []) ∧
      (∀ id : NodeId, id.index < first →
        (table.bindAll first docs).binding? id = table.binding? id) ∧
      ∀ i d, docs[i]? = some d →
        Option.Rel (Binding.Carries (table.bindAll first docs))
          ((table.bindAll first docs).binding? ⟨first + i⟩) d.binding := by
  induction docs generalizing table first with
  | nil => exact ⟨.refl h, fun _ _ => rfl, fun i d hd => by cases hd⟩
  | cons doc docs ih =>
    obtain ⟨hgrows, hothers, hbound⟩ := bindOne_spec h (hfree ⟨first⟩ (Nat.le_refl _)) doc
    have hfree' : ∀ id : NodeId, first + 1 ≤ id.index →
        (table.bindOne ⟨first⟩ doc).binding? id = none := fun id hid => by
      rw [hothers id (by rintro rfl; exact Nat.not_succ_le_self first hid),
        hfree id (Nat.le_of_succ_le hid)]
    obtain ⟨hrest, hbefore, hbehind⟩ := ih hgrows.closed hfree'
    rw [bindAll]
    refine ⟨hgrows.trans hrest, fun id hid => ?_, fun i d hd => ?_⟩
    · rw [hbefore id (Nat.lt_succ_of_lt hid), hothers id (by rintro rfl; simp at hid)]
    · cases i with
      | zero =>
        cases hd
        rw [hbefore ⟨first + 0⟩ (Nat.lt_succ_self first)]
        exact carries_mono hrest.prefix_names hbound
      | succ i =>
        rw [← Nat.add_assoc, Nat.add_right_comm]
        exact hbehind i d hd

end TypeTable

namespace NodeDocument

/-- The range of `doc` fits `source`, with the children of the node inside it, each at or behind the
end of the one in front. -/
structure Nests (doc : NodeDocument) (source : List Char) : Prop where
  forwards : doc.range.start ≤ doc.range.stop
  inSource : doc.range.stop ≤ Text.byteSize source
  atStart : Text.Boundary source doc.range.start
  atStop : Text.Boundary source doc.range.stop
  inside : ∀ child ∈ doc.children,
    doc.range.start ≤ child.range.start ∧ child.range.stop ≤ doc.range.stop
  ordered : doc.children.IsChain fun l r => l.range.stop ≤ r.range.start

/-- The ranges `inner` lie in `range`, which fits `source`, one behind the other. -/
def SpansNest (source : List Char) (range : Span) (inner : List Span) : Prop :=
  range.fits source = true ∧ (∀ r ∈ inner, range.contains r = true) ∧
    inner.IsChain fun l r => l.stop ≤ r.start

theorem nests_iff {doc : NodeDocument} {source : List Char} :
    doc.Nests source ↔ SpansNest source doc.range (doc.children.map NodeDocument.range) := by
  simp only [SpansNest, Span.fits_iff, List.forall_mem_map, Span.contains, Bool.and_eq_true,
    decide_eq_true_eq, List.isChain_map]
  constructor
  · intro h
    exact ⟨⟨h.forwards, h.inSource, h.atStart, h.atStop⟩, h.inside, h.ordered⟩
  · rintro ⟨⟨hforwards, hsource, hstart, hstop⟩, hinside, hordered⟩
    exact ⟨hforwards, hsource, hstart, hstop, hinside, hordered⟩

end NodeDocument

/-- A fault of ranges, not of the links between nodes such as `danglingLink`. -/
def TreeError.IsOfRanges : TreeError → Prop
  | .outsideSource .. | .escapesParent .. | .overlapsSibling .. => True
  | _ => False

namespace Builder

variable {b : Builder}

theorem isOfRanges_of_checkChildren {id : NodeId} {node : Node} {reached : Nat}
    {children : List NodeId} {e : TreeError}
    (h : b.checkChildren id node reached children = .error e)
    (hclosed : ∀ target, e ≠ .danglingLink target) : e.IsOfRanges := by
  induction children generalizing reached with
  | nil => cases h
  | cons child rest ih =>
    unfold checkChildren at h
    split at h
    · cases h
      exact (hclosed child rfl).elim
    · split at h
      · cases h
        trivial
      · split at h
        · cases h
          trivial
        · exact ih h

/-- The error `e` of the checks of ranges is of ranges alone when no link is dangling
(`hclosed`). -/
theorem isOfRanges_of_checkNodes {source : List Char} {index : Nat} {nodes : List Node}
    {e : TreeError} (h : b.checkNodes source index nodes = .error e)
    (hclosed : ∀ target, e ≠ .danglingLink target) : e.IsOfRanges := by
  induction nodes generalizing index with
  | nil => cases h
  | cons node rest ih =>
    unfold checkNodes at h
    cases hnode : b.checkNode source ⟨index⟩ node with
    | ok u => exact ih (by simpa [hnode] using h)
    | error e' =>
      obtain rfl : e' = e := by simpa [hnode] using h
      unfold checkNode at hnode
      split at hnode
      · exact isOfRanges_of_checkChildren hnode hclosed
      · cases hnode
        trivial

/-- Where `root` has no parent and links lead to every node once, an error `e` is about ranges. -/
theorem checkNodes_of_finish {root : NodeId} {e : TreeError} (hroot : b.contains root = true)
    (hparent : b.parent? root = none) (hreach : b.checkReach root = .ok ())
    (h : b.finish root = .error e) : b.checkNodes b.source.toList 0 b.nodes.toList = .error e := by
  obtain ⟨rootNode, hnode⟩ := contains_iff.mp hroot
  have hnone : rootNode.parent = none := by simpa [parent?, hnode] using hparent
  cases hnodes : b.checkNodes b.source.toList 0 b.nodes.toList with
  | ok u => simp [finish, hnode, hnone, hnodes, hreach] at h
  | error fault => simpa [finish, hnode, hnone, hnodes] using h

end Builder

namespace UnitDocument

open NodeDocument

/-- The nodes and types of `doc`, before anything is checked. -/
def draft (doc : UnitDocument) (source : String) : UnitBuilder :=
  UnitBuilder.add ⟨.start doc.path source, TypeTable.declare {} doc.types⟩ none doc.root

/-- All names of types that `doc` mentions, as often as it mentions them. -/
def mentioned (doc : UnitDocument) : List String :=
  doc.types.flatMap TypeDocument.mentioned ++ doc.root.preorder.flatMap NodeDocument.mentioned

variable (doc : UnitDocument) (source : String)

theorem nodes_draft : (doc.draft source).builder.nodes.toList = doc.root.nodesFrom none 0 :=
  UnitBuilder.nodes_add (fun _ h => by cases h) doc.root

theorem size_draft : (doc.draft source).builder.nodes.size = doc.root.size := by
  simpa [length_nodesFrom] using congrArg List.length (doc.nodes_draft source)

/-- The builder is what `calls` that name only nodes added before have made. -/
theorem exists_calls_draft : ∃ calls, (Builder.start doc.path source).admits calls = true ∧
    (doc.draft source).builder = (Builder.start doc.path source).performAll calls := by
  have step : UnitBuilder.Kept fun b => ∃ calls,
      (Builder.start doc.path source).admits calls = true ∧
        b = (Builder.start doc.path source).performAll calls := by
    rintro _ call hcall ⟨calls, hcalls, rfl⟩
    refine ⟨calls ++ [call], Builder.admits_append.mpr ⟨hcalls, ?_⟩, by simp [Builder.performAll]⟩
    simpa [Builder.admits] using hcall
  exact UnitBuilder.keeps_add step (fun _ h => by cases h) ⟨[], rfl, rfl⟩ doc.root

theorem linked_draft : (doc.draft source).builder.Linked := by
  obtain ⟨calls, hcalls, hb⟩ := doc.exists_calls_draft source
  exact hb ▸ Builder.linked_performAll (Builder.linked_start doc.path source) hcalls

theorem source_draft : (doc.draft source).builder.source = source ∧
    (doc.draft source).builder.path = doc.path := by
  obtain ⟨calls, -, hb⟩ := doc.exists_calls_draft source
  exact hb ▸ Builder.source_performAll (Builder.start doc.path source) calls

variable {doc}

/-- The node at the place `i` is that of the document `d` at this place in document order. -/
theorem node_draft {i : Nat} {d : NodeDocument} (h : doc.root.preorder[i]? = some d) :
    ∃ above, (doc.draft source).builder.nodes[i]? = some (d.node above i) := by
  obtain ⟨above, hnode⟩ := getElem?_nodesFrom none 0 h
  refine ⟨above, ?_⟩
  rw [← Array.getElem?_toList, nodes_draft, hnode, Nat.zero_add]

variable {source}

theorem exists_node_draft {id : NodeId} (hid : (doc.draft source).builder.contains id = true) :
    ∃ d above, doc.root.preorder[id.index]? = some d ∧
      (doc.draft source).builder.nodes[id.index]? = some (d.node above id.index) := by
  have hlt : id.index < doc.root.size := by
    simpa [Builder.contains, size_draft] using hid
  have hget := List.getElem?_eq_getElem hlt
  obtain ⟨above, hnode⟩ := node_draft source hget
  exact ⟨_, above, hget, hnode⟩

theorem allChildren_draft : (doc.draft source).builder.allChildren =
    (doc.root.nodesFrom none 0).flatMap Node.children := by
  rw [← nodes_draft doc source, Builder.allChildren, Builder.ids, List.flatMap_map,
    List.flatMap_def, List.flatMap_def]
  congr 1
  refine List.ext_getElem? fun i => ?_
  rw [List.getElem?_map, List.getElem?_map]
  by_cases hi : i < (doc.draft source).builder.nodes.size
  · rw [List.getElem?_range hi]
    simp [Builder.children, Array.getElem?_eq_getElem hi]
  · simp [hi]

/-- From the first node, `⟨0⟩`, the links lead to every node once. -/
theorem checkReach_draft : (doc.draft source).builder.checkReach ⟨0⟩ = .ok () := by
  have hids : (doc.draft source).builder.ids = (List.range' 0 doc.root.size).map NodeId.mk := by
    rw [Builder.ids, size_draft, List.range_eq_range']
  have hperm : (⟨0⟩ :: (doc.draft source).builder.allChildren).Perm
      (doc.draft source).builder.ids := by
    rw [allChildren_draft, hids]
    exact perm_children none 0 doc.root
  refine Builder.checkReach_eq_ok_iff.mpr ⟨hperm, ?_⟩
  -- A node that is not the first is a child of a node in front of it.
  rintro ⟨i⟩ hid
  induction i using Nat.strong_induction_on with
  | _ i ih =>
    rcases List.mem_cons.mp (hperm.mem_iff.mpr (Builder.mem_ids.mpr hid)) with hroot | hchild
    · exact hroot ▸ .refl
    · obtain ⟨parent, hparent, hlink⟩ := Builder.mem_allChildren.mp hchild
      obtain ⟨d, above, -, hnode⟩ := exists_node_draft hparent
      have hbehind : parent.index + 1 ≤ i := by
        rw [Builder.children_of_getElem? hnode] at hlink
        exact le_of_mem_places hlink
      exact (ih parent.index hbehind hparent).tail hlink

/-- The ranges of the nodes `ids` are those of the documents `docs` that stand in their places. -/
theorem ranges_draft (source : String) {ids : List NodeId} {docs : List NodeDocument}
    (h : List.Forall₂ (fun id d => doc.root.preorder[id.index]? = some d) ids docs) :
    ids.map (doc.draft source).builder.range = docs.map NodeDocument.range := by
  induction h with
  | nil => rfl
  | cons hd _ ih =>
    obtain ⟨above, hnode⟩ := node_draft source hd
    rw [List.map_cons, List.map_cons, ih, Builder.range_of_getElem? hnode]
    rfl

/-- The check of the ranges at the place `id` says whether `d` nests. -/
theorem nests_iff_draft (id : NodeId) {d : NodeDocument}
    (hd : doc.root.preorder[id.index]? = some d) : d.Nests source.toList ↔
      ((doc.draft source).builder.range id).fits source.toList = true ∧
        (∀ child ∈ (doc.draft source).builder.children id,
          (doc.draft source).builder.contains child = true ∧
          ((doc.draft source).builder.range id).contains
            ((doc.draft source).builder.range child) = true) ∧
        ((doc.draft source).builder.children id).IsChain fun l r =>
          ((doc.draft source).builder.range l).stop ≤
            ((doc.draft source).builder.range r).start := by
  obtain ⟨above, hnode⟩ := node_draft source hd
  have hranges := ranges_draft source (forall₂_children hd)
  have hcontains : ∀ {child}, child ∈ (doc.draft source).builder.children id →
      (doc.draft source).builder.contains child = true := (doc.linked_draft source).contains_child
  have hchildren : (doc.draft source).builder.children id = places (id.index + 1) d.children :=
    Builder.children_of_getElem? hnode
  have hrange : (doc.draft source).builder.range id = d.range := Builder.range_of_getElem? hnode
  rw [nests_iff, ← hranges, ← hchildren, SpansNest, List.forall_mem_map, List.isChain_map, hrange]
  exact and_congr_right fun _ => and_congr_left fun _ => forall₂_congr fun child hchild => by
    simp [hcontains hchild]

/-- The ranges of all nodes pass when those of all documents `d` nest. -/
theorem checkNodes_draft : (doc.draft source).builder.checkNodes source.toList 0
      (doc.draft source).builder.nodes.toList = .ok () ↔
    ∀ d ∈ doc.root.preorder, d.Nests source.toList := by
  rw [Builder.checkNodes_eq_ok_iff_forall]
  constructor
  · intro hall d hd
    obtain ⟨i, hi⟩ := List.mem_iff_getElem?.mp hd
    obtain ⟨above, hnode⟩ := node_draft source hi
    have hid : (doc.draft source).builder.contains ⟨i⟩ = true :=
      Builder.contains_iff.mpr ⟨_, hnode⟩
    exact (nests_iff_draft ⟨i⟩ hi).mpr (hall ⟨i⟩ hid)
  · intro hall id hid
    obtain ⟨d, -, hd, -⟩ := exists_node_draft hid
    exact (nests_iff_draft id hd).mp (hall d (List.mem_of_getElem? hd))

theorem contains_root_draft : (doc.draft source).builder.contains ⟨0⟩ = true := by
  simp [Builder.contains, size_draft, size_eq]

theorem parent?_root_draft : (doc.draft source).builder.parent? ⟨0⟩ = none := by
  rw [Builder.parent?, ← Array.getElem?_toList, nodes_draft, nodesFrom_eq]
  rfl

theorem finish_draft_eq_ok_iff {tree : Tree} : (doc.draft source).builder.finish ⟨0⟩ = .ok tree ↔
    (∀ d ∈ doc.root.preorder, d.Nests source.toList) ∧
      tree = ⟨doc.path, source, (doc.draft source).builder.nodes, ⟨0⟩⟩ := by
  obtain ⟨hsource, hpath⟩ := doc.source_draft source
  rw [Builder.finish_eq_ok_iff_checks, hsource, hpath, checkNodes_draft]
  simp [contains_root_draft, parent?_root_draft, checkReach_draft]

theorem build_eq : doc.build source = match (doc.draft source).builder.finish ⟨0⟩ with
    | .ok tree => .ok (tree, (doc.draft source).types)
    | .error e => .error (.badTree e) := rfl

/-- A document `doc` is accepted exactly when its ranges nest. -/
theorem build_eq_ok_iff {tree : Tree} {types : TypeTable} :
    doc.build source = .ok (tree, types) ↔ (∀ d ∈ doc.root.preorder, d.Nests source.toList) ∧
      tree = ⟨doc.path, source, (doc.draft source).builder.nodes, ⟨0⟩⟩ ∧
      types = (doc.draft source).types := by
  rw [build_eq]
  cases hresult : (doc.draft source).builder.finish ⟨0⟩ with
  | ok found =>
    obtain ⟨hnests, rfl⟩ := finish_draft_eq_ok_iff.mp hresult
    exact ⟨fun h => by cases h; exact ⟨hnests, rfl, rfl⟩, fun ⟨_, htree, htypes⟩ => by
      rw [htree, htypes]⟩
  | error e =>
    have hnot : ¬ ∀ d ∈ doc.root.preorder, d.Nests source.toList := fun hnests => by
      rw [finish_draft_eq_ok_iff.mpr ⟨hnests, rfl⟩] at hresult
      cases hresult
    simp [hnot]

/-- Only ranges can be at `fault` in a document. -/
theorem isOfRanges_of_build {e : UnitError} (h : doc.build source = .error e) :
    ∃ fault, e = .badTree fault ∧ fault.IsOfRanges := by
  rw [build_eq] at h
  cases hresult : (doc.draft source).builder.finish ⟨0⟩ with
  | ok tree => simp [hresult] at h
  | error fault =>
    obtain rfl : UnitError.badTree fault = e := by simpa [hresult] using h
    have hclosed : ∀ target, fault ≠ .danglingLink target := fun target heq =>
      Builder.finish_ne_danglingLink (doc.linked_draft source) contains_root_draft target
        (heq ▸ hresult)
    have hnodes := Builder.checkNodes_of_finish contains_root_draft parent?_root_draft
      checkReach_draft hresult
    exact ⟨fault, rfl, Builder.isOfRanges_of_checkNodes hnodes hclosed⟩

/-! ## The loaded tree -/

section

variable {tree : Tree} {types : TypeTable} (h : doc.build source = .ok (tree, types))

include h

theorem finished_of_build : tree.Finished := by
  obtain ⟨hnests, rfl, -⟩ := build_eq_ok_iff.mp h
  obtain ⟨calls, hcalls, hb⟩ := doc.exists_calls_draft source
  exact ⟨doc.path, source, calls, ⟨0⟩, hcalls, hb ▸ finish_draft_eq_ok_iff.mpr ⟨hnests, rfl⟩⟩

theorem node?_of_build (id : NodeId) {d : NodeDocument}
    (hd : doc.root.preorder[id.index]? = some d) :
    ∃ above, tree.node? id = some (d.node above id.index) := by
  obtain ⟨-, rfl, -⟩ := build_eq_ok_iff.mp h
  exact node_draft source hd

theorem size_of_build : tree.size = doc.root.preorder.length := by
  obtain ⟨-, rfl, -⟩ := build_eq_ok_iff.mp h
  exact doc.size_draft source

theorem children_of_build (id : NodeId) {d : NodeDocument}
    (hd : doc.root.preorder[id.index]? = some d) :
    tree.children id = places (id.index + 1) d.children := by
  obtain ⟨above, hnode⟩ := node?_of_build h id hd
  exact Tree.children_of_node? hnode

/-- A node `id` and all below it stand in one run of places, in document order. -/
theorem descendants_of_build {id : NodeId} (hid : tree.contains id = true) {d : NodeDocument}
    (hd : doc.root.preorder[id.index]? = some d) :
    tree.descendants id = (List.range' id.index d.size).map NodeId.mk := by
  have htree := (finished_of_build h).sound
  induction id, hid using htree.induction_below generalizing d with
  | step id hid ih =>
    rw [htree.descendants_eq hid, children_of_build h id hd, size_eq, List.range'_succ,
      List.map_cons]
    rw [children_of_build h id hd] at ih
    congr 1
    have hplaces := forall₂_children hd
    -- Each child stands where all that is below the one in front has ended.
    generalize id.index + 1 = first at hplaces ih ⊢
    generalize d.children = docs at hplaces ih ⊢
    induction docs generalizing first with
    | nil => rfl
    | cons doc docs ihdocs =>
      obtain ⟨hdoc, hdocs⟩ := List.forall₂_cons.mp hplaces
      rw [places, List.flatMap_cons, preorderAll, List.length_append, ← List.range'_append_1,
        List.map_append, ih ⟨first⟩ List.mem_cons_self hdoc, ← size]
      congr 1
      exact ihdocs _ hdocs fun child hchild => ih child (List.mem_cons_of_mem _ hchild)

end

/-! ## The loaded types -/

variable (doc source)

/-- What `doc` makes of the empty table. -/
theorem grows_draft : TypeTable.Grows {} (doc.draft source).types doc.mentioned
    (TypeDocument.declaredAbove doc.types) ∧
      ∀ i d, doc.root.preorder[i]? = some d →
        Option.Rel (Binding.Carries (doc.draft source).types)
          ((doc.draft source).types.binding? ⟨i⟩) d.binding := by
  obtain ⟨hdeclare, hkept⟩ := TypeTable.declare_spec TypeTable.closed_empty doc.types
  have hfree : ∀ id : NodeId, 0 ≤ id.index → (TypeTable.declare {} doc.types).binding? id = none :=
    fun id _ => by rw [TypeTable.binding?, hkept]; rfl
  obtain ⟨hbind, -, hbound⟩ := TypeTable.bindAll_spec hdeclare.closed hfree doc.root.preorder
  have htypes : (doc.draft source).types =
      (TypeTable.declare {} doc.types).bindAll 0 doc.root.preorder :=
    UnitBuilder.types_add (fun _ h => by cases h) doc.root
  rw [htypes]
  have hall := hdeclare.trans hbind
  refine ⟨⟨hall.closed, hall.names_eq, fun x => ?_⟩, fun i d hd => ?_⟩
  · rw [hall.superNames_eq, List.append_nil]
  · simpa using hbound i d hd

end UnitDocument

/-- What `unit` is when `doc` with the text `source` in it has been loaded. -/
structure SourceUnit.Holds (unit : SourceUnit) (doc : UnitDocument) (source : String) : Prop where
  path : unit.tree.path = doc.path
  source : unit.tree.source = source
  sourceFile : unit.sourceFile = none
  /-- The tree is what calls that name only nodes added before make, by `Finished`. -/
  finished : unit.tree.Finished
  root : unit.tree.root = ⟨0⟩
  size : unit.tree.size = doc.root.preorder.length
  /-- The places of the nodes, counted from zero, are their document order. -/
  numbered : unit.tree.descendants unit.tree.root = unit.tree.ids
  node : ∀ i d, doc.root.preorder[i]? = some d → ∃ node, unit.tree.node? ⟨i⟩ = some node ∧
    node.kind = d.kind ∧ node.range = d.range ∧ node.name = d.name ∧
    node.suppressions = d.suppressions
  /-- The children of a node are those of its document `d`, in order. -/
  children : ∀ i d, doc.root.preorder[i]? = some d →
    List.Forall₂ (fun id child => doc.root.preorder[id.index]? = some child)
      (unit.tree.children ⟨i⟩) d.children
  parent : ∀ parent child, unit.tree.parent? child = some parent ↔ child ∈ unit.tree.children parent
  /-- A node is bound exactly when its document gives it a binding, and to types with the names
  given there. -/
  bound : ∀ i d, doc.root.preorder[i]? = some d →
    Option.Rel (Binding.Carries unit.types) (unit.types.binding? ⟨i⟩) d.binding
  /-- Each name that the document mentions has one handle, and no other name has any. -/
  names : unit.types.names.Nodup ∧ ∀ name, name ∈ unit.types.names ↔ name ∈ doc.mentioned
  assignable : ∀ a b below above, unit.types.typeName? a = some below →
    unit.types.typeName? b = some above → (unit.types.isAssignable a b = true ↔
      Relation.ReflTransGen (fun x y => ∃ type ∈ doc.types, type.name = x ∧ y ∈ type.supertypes)
        below above)

namespace UnitDocument

open NodeDocument

theorem holds_of_build {doc : UnitDocument} {source : String} {tree : Tree} {types : TypeTable}
    (h : doc.build source = .ok (tree, types)) :
    ({ tree, types } : SourceUnit).Holds doc source := by
  have hfinished := finished_of_build h
  obtain ⟨hgrows, hbound⟩ := doc.grows_draft source
  obtain ⟨-, htree, rfl⟩ := build_eq_ok_iff.mp h
  have hroot : tree.root = ⟨0⟩ := by rw [htree]
  have hfirst : doc.root.preorder[(⟨0⟩ : NodeId).index]? = some doc.root := by rw [preorder_eq]; rfl
  refine
    { path := by rw [htree]
      source := by rw [htree]
      sourceFile := rfl
      finished := hfinished
      root := hroot
      size := size_of_build h
      numbered := ?_
      node := fun i d hd => ?_
      children := fun i d hd => ?_
      parent := fun parent child => hfinished.sound.parent?_eq_some_iff
      bound := hbound
      names := ⟨hgrows.closed.nodup, fun name => ?_⟩
      assignable := fun a b below above ha hb => ?_ }
  · have hcontains := hfinished.sound.contains_root
    simp only [hroot] at hcontains ⊢
    rw [descendants_of_build h hcontains hfirst, Tree.ids, size_of_build h, List.range_eq_range',
      size]
  · obtain ⟨above, hnode⟩ := node?_of_build h ⟨i⟩ hd
    exact ⟨_, hnode, rfl, rfl, rfl, rfl⟩
  · simp only [children_of_build h ⟨i⟩ hd]
    exact forall₂_children hd
  · rw [hgrows.names_eq, TypeTable.mem_foldl_addNew]
    simp [TypeTable.names]
  · rw [hgrows.closed.isAssignable_iff_names ha hb]
    have hedge : ∀ x y, y ∈ (doc.draft source).types.superNames x ↔
        ∃ type ∈ doc.types, type.name = x ∧ y ∈ type.supertypes := fun x y => by
      rw [hgrows.superNames_eq, TypeTable.mem_foldl_addNew]
      simp [TypeTable.superNames, TypeTable.lookup?, TypeDocument.declaredAbove, and_assoc]
    simp only [hedge]

end UnitDocument

/-- **What is loaded.** A document `doc` that holds its text (`hsource`) is loaded by `calls` that
name only nodes added before, so none of them fails. It is accepted exactly when its ranges fit the
text and nest (`Nests`); nothing but a range can be at `fault` in it. What is loaded is the document
(`Holds`): its nodes numbered in document order, each with its links and its binding, and each type
that it mentions once. -/
theorem SourceUnit.ofText_spec (disk : Disk) (cwd : Place) (base text : String)
    {doc : UnitDocument} {source : String} (hdoc : UnitDocument.parse? text = some doc)
    (hsource : doc.source = some source) :
    (∃ calls types, (Builder.start doc.path source).admits calls = true ∧
      ofText disk cwd base text =
        ((((Builder.start doc.path source).performAll calls).finish ⟨0⟩).map
          fun tree => { tree, types }).mapError UnitError.badTree) ∧
    ((∃ unit, ofText disk cwd base text = .ok unit) ↔
      ∀ d ∈ doc.root.preorder, d.Nests source.toList) ∧
    (∀ e, ofText disk cwd base text = .error e → ∃ fault, e = .badTree fault ∧ fault.IsOfRanges) ∧
    ∀ unit, ofText disk cwd base text = .ok unit → unit.Holds doc source := by
  have htext : ofText disk cwd base text =
      (doc.build source).map fun built => { tree := built.1, types := built.2 } := by
    simp only [ofText, hdoc, hsource]
    cases doc.build source <;> rfl
  rw [htext]
  refine ⟨?_, ?_⟩
  · obtain ⟨calls, hcalls, hdraft⟩ := doc.exists_calls_draft source
    refine ⟨calls, (doc.draft source).types, hcalls, ?_⟩
    rw [UnitDocument.build_eq, hdraft]
    cases ((Builder.start doc.path source).performAll calls).finish ⟨0⟩ <;> rfl
  cases hbuild : doc.build source with
  | ok built =>
    have hnests := (UnitDocument.build_eq_ok_iff.mp hbuild).1
    refine ⟨⟨fun _ => hnests, fun _ => ⟨_, rfl⟩⟩, fun e he => (nomatch he), fun unit hunit => ?_⟩
    cases hunit
    exact UnitDocument.holds_of_build hbuild
  | error e =>
    have hnot : ¬ ∀ d ∈ doc.root.preorder, d.Nests source.toList := fun hnests => by
      rw [UnitDocument.build_eq_ok_iff.mpr ⟨hnests, rfl, rfl⟩] at hbuild
      cases hbuild
    refine ⟨⟨fun ⟨_, h⟩ => (nomatch h), fun h => (hnot h).elim⟩, fun e' he => ?_,
      fun _ h => nomatch h⟩
    cases he
    exact UnitDocument.isOfRanges_of_build hbuild

/-- What a `unit` made of `doc` has for its tree and its source. -/
theorem UnitDocument.source_of_build {doc : UnitDocument} {source : String}
    {sourceFile : Option String} {unit : SourceUnit}
    (h : (doc.build source).bind (fun (tree, types) => .ok { tree, types, sourceFile }) = .ok unit) :
    unit.tree.Finished ∧ unit.tree.source = source ∧ unit.sourceFile = sourceFile := by
  cases hbuild : doc.build source with
  | error e => simp [hbuild, Except.bind] at h
  | ok result =>
    obtain ⟨tree, types⟩ := result
    simp only [hbuild, Except.bind, Except.ok.injEq] at h
    subst h
    refine ⟨finished_of_build hbuild, ?_, rfl⟩
    obtain ⟨-, rfl, -⟩ := build_eq_ok_iff.mp hbuild
    rfl

/-- The tree of a `unit` made of a document is finished, and its source is the text of the `file`
that the unit names. -/
theorem SourceUnit.source_of_ofText {disk : Disk} {cwd : Place} {base text : String}
    {unit : SourceUnit} (h : ofText disk cwd base text = .ok unit) :
    unit.tree.Finished ∧
      ∀ file, unit.sourceFile = some file → disk.readText? cwd file = some unit.tree.source := by
  unfold ofText at h
  cases hdoc : UnitDocument.parse? text with
  | none => simp [hdoc] at h
  | some doc =>
    simp only [hdoc] at h
    cases hsource : doc.source with
    | some source =>
      simp only [hsource] at h
      obtain ⟨hfinished, -, hfile⟩ := UnitDocument.source_of_build h
      exact ⟨hfinished, by simp [hfile]⟩
    | none =>
      cases hpath : doc.sourcePath with
      | none => simp [hsource, hpath] at h
      | some path =>
        simp only [hsource, hpath] at h
        split at h
        case h_2 => cases h
        case h_1 source hread =>
          obtain ⟨hfinished, rfl, hfile⟩ := UnitDocument.source_of_build h
          refine ⟨hfinished, fun file hnamed => ?_⟩
          obtain rfl := Option.some.inj (hfile.symm.trans hnamed)
          exact hread

theorem SourceUnit.source_of_load {disk : Disk} {cwd : Place} {path : String} {unit : SourceUnit}
    (h : load disk cwd path = .ok unit) :
    unit.tree.Finished ∧
      ∀ file, unit.sourceFile = some file → disk.readText? cwd file = some unit.tree.source := by
  rw [load] at h
  split at h
  · exact source_of_ofText h
  · cases h

/-- The file that `unit` names is the one that its document `doc` names, unless the document holds
the text. -/
theorem SourceUnit.sourceFile_of_load {disk : Disk} {cwd : Place} {path : String}
    {unit : SourceUnit} (h : load disk cwd path = .ok unit) :
    ∃ text doc, disk.readText? cwd path = some text ∧ UnitDocument.parse? text = some doc ∧
      unit.sourceFile = if doc.source.isSome then none
        else doc.sourcePath.map (Path.join ((Path.directory? path).getD "")) := by
  rw [load] at h
  split at h
  case h_2 => cases h
  case h_1 text htext =>
    unfold ofText at h
    cases hdoc : UnitDocument.parse? text with
    | none => simp [hdoc] at h
    | some doc =>
      refine ⟨text, doc, htext, hdoc, ?_⟩
      simp only [hdoc] at h
      cases hsource : doc.source with
      | some source =>
        simp only [hsource] at h
        exact (UnitDocument.source_of_build h).2.2
      | none =>
        cases hpath : doc.sourcePath with
        | none => simp [hsource, hpath] at h
        | some path =>
          simp only [hsource, hpath] at h
          split at h
          · exact (UnitDocument.source_of_build h).2.2
          · cases h

/-- A document with a type `A` declared twice, a character of two bytes and two statements. -/
def twoStatements : UnitDocument where
  path := "A.java"
  source := some "é; b;"
  types := [{ name := "A", supertypes := ["B"] }, { name := "A", supertypes := ["C"] }]
  root :=
    { kind := .compilationUnit, range := ⟨0, 6⟩
      children := [
        { kind := .expressionStatement, range := ⟨0, 3⟩, suppressions := ["all"] },
        { kind := .expressionStatement, range := ⟨4, 6⟩
          binding := some { kind := .method, owner := some "C" } }] }

theorem parse?_twoStatements :
    UnitDocument.parse? twoStatements.render = some twoStatements := by
  rw [UnitDocument.parse?_render, if_pos (by decide)]
  simp [twoStatements, NodeDocument.preorder, NodeDocument.preorderAll, NodeDocument.Bounded,
    Decode.maxWord]

theorem nests_twoStatements :
    ∀ d ∈ twoStatements.root.preorder, d.Nests "é; b;".toList := by
  simp only [twoStatements, NodeDocument.preorder, NodeDocument.preorderAll, List.append_nil,
    List.cons_append, List.nil_append, List.forall_mem_cons, NodeDocument.nests_iff,
    NodeDocument.SpansNest]
  decide

theorem SourceUnit.ofText_spec_twoStatements :
    UnitDocument.parse? twoStatements.render = some twoStatements ∧
      twoStatements.source = some "é; b;" ∧
      ∃ unit, ofText default default "" twoStatements.render = .ok unit ∧
        unit.Holds twoStatements "é; b;" := by
  have hsource : twoStatements.source = some "é; b;" := rfl
  obtain ⟨-, hok, -, hholds⟩ :=
    ofText_spec default default "" twoStatements.render parse?_twoStatements hsource
  obtain ⟨unit, hunit⟩ := hok.mpr nests_twoStatements
  exact ⟨parse?_twoStatements, hsource, unit, hunit, hholds unit hunit⟩

end TreeLint
