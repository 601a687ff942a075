import TreeLint.Proofs.Tree.Sound
import TreeLint.Proofs.Typing.Names

/-!
# Where the nodes of a document are put

Loading puts the nodes of a document in one run of places, a node before all that is below it. So
the place of each node is known from the place of the first.

- `NodeDocument.preorder`: the nodes of a document, each before those below it.
- `NodeDocument.nodesFrom`: the nodes that a document makes from a place on.
- `UnitBuilder.nodes_add`: adding a document puts these nodes behind those that are there, and makes
  the first a child. `UnitBuilder.types_add`: it binds them one after the other.
-/

namespace TreeLint

namespace NodeDocument

/-! ## Document order -/

mutual

/-- A node and all below it, each before those below it, its `children` first to last. -/
def preorder : NodeDocument → List NodeDocument
  | ⟨kind, range, name, binding, suppressions, children⟩ =>
    ⟨kind, range, name, binding, suppressions, children⟩ :: preorderAll children

/-- The nodes of documents, one document behind the other, each in `preorder`. -/
def preorderAll : List NodeDocument → List NodeDocument
  | [] => []
  | doc :: docs => preorder doc ++ preorderAll docs

end

theorem preorder_eq (doc : NodeDocument) : doc.preorder = doc :: preorderAll doc.children := by
  cases doc
  rw [preorder]

/-- Number of nodes of `doc`. -/
def size (doc : NodeDocument) : Nat := doc.preorder.length

theorem size_eq (doc : NodeDocument) : doc.size = (preorderAll doc.children).length + 1 := by
  rw [size, preorder_eq, List.length_cons]

/-- The places of the first nodes of documents that stand one behind the other from `first` on. -/
def places (first : Nat) : List NodeDocument → List NodeId
  | [] => []
  | doc :: docs => ⟨first⟩ :: places (first + doc.size) docs

theorem le_of_mem_places {first : Nat} {docs : List NodeDocument} {id : NodeId}
    (h : id ∈ places first docs) : first ≤ id.index := by
  induction docs generalizing first with
  | nil => cases h
  | cons doc docs ih =>
    rcases List.mem_cons.mp h with rfl | h
    · exact Nat.le_refl _
    · exact Nat.le_trans (Nat.le_add_right _ _) (ih h)

/-- The children of a node stand where `places` says. -/
theorem forall₂_places {all : List NodeDocument} {first : Nat} {docs : List NodeDocument}
    (h : preorderAll docs <+: all.drop first) :
    List.Forall₂ (fun id doc => all[id.index]? = some doc) (places first docs) docs := by
  induction docs generalizing first with
  | nil => exact .nil
  | cons doc docs ih =>
    obtain ⟨rest, hrest⟩ := h
    rw [preorderAll, List.append_assoc] at hrest
    refine .cons ?_ (ih ⟨rest, ?_⟩)
    · have hfirst : (all.drop first)[0]? = some doc := by
        rw [← hrest, preorder_eq]
        rfl
      rwa [List.getElem?_drop] at hfirst
    · rw [← List.drop_drop, ← hrest, size, List.drop_left]

mutual

/-- What is below a node `d` stands together behind it. -/
theorem preorder_prefix_drop {doc d : NodeDocument} {i : Nat} (h : doc.preorder[i]? = some d) :
    d.preorder <+: doc.preorder.drop i := by
  obtain ⟨kind, range, name, binding, suppressions, children⟩ := doc
  cases i with
  | zero =>
    rw [preorder] at h
    rw [← Option.some.inj h]
    exact List.prefix_rfl
  | succ i =>
    rw [preorder] at h ⊢
    exact preorder_prefix_dropAll (List.getElem?_cons_succ.symm.trans h)

theorem preorder_prefix_dropAll {docs : List NodeDocument} {d : NodeDocument} {i : Nat}
    (h : (preorderAll docs)[i]? = some d) : d.preorder <+: (preorderAll docs).drop i := by
  cases docs with
  | nil => cases h
  | cons doc docs =>
    rw [preorderAll] at h ⊢
    by_cases hi : i < doc.preorder.length
    · rw [List.getElem?_append_left hi] at h
      rw [List.drop_append_of_le_length (Nat.le_of_lt hi)]
      exact (preorder_prefix_drop h).trans (List.prefix_append _ _)
    · have hi := Nat.le_of_not_lt hi
      rw [List.getElem?_append_right hi] at h
      rw [List.drop_append, List.drop_eq_nil_of_le hi]
      exact preorder_prefix_dropAll h

end

/-- The places of the children of a node `d` are those of their documents. -/
theorem forall₂_children {doc d : NodeDocument} {i : Nat} (h : doc.preorder[i]? = some d) :
    List.Forall₂ (fun id child => doc.preorder[id.index]? = some child) (places (i + 1) d.children)
      d.children := by
  refine forall₂_places ?_
  obtain ⟨rest, hrest⟩ := preorder_prefix_drop h
  rw [preorder_eq, List.cons_append] at hrest
  exact ⟨rest, by rw [← List.drop_drop, ← hrest]; rfl⟩

/-! ## The nodes of a document -/

/-- The node that `doc` makes, without those below it. -/
def bare (parent : Option NodeId) (doc : NodeDocument) : Node where
  kind := doc.kind
  range := doc.range
  name := doc.name
  parent := parent
  suppressions := doc.suppressions

/-- The node that a document makes at the place `first`. -/
def node (parent : Option NodeId) (first : Nat) (doc : NodeDocument) : Node :=
  { doc.bare parent with children := places (first + 1) doc.children }

mutual

/-- The nodes that a document makes from the place `first` on. -/
def nodesFrom (parent : Option NodeId) (first : Nat) : NodeDocument → List Node
  | ⟨kind, range, name, binding, suppressions, children⟩ =>
    node parent first ⟨kind, range, name, binding, suppressions, children⟩
      :: nodesAllFrom (some ⟨first⟩) (first + 1) children

/-- The nodes that documents make from the place `first` on, one document behind the other. -/
def nodesAllFrom (parent : Option NodeId) (first : Nat) : List NodeDocument → List Node
  | [] => []
  | doc :: docs => nodesFrom parent first doc ++ nodesAllFrom parent (first + doc.size) docs

end

theorem nodesFrom_eq (parent : Option NodeId) (first : Nat) (doc : NodeDocument) :
    doc.nodesFrom parent first =
      doc.node parent first :: nodesAllFrom (some ⟨first⟩) (first + 1) doc.children := by
  cases doc
  rw [nodesFrom]

mutual

theorem length_nodesFrom (parent : Option NodeId) (first : Nat) (doc : NodeDocument) :
    (doc.nodesFrom parent first).length = doc.size := by
  cases doc
  rw [nodesFrom, List.length_cons, length_nodesAllFrom, size_eq]

theorem length_nodesAllFrom (parent : Option NodeId) (first : Nat) (docs : List NodeDocument) :
    (nodesAllFrom parent first docs).length = (preorderAll docs).length := by
  cases docs with
  | nil => rfl
  | cons doc docs =>
    rw [nodesAllFrom, List.length_append, length_nodesFrom, length_nodesAllFrom, preorderAll,
      List.length_append, size]

end

mutual

/-- The node at the place `first + k` is that of the document `d` at this place in document
order. -/
theorem getElem?_nodesFrom (parent : Option NodeId) (first : Nat) {k : Nat} {doc d : NodeDocument}
    (h : doc.preorder[k]? = some d) :
    ∃ above, (doc.nodesFrom parent first)[k]? = some (d.node above (first + k)) := by
  obtain ⟨kind, range, name, binding, suppressions, children⟩ := doc
  rw [preorder] at h
  rw [nodesFrom]
  cases k with
  | zero => exact ⟨parent, by rw [← Option.some.inj h]; rfl⟩
  | succ k =>
    obtain ⟨above, hnode⟩ := getElem?_nodesAllFrom (some ⟨first⟩) (first + 1)
      ((List.getElem?_cons_succ).symm.trans h)
    exact ⟨above, by rw [List.getElem?_cons_succ, hnode, Nat.add_assoc, Nat.add_comm 1]⟩

theorem getElem?_nodesAllFrom (parent : Option NodeId) (first : Nat) {k : Nat}
    {docs : List NodeDocument} {d : NodeDocument} (h : (preorderAll docs)[k]? = some d) :
    ∃ above, (nodesAllFrom parent first docs)[k]? = some (d.node above (first + k)) := by
  cases docs with
  | nil => cases h
  | cons doc docs =>
    rw [preorderAll] at h
    rw [nodesAllFrom]
    by_cases hk : k < doc.size
    · rw [List.getElem?_append_left hk] at h
      rw [List.getElem?_append_left (by rwa [length_nodesFrom])]
      exact getElem?_nodesFrom parent first h
    · have hk := Nat.le_of_not_lt hk
      rw [List.getElem?_append_right hk, ← size] at h
      rw [List.getElem?_append_right (by rwa [length_nodesFrom]), length_nodesFrom]
      obtain ⟨above, hnode⟩ := getElem?_nodesAllFrom parent (first + doc.size) h
      exact ⟨above, by rw [hnode, Nat.add_assoc, Nat.add_sub_cancel' hk]⟩

end

mutual

/-- The first node and all children together are all nodes of `doc`. -/
theorem perm_children (parent : Option NodeId) (first : Nat) (doc : NodeDocument) :
    (⟨first⟩ :: (doc.nodesFrom parent first).flatMap Node.children).Perm
      ((List.range' first doc.size).map NodeId.mk) := by
  cases doc
  rw [nodesFrom, size_eq, List.flatMap_cons, List.range'_succ, List.map_cons]
  exact (perm_childrenAll _ _ _).cons _

theorem perm_childrenAll (parent : Option NodeId) (first : Nat) (docs : List NodeDocument) :
    (places first docs ++ (nodesAllFrom parent first docs).flatMap Node.children).Perm
      ((List.range' first (preorderAll docs).length).map NodeId.mk) := by
  cases docs with
  | nil => exact .nil
  | cons doc docs =>
    have htop := perm_children parent first doc
    have hrest := perm_childrenAll parent (first + doc.size) docs
    rw [preorderAll, List.length_append, ← size, ← List.range'_append_1, List.map_append, places,
      nodesAllFrom, List.flatMap_append]
    refine List.Perm.trans ?_ (htop.append hrest)
    rw [List.cons_append, List.cons_append, ← List.append_assoc, ← List.append_assoc]
    exact (List.perm_append_comm.append_right _).cons _

end

end NodeDocument

/-! ## Adding a document -/

/-- The `nodes` after `parent`, if it is one of them, has got more `children`. -/
def adopt (parent : Option NodeId) (children : List NodeId) (nodes : List Node) : List Node :=
  match parent with
  | none => nodes
  | some parent =>
    nodes.modify parent.index fun node => { node with children := node.children ++ children }

theorem length_adopt (parent : Option NodeId) (children : List NodeId) (nodes : List Node) :
    (adopt parent children nodes).length = nodes.length := by
  cases parent with
  | none => rfl
  | some parent => exact List.length_modify _ _ _

/-- Getting children one after the other: first `l`, then `r`. -/
theorem adopt_adopt (parent : Option NodeId) (l r : List NodeId) (nodes : List Node) :
    adopt parent r (adopt parent l nodes) = adopt parent (l ++ r) nodes := by
  cases parent with
  | none => rfl
  | some parent => simp [adopt, List.modify_modify_eq, Function.comp_def]

theorem adopt_append {parent : Option NodeId} {nodes : List Node}
    (h : ∀ id ∈ parent, id.index < nodes.length) (children : List NodeId) (behind : List Node) :
    adopt parent children (nodes ++ behind) = adopt parent children nodes ++ behind := by
  cases parent with
  | none => rfl
  | some parent =>
    have hlt := h parent rfl
    refine List.ext_getElem? fun i => ?_
    by_cases hi : i < nodes.length
    · simp only [adopt, List.getElem?_modify, List.getElem?_append, hi, List.length_modify, if_true]
    · have hne : parent.index ≠ i := by omega
      simp [adopt, List.getElem?_append, hi, hne]

theorem modify_length (front behind : List Node) (node : Node) (change : Node → Node) :
    (front ++ node :: behind).modify front.length change = front ++ change node :: behind := by
  induction front with
  | nil => rfl
  | cons other front ih => simp [ih]

namespace UnitBuilder

open NodeDocument

variable {b : UnitBuilder} {parent : Option NodeId}

/-- The node `parent`, if there is one, has been added. -/
def Has (b : UnitBuilder) (parent : Option NodeId) : Prop :=
  ∀ id ∈ parent, b.builder.contains id = true

/-- A node is put behind the others, without children, and becomes the last child of `parent`. -/
theorem nodes_addOne (hparent : b.Has parent) (doc : NodeDocument) :
    (b.addOne parent doc).builder.nodes.toList =
      adopt parent [b.builder.nextId] b.builder.nodes.toList ++ [doc.bare parent] := by
  let marked := doc.suppressions.foldl (fun builder key => builder.suppress b.builder.nextId key)
    (b.builder.push doc.kind doc.range doc.name)
  have hmarked : marked.nodes.toList = b.builder.nodes.toList ++ [doc.bare none] := by
    refine List.ext_getElem? fun i => ?_
    rw [Array.getElem?_toList, Builder.nodes_foldl_suppress, Builder.nodes_push]
    rcases Nat.lt_trichotomy i b.builder.nodes.size with hi | rfl | hi
    · simp [Builder.nextId, Nat.ne_of_lt hi, List.getElem?_append, hi]
    · simp [Builder.nextId, bare]
    · have hnone : b.builder.nodes[i]? = none := by simp; omega
      simp [Builder.nextId, Nat.ne_of_gt hi, hnone]
      omega
  cases parent with
  | none => exact hmarked
  | some parent =>
    have hlt : parent.index < b.builder.nodes.size := by
      simpa [Builder.contains] using hparent parent rfl
    have hsize : marked.nodes.size = b.builder.nodes.size + 1 := by
      simpa using congrArg List.length hmarked
    have hnew : marked.contains b.builder.nextId = true := by
      simp [Builder.contains, Builder.nextId, hsize]
    rw [← adopt_append (by simpa using hlt)]
    change (marked.attach parent b.builder.nextId).nodes.toList = _
    rw [Builder.attach, if_pos hnew]
    simp only [Builder.update, Array.toList_modify, hmarked, adopt]
    exact congrArg (List.modify · parent.index _)
      (modify_length b.builder.nodes.toList [] (doc.bare none) _)

theorem size_of_nodes {b' : UnitBuilder} {children : List NodeId} {new : List Node}
    (h : b'.builder.nodes.toList = adopt parent children b.builder.nodes.toList ++ new) :
    b'.builder.nodes.size = b.builder.nodes.size + new.length := by
  simpa [length_adopt] using congrArg List.length h

theorem Has.index_lt {parent : NodeId} (h : b.Has (some parent)) :
    parent.index < b.builder.nodes.size := by
  simpa [Builder.contains] using h parent rfl

theorem has_some {parent : NodeId} (h : parent.index < b.builder.nodes.size) :
    b.Has (some parent) := by
  simpa [Has, Builder.contains] using h

mutual

/-- The nodes of a document are put behind the others, and the first becomes the last child of
`parent`. -/
theorem nodes_add {b : UnitBuilder} {parent : Option NodeId} (hparent : b.Has parent)
    (doc : NodeDocument) : (b.add parent doc).builder.nodes.toList =
      adopt parent [b.builder.nextId] b.builder.nodes.toList ++
        doc.nodesFrom parent b.builder.nodes.size := by
  obtain ⟨kind, range, name, binding, suppressions, children⟩ := doc
  have hone := nodes_addOne hparent ⟨kind, range, name, binding, suppressions, children⟩
  rw [add, nodesFrom]
  generalize b.addOne parent ⟨kind, range, name, binding, suppressions, children⟩ = b' at hone ⊢
  have hsize := size_of_nodes hone
  have hnew : b'.Has (some b.builder.nextId) := has_some (by simp [hsize, Builder.nextId])
  have htop := modify_length (adopt parent [b.builder.nextId] b.builder.nodes.toList) []
    (bare parent ⟨kind, range, name, binding, suppressions, children⟩)
    fun node => { node with children := node.children ++ places b'.builder.nodes.size children }
  rw [length_adopt, ← hone] at htop
  rw [nodes_addAll hnew children]
  refine (congrArg (· ++ _) htop).trans ?_
  rw [List.append_assoc, hsize]
  rfl

/-- The nodes of documents are put behind the others, and the first of each becomes a child of
`parent`. -/
theorem nodes_addAll {b : UnitBuilder} {parent : NodeId} (hparent : b.Has (some parent))
    (docs : List NodeDocument) : (b.addAll parent docs).builder.nodes.toList =
      adopt (some parent) (places b.builder.nodes.size docs) b.builder.nodes.toList ++
        nodesAllFrom (some parent) b.builder.nodes.size docs := by
  cases docs with
  | nil =>
    rw [addAll, places, nodesAllFrom, List.append_nil, adopt]
    simp only [List.append_nil]
    exact (List.modify_id _ _).symm
  | cons doc docs =>
    have hadd := nodes_add hparent doc
    rw [addAll, nodesAllFrom]
    generalize b.add (some parent) doc = b' at hadd ⊢
    have hsize := size_of_nodes hadd
    have hlt := hparent.index_lt
    have hhas : b'.Has (some parent) := has_some (by omega)
    rw [nodes_addAll hhas docs, hadd, hsize, length_nodesFrom,
      adopt_append (by simpa [length_adopt] using hlt), adopt_adopt, List.append_assoc]
    rfl

end

end UnitBuilder

/-! ## Bindings -/

namespace TypeTable

/-- Binds the node `id` of `doc`, if the document gives it a binding. -/
def bindOne (table : TypeTable) (id : NodeId) (doc : NodeDocument) : TypeTable :=
  match doc.binding with
  | some binding => table.bindDocument id binding
  | none => table

/-- Binds the nodes of documents, one behind the other from the place `first` on. -/
def bindAll (table : TypeTable) (first : Nat) : List NodeDocument → TypeTable
  | [] => table
  | doc :: docs => (table.bindOne ⟨first⟩ doc).bindAll (first + 1) docs

theorem bindAll_append (table : TypeTable) (first : Nat) (l r : List NodeDocument) :
    table.bindAll first (l ++ r) = (table.bindAll first l).bindAll (first + l.length) r := by
  induction l generalizing table first with
  | nil => rfl
  | cons doc l ih =>
    rw [List.cons_append, bindAll, bindAll, ih, List.length_cons, Nat.add_assoc, Nat.add_comm 1]

end TypeTable

namespace UnitBuilder

open NodeDocument

mutual

/-- The nodes of `doc` are bound in document order. -/
theorem types_add {b : UnitBuilder} {parent : Option NodeId} (hparent : b.Has parent)
    (doc : NodeDocument) :
    (b.add parent doc).types = b.types.bindAll b.builder.nodes.size doc.preorder := by
  obtain ⟨kind, range, name, binding, suppressions, children⟩ := doc
  have hone := nodes_addOne hparent ⟨kind, range, name, binding, suppressions, children⟩
  have hsize := size_of_nodes hone
  have hnew : (b.addOne parent ⟨kind, range, name, binding, suppressions, children⟩).Has
      (some b.builder.nextId) := has_some (by simp [hsize, Builder.nextId])
  rw [add, types_addAll hnew, hsize, preorder]
  rfl

theorem types_addAll {b : UnitBuilder} {parent : NodeId} (hparent : b.Has (some parent))
    (docs : List NodeDocument) :
    (b.addAll parent docs).types = b.types.bindAll b.builder.nodes.size (preorderAll docs) := by
  cases docs with
  | nil => rfl
  | cons doc docs =>
    have hsize := size_of_nodes (nodes_add hparent doc)
    have hlt := hparent.index_lt
    have hhas : (b.add (some parent) doc).Has (some parent) := has_some (by omega)
    rw [addAll, types_addAll hhas, types_add hparent, preorderAll, TypeTable.bindAll_append, hsize,
      length_nodesFrom, size]

end

/-! ## Calls

A document is added by calls that name only nodes added before, so what such calls keep of a builder
is kept. -/

/-- Every call that names only nodes of the builder keeps `P`. -/
def Kept (P : Builder → Prop) : Prop :=
  ∀ b call, call.named.all b.contains = true → P b → P (b.perform call)

theorem keeps_addOne {P : Builder → Prop} (step : Kept P) {b : UnitBuilder}
    {parent : Option NodeId} (hparent : b.Has parent) (hb : P b.builder) (doc : NodeDocument) :
    P (b.addOne parent doc).builder := by
  have hkeys : ∀ (keys : List String) (builder : Builder), P builder →
      builder.contains b.builder.nextId = true →
      P (keys.foldl (fun builder key => builder.suppress b.builder.nextId key) builder) := by
    intro keys
    induction keys with
    | nil => exact fun _ hP _ => hP
    | cons key keys ih =>
      intro builder hP hid
      have hcall : [b.builder.nextId].all builder.contains = true := by simp [hid]
      exact ih _ (step builder (.suppress b.builder.nextId key) hcall hP)
        (by simpa [Builder.suppress, Builder.contains_update] using hid)
  have hmarked := hkeys doc.suppressions (b.builder.push doc.kind doc.range doc.name)
    (step b.builder (.push doc.kind doc.range doc.name) rfl hb)
    (by simp [Builder.contains, Builder.nextId, Builder.push])
  cases parent with
  | none => exact hmarked
  | some parent =>
    have hlt := hparent.index_lt
    have hcall : [parent, b.builder.nextId].all (doc.suppressions.foldl
        (fun builder key => builder.suppress b.builder.nextId key)
        (b.builder.push doc.kind doc.range doc.name)).contains = true := by
      simp [Builder.contains, Builder.size_foldl_suppress, Builder.push, Builder.nextId]
      omega
    exact step _ (.attach parent b.builder.nextId) hcall hmarked

mutual

theorem keeps_add {P : Builder → Prop} (step : Kept P) {b : UnitBuilder} {parent : Option NodeId}
    (hparent : b.Has parent) (hb : P b.builder) (doc : NodeDocument) :
    P (b.add parent doc).builder := by
  obtain ⟨kind, range, name, binding, suppressions, children⟩ := doc
  have hsize := size_of_nodes
    (nodes_addOne hparent ⟨kind, range, name, binding, suppressions, children⟩)
  rw [add]
  exact keeps_addAll step (has_some (by simp [hsize, Builder.nextId]))
    (keeps_addOne step hparent hb _) children

theorem keeps_addAll {P : Builder → Prop} (step : Kept P) {b : UnitBuilder} {parent : NodeId}
    (hparent : b.Has (some parent)) (hb : P b.builder) (docs : List NodeDocument) :
    P (b.addAll parent docs).builder := by
  cases docs with
  | nil => exact hb
  | cons doc docs =>
    have hsize := size_of_nodes (nodes_add hparent doc)
    have hlt := hparent.index_lt
    rw [addAll]
    exact keeps_addAll step (has_some (by omega)) (keeps_add step hparent hb doc) docs

end

end UnitBuilder

end TreeLint
