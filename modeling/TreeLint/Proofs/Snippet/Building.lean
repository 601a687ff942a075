import TreeLint.Proofs.Snippet.Grammar
import TreeLint.Proofs.Snippet.Outline
import TreeLint.Proofs.Tree.Sound

/-!
# The calls that build a snippet

Elaboration reaches a tree through a builder only. Whatever the items are, it attaches and marks only
nodes that it has added before.

- `Builder.Leads`: calls that name only nodes of a builder lead from it to another.
- `Draft.plant_leads`: planting an outline is such a sequence of calls.
- `exists_calls_elaborate`: elaboration is a sequence of calls and the check at their end.
- `finished_of_parse`: what was parsed is a finished tree over its text.
-/

namespace TreeLint

/-! ## Sequences of calls -/

namespace Builder

/-- Calls that name only nodes which the builder has by then lead from `b` to `b'`. -/
def Leads (b b' : Builder) : Prop := ∃ calls, b.admits calls = true ∧ b' = b.performAll calls

variable {b b' b'' : Builder} {parent id : NodeId}

theorem Leads.refl (b : Builder) : b.Leads b := ⟨[], rfl, rfl⟩

theorem Leads.trans (h : b.Leads b') (h' : b'.Leads b'') : b.Leads b'' := by
  obtain ⟨calls, hcalls, rfl⟩ := h
  obtain ⟨more, hmore, rfl⟩ := h'
  exact ⟨calls ++ more, admits_append.mpr ⟨hcalls, hmore⟩, by simp [performAll]⟩

theorem leads_perform (call : BuilderCall) (h : call.named.all b.contains = true) :
    b.Leads (b.perform call) := ⟨[call], by simpa [admits] using h, rfl⟩

/-- A node `id` of `b` is one of `b'` too. -/
theorem Leads.contains (h : b.Leads b') (hid : b.contains id = true) : b'.contains id = true := by
  obtain ⟨calls, hcalls, rfl⟩ := h
  induction calls generalizing b with
  | nil => exact hid
  | cons call calls ih => exact ih (contains_perform hid) (admits_cons.mp hcalls).2

theorem leads_foldl_attach {children : List NodeId} (hparent : b.contains parent = true)
    (hchildren : ∀ child ∈ children, b.contains child = true) :
    b.Leads (children.foldl (fun b child => b.attach parent child) b) := by
  induction children generalizing b with
  | nil => exact .refl b
  | cons child children ih =>
    obtain ⟨hchild, hchildren⟩ := List.forall_mem_cons.mp hchildren
    have hstep : b.Leads (b.attach parent child) :=
      leads_perform (.attach parent child) (by simp [BuilderCall.named, hparent, hchild])
    exact hstep.trans (ih (hstep.contains hparent) fun c hc => hstep.contains (hchildren c hc))

theorem leads_foldl_suppress (keys : List String) (hid : b.contains id = true) :
    b.Leads (keys.foldl (fun b key => b.suppress id key) b) := by
  induction keys generalizing b with
  | nil => exact .refl b
  | cons key keys ih =>
    have hstep : b.Leads (b.suppress id key) :=
      leads_perform (.suppress id key) (by simp [BuilderCall.named, hid])
    exact hstep.trans (ih (hstep.contains hid))

end Builder

namespace Snippet

/-! ## Planting -/

namespace Draft

/-- A node with `label` is put on top of nodes `ids` that are there, by calls that the builder
admits. -/
theorem top_leads {d : Draft} (label : Label) {ids : List NodeId}
    (hids : ∀ id ∈ ids, d.builder.contains id = true) :
    d.builder.Leads (d.top label ids).2.builder ∧
      (d.top label ids).2.builder.contains (d.top label ids).1 = true := by
  let pushed := d.builder.push label.kind label.span label.name
  let attached := ids.foldl (fun b child => b.attach d.builder.nextId child) pushed
  have htop : (d.top label ids).1 = d.builder.nextId ∧ (d.top label ids).2.builder =
      label.keys.foldl (fun b key => b.suppress d.builder.nextId key) attached := by
    unfold top node suppress
    cases label.binding <;> exact ⟨rfl, rfl⟩
  have hpush : d.builder.Leads pushed :=
    Builder.leads_perform (.push label.kind label.span label.name) rfl
  have hnew : pushed.contains d.builder.nextId = true := by
    simp [pushed, Builder.contains, Builder.push, Builder.nextId]
  have hattach : pushed.Leads attached :=
    Builder.leads_foldl_attach hnew fun id hid => hpush.contains (hids id hid)
  have hkeys := Builder.leads_foldl_suppress label.keys (hattach.contains hnew)
  rw [htop.1, htop.2]
  exact ⟨hpush.trans (hattach.trans hkeys), hkeys.contains (hattach.contains hnew)⟩

mutual

/-- Planting `o` calls the builder with nodes that it has, and leaves it with the node on top. -/
theorem plant_leads (d : Draft) : ∀ o : Outline,
    d.builder.Leads (d.plant o).2.builder ∧ (d.plant o).2.builder.contains (d.plant o).1 = true
  | .node label children => by
    obtain ⟨hleads, hids⟩ := plantAll_leads d children
    obtain ⟨htop, hid⟩ := top_leads label hids
    exact ⟨hleads.trans htop, hid⟩

theorem plantAll_leads (d : Draft) : ∀ os : List Outline,
    d.builder.Leads (d.plantAll os).2.builder ∧
      ∀ id ∈ (d.plantAll os).1, (d.plantAll os).2.builder.contains id = true
  | [] => ⟨.refl _, fun _ h => nomatch h⟩
  | o :: os => by
    obtain ⟨hleads, hid⟩ := plant_leads d o
    obtain ⟨hrest, hids⟩ := plantAll_leads (d.plant o).2 os
    exact ⟨hleads.trans hrest, List.forall_mem_cons.mpr ⟨hrest.contains hid, hids⟩⟩

end

end Draft

/-! ## Elaborating -/

/-- Elaboration makes `calls` that name only nodes added before, and then finishes the tree below
the node added last, `root`. -/
theorem exists_calls_elaborate (scope : Scope) (text : String) (items : List Item) :
    ∃ calls root types, (Builder.start scope.path text).admits calls = true ∧
      ((Builder.start scope.path text).performAll calls).contains root = true ∧
      elaborate scope text items =
        match ((Builder.start scope.path text).performAll calls).finish root with
        | .ok tree => .ok (tree, types)
        | .error e => .error (.badTree e) := by
  have hplant := Draft.plant_leads (Draft.start scope text) (unitOutline scope text items)
  have helaborate := elaborate_eq scope text items
  generalize (Draft.start scope text).plant (unitOutline scope text items) = planted at *
  obtain ⟨root, d⟩ := planted
  obtain ⟨⟨calls, hcalls, hbuilder⟩, hroot⟩ := hplant
  simp only at hbuilder hroot helaborate
  rw [hbuilder] at hroot helaborate
  exact ⟨calls, root, d.scope.types, hcalls, hroot, helaborate⟩

/-- A `tree` that was parsed is finished, and over its `text`. -/
theorem finished_of_parse {scope : Scope} {text : String} {tree : Tree} {types : TypeTable}
    (h : parse scope text = .ok (tree, types)) : tree.Finished ∧ tree.source = text := by
  obtain ⟨tokens, -, h⟩ := exists_of_bind_eq_ok h
  obtain ⟨items, -, h⟩ := exists_of_bind_eq_ok h
  obtain ⟨calls, root, types', hcalls, -, helaborate⟩ := exists_calls_elaborate scope text items
  rw [helaborate] at h
  split at h
  · rename_i tree' hfinish
    cases h
    refine ⟨⟨scope.path, text, calls, root, hcalls, hfinish⟩, ?_⟩
    obtain ⟨-, -, -, -, rfl⟩ := Builder.finish_eq_ok_iff_checks.mp hfinish
    exact (Builder.source_performAll _ calls).1
  · cases h

end Snippet

end TreeLint
