import TreeLint.Matcher

/-!
# What matchers ask

A matcher asks a node for its kind, its parent, its callee and the types bound to it, and a type for
its name. It asks nothing else, so it says the same wherever these answers are the same.

- `holds_kindIs_iff`, `holds_parent_iff`, `holds_callee_iff`, `holds_ownerIn_iff`,
  `holds_returnsOwner_iff`, `holds_all_iff`, `holds_any_iff`: when a matcher holds, by its shape.
- `Visit.Answers`: of some nodes one visit answers what another answers of them under other numbers.
- `Matcher.holds_of_answers`: every matcher, part by part.
-/

namespace TreeLint

/-- Of the nodes in `known`, `visit'` answers a matcher under the numbers that `σ` and `τ` give what
`visit` answers. What is asked next, the parent or the callee, is in `known` again. -/
structure Visit.Answers (σ : NodeId → NodeId) (τ : TypeId → TypeId) (known : NodeId → Prop)
    (visit visit' : Visit) : Prop where
  kind? : ∀ x, known x → visit'.tree.kind? (σ x) = visit.tree.kind? x
  parent? : ∀ x, known x → visit'.parent? (σ x) = (visit.parent? x).map σ
  callee? : ∀ x, known x → visit'.tree.callee? (σ x) = (visit.tree.callee? x).map σ
  ownerOf? : ∀ x, known x → visit'.types.ownerOf? (σ x) = (visit.types.ownerOf? x).map τ
  returnsOf? : ∀ x, known x → visit'.types.returnsOf? (σ x) = (visit.types.returnsOf? x).map τ
  typeName? : ∀ type, visit'.types.typeName? (τ type) = visit.types.typeName? type
  injective : Function.Injective τ
  known_parent : ∀ x above, known x → visit.parent? x = some above → known above
  known_callee : ∀ x target, known x → visit.tree.callee? x = some target → known target

/-- Visits that answer the same of every node under its own number, `id`. -/
theorem Visit.answers_id {visit visit' : Visit}
    (hkind : ∀ x, visit'.tree.kind? x = visit.tree.kind? x)
    (hparent : ∀ x, visit'.parent? x = visit.parent? x)
    (hcallee : ∀ x, visit'.tree.callee? x = visit.tree.callee? x)
    (htypes : visit'.types = visit.types) : visit.Answers id id (fun _ => True) visit' where
  kind? x _ := hkind x
  parent? x _ := by rw [id, hparent, Option.map_id, id]
  callee? x _ := by rw [id, hcallee, Option.map_id, id]
  ownerOf? x _ := by rw [id, htypes, Option.map_id, id]
  returnsOf? x _ := by rw [id, htypes, Option.map_id, id]
  typeName? type := by rw [id, htypes]
  injective := Function.injective_id
  known_parent _ _ _ _ := trivial
  known_callee _ _ _ _ := trivial

namespace Matcher

/-! ## By shape -/

section

variable {visit : Visit} {node : NodeId} {inner : Matcher} {ms : List Matcher}

theorem holds_kindIs_iff {kind : Kind} : (kindIs kind).holds visit node = true ↔
    visit.tree.kind? node = some kind := by
  rw [holds, decide_eq_true_eq]

theorem holds_parent_iff : (parent inner).holds visit node = true ↔
    ∃ above, visit.parent? node = some above ∧ inner.holds visit above = true := by
  rw [holds]
  cases visit.parent? node <;> simp

theorem holds_callee_iff : (callee inner).holds visit node = true ↔
    visit.tree.isCall node = true ∧
      ∃ target, visit.tree.callee? node = some target ∧ inner.holds visit target = true := by
  rw [holds]
  cases visit.tree.isCall node <;> cases visit.tree.callee? node <;> simp

theorem holds_ownerIn_iff {names : List String} : (ownerIn names).holds visit node = true ↔
    ∃ owner, visit.types.ownerOf? node = some owner ∧
      ∃ name ∈ names, visit.types.typeName? owner = some name := by
  rw [holds]
  cases visit.types.ownerOf? node with
  | none => simp
  | some owner => cases hname : visit.types.typeName? owner <;> simp [hname]

theorem holds_returnsOwner_iff : returnsOwner.holds visit node = true ↔
    ∃ owner, visit.types.ownerOf? node = some owner ∧
      visit.types.returnsOf? node = some owner := by
  rw [holds]
  cases visit.types.ownerOf? node <;> cases visit.types.returnsOf? node <;> simp [eq_comm]

theorem allHold_iff : allHold visit ms node = true ↔ ∀ m ∈ ms, m.holds visit node = true := by
  induction ms with
  | nil => simp [allHold]
  | cons m rest ih => simp [allHold, ih]

theorem anyHolds_iff : anyHolds visit ms node = true ↔ ∃ m ∈ ms, m.holds visit node = true := by
  induction ms with
  | nil => simp [anyHolds]
  | cons m rest ih => simp [anyHolds, ih]

theorem holds_all_iff : (all ms).holds visit node = true ↔ ∀ m ∈ ms, m.holds visit node = true := by
  rw [holds, allHold_iff]

theorem holds_any_iff : (any ms).holds visit node = true ↔ ∃ m ∈ ms, m.holds visit node = true := by
  rw [holds, anyHolds_iff]

end

/-! ## The same answers -/

section

variable {σ : NodeId → NodeId} {τ : TypeId → TypeId} {known : NodeId → Prop} {visit visit' : Visit}

mutual

/-- A matcher says the same of a node `x` in `visit` and of `σ x` in `visit'`, where it is given the
same answers. -/
theorem holds_of_answers (h : visit.Answers σ τ known visit') : ∀ (m : Matcher) (x : NodeId),
    known x → m.holds visit' (σ x) = m.holds visit x
  | kindIs kind, x, hx => by rw [holds, holds, h.kind? x hx]
  | parent inner, x, hx => by
    rw [holds, holds, h.parent? x hx]
    cases hparent : visit.parent? x with
    | none => rfl
    | some above => exact holds_of_answers h inner above (h.known_parent x above hx hparent)
  | callee inner, x, hx => by
    have hcall : visit'.tree.isCall (σ x) = visit.tree.isCall x := by
      rw [Tree.isCall, Tree.isCall, h.kind? x hx]
    rw [holds, holds, hcall, h.callee? x hx]
    cases hcallee : visit.tree.callee? x with
    | none => cases visit.tree.isCall x <;> rfl
    | some target =>
      cases visit.tree.isCall x with
      | false => rfl
      | true => exact holds_of_answers h inner target (h.known_callee x target hx hcallee)
  | ownerIn names, x, hx => by
    rw [holds, holds, h.ownerOf? x hx]
    cases visit.types.ownerOf? x with
    | none => rfl
    | some owner => rw [Option.map_some, Option.bind_some, Option.bind_some, h.typeName?]
  | returnsOwner, x, hx => by
    rw [holds, holds, h.ownerOf? x hx, h.returnsOf? x hx]
    cases visit.types.ownerOf? x with
    | none => rfl
    | some owner =>
      cases visit.types.returnsOf? x with
      | none => rfl
      | some returned => simp [h.injective.eq_iff]
  | all inner, x, hx => by
    rw [holds, holds]
    exact allHold_of_answers h inner x hx
  | any inner, x, hx => by
    rw [holds, holds]
    exact anyHolds_of_answers h inner x hx
  | not inner, x, hx => by rw [holds, holds, holds_of_answers h inner x hx]

theorem allHold_of_answers (h : visit.Answers σ τ known visit') :
    ∀ (ms : List Matcher) (x : NodeId), known x → allHold visit' ms (σ x) = allHold visit ms x
  | [], x, _ => by rw [allHold, allHold]
  | m :: rest, x, hx => by
    rw [allHold, allHold, holds_of_answers h m x hx, allHold_of_answers h rest x hx]

theorem anyHolds_of_answers (h : visit.Answers σ τ known visit') :
    ∀ (ms : List Matcher) (x : NodeId), known x → anyHolds visit' ms (σ x) = anyHolds visit ms x
  | [], x, _ => by rw [anyHolds, anyHolds]
  | m :: rest, x, hx => by
    rw [anyHolds, anyHolds, holds_of_answers h m x hx, anyHolds_of_answers h rest x hx]

end

end

end Matcher

end TreeLint
