import TreeLint.Proofs.Json.Members
import TreeLint.Proofs.Unit.Placing

/-!
# Reading back a rendered document

The text of a document is the document again, whatever its names and however its nodes nest, up to
the depth to which documents may nest.

- `NodeDocument.height`: the nodes on the longest way down. `decodeWithin_toJson`: each of them
  takes two of the levels left.
- `UnitDocument.parse?_render`: a rendered document is read back exactly up to a height of 63.
-/

namespace TreeLint

open Decode (Fields)

/-! ## Names -/

theorem decode_stringArray (levels : Nat) (l : List String) :
    Decode.list Decode.string (levels + 1) (stringArray l) = some l := by
  rw [stringArray, Decode.list]
  exact mapM_map_eq_some (decode_ofString levels) l

theorem decode_kindName (levels : Nat) (kind : Kind) :
    Decode.choice Kind.byName levels (.ofString kind.name) = some kind := by
  cases kind <;> rfl

theorem decode_symbolKindName (levels : Nat) (kind : SymbolKind) :
    Decode.choice SymbolKind.byName levels (.ofString kind.name) = some kind := by
  cases kind <;> rfl

/-! ## Records -/

theorem TypeDocument.decode_toJson (levels : Nat) (doc : TypeDocument) :
    TypeDocument.decode (levels + 2) doc.toJson = some doc := by
  obtain ⟨name, supertypes⟩ := doc
  have hmembers : TypeDocument.toJson ⟨name, supertypes⟩ = presentMembers
      [("name", some (.ofString name)), ("supertypes", some (stringArray supertypes))] := rfl
  rw [TypeDocument.decode, hmembers, record_present (by simp) (by simp)]
  simp [required_present, withDefault_present, List.lookup_cons, decode_ofString,
    decode_stringArray]

theorem BindingDocument.decode_toJson (levels : Nat) (doc : BindingDocument) :
    BindingDocument.decode (levels + 1) doc.toJson = some doc := by
  obtain ⟨kind, type, owner, returns⟩ := doc
  have hname := nullable_map (decode_ofString levels) fun s => by simp [Json.ofString]
  rw [BindingDocument.decode, BindingDocument.toJson, record_present (by simp) (by simp)]
  simp [optional_present, withDefault_present, List.lookup_cons, decode_symbolKindName,
    -Option.map_map, hname]

namespace NodeDocument

mutual

/-- Number of nodes on the longest way down: one more than that of the `children`. -/
def height : NodeDocument → Nat
  | ⟨_, _, _, _, _, children⟩ => heightAll children + 1

/-- The greatest `height` of documents. -/
def heightAll : List NodeDocument → Nat
  | [] => 0
  | doc :: docs => max (height doc) (heightAll docs)

end

/-- The ends of the range of `doc` are machine words. -/
def Bounded (doc : NodeDocument) : Prop :=
  doc.range.start ≤ Decode.maxWord ∧ doc.range.stop ≤ Decode.maxWord

theorem decode_suppressions (levels : Nat) (suppressions : List String) :
    ((if suppressions.isEmpty then none else some (stringArray suppressions)).map
      (Decode.list Decode.string (levels + 1))).getD (some []) = some suppressions :=
  getD_unlessDefault (decode_stringArray levels suppressions) List.isEmpty_iff.mp

mutual

/-- A document `doc` is read back when its nodes nest no deeper than may be read. Every node opens
two containers, its object and the array of its children, so it takes two of `levels`. -/
theorem decodeWithin_toJson (depth levels : Nat) (doc : NodeDocument)
    (h : ∀ d ∈ doc.preorder, d.Bounded) : decodeWithin depth levels doc.toJson =
      if doc.height ≤ depth ∧ 2 * doc.height ≤ levels then some doc else none := by
  obtain ⟨kind, range, name, binding, suppressions, children⟩ := doc
  rw [preorder] at h
  obtain ⟨⟨hstart, hstop⟩, hchildren⟩ := List.forall_mem_cons.mp h
  rw [height]
  cases depth with
  | zero => rw [if_neg (by omega)]; rfl
  | succ depth =>
    cases levels with
    | zero => rw [if_neg (by omega)]; rfl
    | succ levels =>
      have hname := nullable_map (decode_ofString levels) (fun s => by simp [Json.ofString]) name
      rw [decodeWithin, toJson, record_present (by simp) (by simp)]
      simp only [Option.bind_eq_bind, Option.bind_some, List.map_cons, List.map_nil,
        List.nodup_cons, List.mem_cons, String.reduceEq, List.not_mem_nil, or_self,
        not_false_eq_true, List.nodup_nil, and_self, required_present, optional_present,
        withDefault_present, List.lookup_cons, String.reduceBEq, BEq.rfl, Option.join_some,
        Option.map_some, Option.getD_some, decode_kindName, decode_ofNat hstart,
        decode_ofNat hstop, hname]
      -- The array of the children takes a level, even when it is empty.
      cases levels with
      | zero =>
        simp only [Decode.list, Option.bind_none, Option.bind_fun_none]
        rw [if_neg (by omega)]
      | succ levels =>
        have hbinding := nullable_map (BindingDocument.decode_toJson levels)
          (fun doc => by simp [BindingDocument.toJson, presentMembers, Json.ofMembers]) binding
        have hbelow : Decode.list (decodeWithin depth) (levels + 1) (.array (toJsons children)) =
            if heightAll children ≤ depth ∧ 2 * heightAll children ≤ levels then some children
            else none := mapM_toJsons depth levels children hchildren
        have hiff : (heightAll children + 1 ≤ depth + 1 ∧
            2 * (heightAll children + 1) ≤ levels + 1 + 1) ↔
            heightAll children ≤ depth ∧ 2 * heightAll children ≤ levels := by omega
        simp only [hbinding, decode_suppressions, hbelow, hiff, Option.bind_some]
        split <;> rfl

theorem mapM_toJsons (depth levels : Nat) (docs : List NodeDocument)
    (h : ∀ d ∈ preorderAll docs, d.Bounded) : (toJsons docs).mapM (decodeWithin depth levels) =
      if heightAll docs ≤ depth ∧ 2 * heightAll docs ≤ levels then some docs else none := by
  cases docs with
  | nil => simp [toJsons, heightAll]
  | cons doc docs =>
    rw [preorderAll, List.forall_mem_append] at h
    have hiff : (heightAll (doc :: docs) ≤ depth ∧ 2 * heightAll (doc :: docs) ≤ levels) ↔
        (doc.height ≤ depth ∧ 2 * doc.height ≤ levels) ∧
          heightAll docs ≤ depth ∧ 2 * heightAll docs ≤ levels := by
      rw [heightAll]
      omega
    rw [toJsons, List.mapM_cons, decodeWithin_toJson depth levels doc h.1,
      mapM_toJsons depth levels docs h.2]
    simp only [hiff]
    by_cases hone : doc.height ≤ depth ∧ 2 * doc.height ≤ levels
    · by_cases hall : heightAll docs ≤ depth ∧ 2 * heightAll docs ≤ levels
      · simp [hone, hall]
      · simp [hone, hall]
    · simp [hone]

end

end NodeDocument

namespace UnitDocument

theorem decode_types (levels : Nat) (docs : List TypeDocument) :
    Decode.list TypeDocument.decode (levels + 3) (.array (docs.map TypeDocument.toJson)) =
      some docs := by
  rw [Decode.list]
  exact mapM_map_eq_some (TypeDocument.decode_toJson levels) docs

/-- A document `doc` is read back when no node of it has more than 62 nodes above it. -/
theorem decode_toJson {doc : UnitDocument} (h : ∀ d ∈ doc.root.preorder, d.Bounded) :
    decode Decode.maxDepth doc.toJson = if doc.root.height ≤ 63 then some doc else none := by
  obtain ⟨path, source, sourcePath, types, root⟩ := doc
  change ∀ d ∈ root.preorder, d.Bounded at h
  have hname := nullable_map (decode_ofString 126) fun s => by simp [Json.ofString]
  have hroot : NodeDocument.decode 126 root.toJson =
      if root.height ≤ 63 then some root else none := by
    rw [NodeDocument.decode, NodeDocument.decodeWithin_toJson _ _ _ h, Decode.maxDepth]
    exact if_congr (by omega) rfl rfl
  rw [decode, toJson, Decode.maxDepth, record_present (by simp) (by simp)]
  simp only [Option.bind_eq_bind, Option.bind_some, List.map_cons, List.map_nil, List.nodup_cons,
    List.mem_cons, String.reduceEq, List.not_mem_nil, or_self, not_false_eq_true, List.nodup_nil,
    and_self, required_present, optional_present, withDefault_present, List.lookup_cons,
    String.reduceBEq, BEq.rfl, Option.join_some, Option.map_some, Option.getD_some,
    decode_ofString, hname, decode_types 123, hroot]
  split <;> rfl

end UnitDocument

/-! ## Texts -/

theorem plain_stringArray (l : List String) : (stringArray l).Plain := by
  rw [stringArray, Json.Plain, Json.plainItems_iff, List.forall_mem_map]
  exact fun s _ => rfl

theorem TypeDocument.plain_toJson (doc : TypeDocument) : doc.toJson.Plain := by
  refine Json.plain_ofMembers ?_
  simp [Json.ofString, Json.Plain, plain_stringArray]

theorem BindingDocument.plain_toJson (doc : BindingDocument) : doc.toJson.Plain := by
  refine plain_presentMembers ?_
  simp [Json.ofString, Json.Plain]

mutual

theorem NodeDocument.plain_toJson (doc : NodeDocument) : doc.toJson.Plain := by
  obtain ⟨kind, range, name, binding, suppressions, children⟩ := doc
  rw [toJson]
  refine plain_presentMembers ?_
  simp [Json.ofString, Json.ofNat, Json.Plain, plain_stringArray, BindingDocument.plain_toJson,
    NodeDocument.plain_toJsons children]

theorem NodeDocument.plain_toJsons (docs : List NodeDocument) : Json.PlainItems (toJsons docs) := by
  cases docs with
  | nil => trivial
  | cons doc docs => exact ⟨plain_toJson doc, plain_toJsons docs⟩

end

namespace UnitDocument

theorem plain_toJson (doc : UnitDocument) : doc.toJson.Plain := by
  refine plain_presentMembers ?_
  simp [Json.ofString, Json.Plain, Json.plainItems_iff, TypeDocument.plain_toJson,
    NodeDocument.plain_toJson]

/-- The text of a document `doc` is read back as the document, unless it nests too deep. -/
theorem parse?_render {doc : UnitDocument} (h : ∀ d ∈ doc.root.preorder, d.Bounded) :
    parse? doc.render = if doc.root.height ≤ 63 then some doc else none := by
  rw [parse?, Decode.text?, render, Json.parse?_compact doc.plain_toJson, Option.bind_some,
    decode_toJson h]

end UnitDocument

end TreeLint
