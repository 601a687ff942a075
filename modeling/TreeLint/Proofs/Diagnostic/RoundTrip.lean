import Mathlib.Tactic.MkIffOfInductiveProp
import TreeLint.Command.Output
import TreeLint.Proofs.Json.Members

/-!
# Reading back a result

A result is read back from its text, on one line or on many: whatever its texts say, in whatever
order its edits stand, with help and fixes or without. Only its numbers are bounded, by the sizes
that they have in memory.

- `LintResult.Sized`: the numbers are machine words, and the places of nodes are half words.
- `decode_toJson`, once for each kind of value: it is read back from its object. The number of
  levels says how many containers it opens.
- `LintResult.parse?_of_sized`: a result is read back from both its texts.
-/

namespace TreeLint

open Decode (Fields)

/-! ## Numbers of limited size -/

def Span.Sized (span : Span) : Prop := span.start ≤ Decode.maxWord ∧ span.stop ≤ Decode.maxWord

/-- The ends of the span that the edit names are machine words, whether it is an `anchor` or
`removed`. -/
def Edit.Sized : Edit → Prop
  | insertBefore anchor _ => anchor.Sized
  | delete removed => removed.Sized
  | replace removed _ => removed.Sized

def NodeId.Sized (node : NodeId) : Prop := node.index ≤ Decode.maxIndex

@[mk_iff]
structure Location.Sized (l : Location) : Prop where
  line : l.line ≤ Decode.maxWord
  column : l.column ≤ Decode.maxWord
  offset : l.offset ≤ Decode.maxWord
  length : l.length ≤ Decode.maxWord

@[mk_iff]
structure Diagnostic.Sized (d : Diagnostic) : Prop where
  anchor : d.anchor.Sized
  location : d.location.Sized
  edits : ∀ edit ∈ d.fix.edits, edit.Sized

@[mk_iff]
structure RuleFailure.Sized (f : RuleFailure) : Prop where
  node : f.node.Sized
  location : f.location.Sized

/-- Every number of a result has the size that it has in memory: a place of a node is half a machine
word, any other number is a machine word. -/
@[mk_iff]
structure LintResult.Sized (r : LintResult) : Prop where
  diagnostics : ∀ d ∈ r.diagnostics, d.Sized
  failures : ∀ f ∈ r.failures, f.Sized
  unitsChecked : r.unitsChecked ≤ Decode.maxWord

/-! ## Edits -/

theorem Span.decode_toJson {span : Span} (h : span.Sized) (levels : Nat) :
    Span.decode (levels + 1) span.toJson = some span := by
  rw [Span.decode, Span.toJson, record_ofMembers (by simp) (by simp)]
  simp [Fields.required, List.lookup_cons, decode_ofNat h.1, decode_ofNat h.2]

/-- The object of an `edit` is held until its name has been read. -/
theorem Edit.isHeld_toJson {edit : Edit} (h : edit.Sized) (levels : Nat) :
    Decode.isHeld (levels + 2) edit.toJson = true := by
  cases edit <;>
    simp [toJson, Span.toJson, Json.ofMembers, Json.ofString, Json.ofNat, Decode.isHeld,
      Decode.membersAreHeld, isFinite_of_le h.1, isFinite_of_le h.2]

theorem Edit.decode_toJson {edit : Edit} (h : edit.Sized) (levels : Nat) :
    Edit.decode (levels + 2) edit.toJson = some edit := by
  have hheld := Edit.isHeld_toJson h levels
  cases edit <;>
    rw [Edit.decode, Edit.toJson, tagged_ofMembers rfl (by simp) _ hheld,
      record_ofMembers (by simp) (by simp)] <;>
    simp [Fields.required, List.lookup_cons, Span.decode_toJson h, decode_ofString]

theorem Fix.decode_toJson {fix : Fix} (h : ∀ edit ∈ fix.edits, edit.Sized) (levels : Nat) :
    Fix.decode (levels + 3) fix.toJson = some fix := by
  have hedits := mapM_map_eq_some_of_mem fun edit hedit => Edit.decode_toJson (h edit hedit) levels
  rw [Fix.decode, Fix.toJson, Decode.list, hedits]
  rfl

/-! ## Places -/

theorem NodeId.decode_ofNat {node : NodeId} (h : node.Sized) (levels : Nat) :
    NodeId.decode levels (.ofNat node.index) = some node := by
  rw [NodeId.decode, TreeLint.decode_ofNat h]
  rfl

theorem Location.decode_toJson {l : Location} (h : l.Sized) (levels : Nat) :
    Location.decode (levels + 1) l.toJson = some l := by
  rw [Location.decode, Location.toJson, record_ofMembers (by simp) (by simp)]
  simp [Fields.required, List.lookup_cons, decode_ofString, decode_ofNat h.line,
    decode_ofNat h.column, decode_ofNat h.offset, decode_ofNat h.length]

/-! ## Findings and failures -/

theorem decode_severityName (levels : Nat) (severity : Severity) :
    Decode.choice Severity.byName levels (.ofString severity.name) = some severity := by
  cases severity <;> rfl

/-- The members of the object of `d`, present or not: `help` and `fix` may be absent. -/
theorem Diagnostic.toJson_eq (d : Diagnostic) : d.toJson = presentMembers
    [("code", some (.ofString d.code)), ("rule", some (.ofString d.rule)),
     ("severity", some (.ofString d.severity.name)), ("anchor", some (.ofNat d.anchor.index)),
     ("location", some d.location.toJson), ("message", some (.ofString d.message)),
     ("help", d.help.map .ofString),
     ("fix", if d.fix.isEmpty then none else some d.fix.toJson)] := by
  unfold toJson
  cases d.help <;> cases d.fix.isEmpty <;> rfl

theorem Diagnostic.decode_toJson {d : Diagnostic} (h : d.Sized) (levels : Nat) :
    Diagnostic.decode (levels + 4) d.toJson = some d := by
  have hhelp := nullable_map (decode_ofString (levels + 3)) (fun s => by simp [Json.ofString]) d.help
  have hfix : ((if d.fix.isEmpty then none else some d.fix.toJson).map
      (Fix.decode (levels + 3))).getD (some {}) = some d.fix :=
    getD_unlessDefault (Fix.decode_toJson h.edits levels) fun hempty =>
      congrArg Fix.mk (List.isEmpty_iff.mp hempty)
  rw [Diagnostic.decode, Diagnostic.toJson_eq, record_present (by simp) (by simp)]
  simp [required_present, optional_present, withDefault_present, List.lookup_cons, decode_ofString,
    decode_severityName, NodeId.decode_ofNat h.anchor, Location.decode_toJson h.location, hfix,
    -Option.map_map, hhelp]

theorem FailureReason.decode_toJson (reason : FailureReason) (levels : Nat) :
    FailureReason.decode (levels + 1) reason.toJson = some reason := by
  cases reason <;>
    rw [FailureReason.decode, FailureReason.toJson, record_ofMembers (by simp) (by simp)] <;>
    rfl

theorem RuleFailure.decode_toJson {f : RuleFailure} (h : f.Sized) (levels : Nat) :
    RuleFailure.decode (levels + 2) f.toJson = some f := by
  rw [RuleFailure.decode, RuleFailure.toJson, record_ofMembers (by simp) (by simp)]
  simp [Fields.required, List.lookup_cons, decode_ofString, NodeId.decode_ofNat h.node,
    Location.decode_toJson h.location, FailureReason.decode_toJson]

/-! ## Results -/

namespace LintResult

theorem toJson_eq (r : LintResult) : r.toJson = presentMembers
    [("diagnostics", some (.array (r.diagnostics.map Diagnostic.toJson))),
     ("failures", if r.failures.isEmpty then none
       else some (.array (r.failures.map RuleFailure.toJson))),
     ("units_checked", some (.ofNat r.unitsChecked))] := by
  unfold toJson
  cases r.failures.isEmpty <;> rfl

theorem decode_toJson {r : LintResult} (h : r.Sized) (levels : Nat) :
    LintResult.decode (levels + 6) r.toJson = some r := by
  have hdiagnostics : Decode.list Diagnostic.decode (levels + 5)
      (.array (r.diagnostics.map Diagnostic.toJson)) = some r.diagnostics :=
    mapM_map_eq_some_of_mem fun d hd => Diagnostic.decode_toJson (h.diagnostics d hd) levels
  have hfailures : ((if r.failures.isEmpty then none
      else some (.array (r.failures.map RuleFailure.toJson))).map
        (Decode.list RuleFailure.decode (levels + 5))).getD (some []) = some r.failures :=
    getD_unlessDefault
      (mapM_map_eq_some_of_mem fun f hf => RuleFailure.decode_toJson (h.failures f hf) (levels + 2))
      List.isEmpty_iff.mp
  rw [LintResult.decode, toJson_eq, record_present (by simp) (by simp)]
  simp [required_present, withDefault_present, List.lookup_cons, hdiagnostics,
    -List.isEmpty_iff, hfailures, decode_ofNat h.unitsChecked]

end LintResult

/-! ## Texts -/

theorem Span.plain_toJson (span : Span) : span.toJson.Plain :=
  Json.plain_ofMembers (by simp [Json.ofNat, Json.Plain])

theorem Edit.plain_toJson (edit : Edit) : edit.toJson.Plain := by
  cases edit <;>
    exact Json.plain_ofMembers (by simp [Json.ofString, Json.Plain, Span.plain_toJson])

theorem Fix.plain_toJson (fix : Fix) : fix.toJson.Plain := by
  rw [Fix.toJson, Json.Plain, Json.plainItems_iff, List.forall_mem_map]
  exact fun edit _ => edit.plain_toJson

theorem Location.plain_toJson (l : Location) : l.toJson.Plain :=
  Json.plain_ofMembers (by simp [Json.ofString, Json.ofNat, Json.Plain])

theorem Diagnostic.plain_toJson (d : Diagnostic) : d.toJson.Plain := by
  rw [Diagnostic.toJson_eq]
  refine plain_presentMembers ?_
  simp [Json.ofString, Json.ofNat, Json.Plain, Location.plain_toJson, Fix.plain_toJson]

theorem RuleFailure.plain_toJson (f : RuleFailure) : f.toJson.Plain := by
  have hreason : f.reason.toJson.Plain := by
    cases f.reason <;> exact Json.plain_ofMembers (by simp [Json.ofString, Json.Plain])
  exact Json.plain_ofMembers
    (by simp [Json.ofString, Json.ofNat, Json.Plain, Location.plain_toJson, hreason])

namespace LintResult

theorem plain_toJson (r : LintResult) : r.toJson.Plain := by
  rw [toJson_eq]
  refine plain_presentMembers ?_
  simp [Json.ofNat, Json.Plain, Json.plainItems_iff, Diagnostic.plain_toJson,
    RuleFailure.plain_toJson]

/-- **A result is read back.** If `r` is `Sized`, `parse?` returns it from its text on one line,
`r.toJson.compact`, and from the document that is written when results are asked for as JSON,
`r.render .json`. -/
theorem parse?_of_sized {r : LintResult} (h : r.Sized) :
    parse? r.toJson.compact = some r ∧ parse? (r.render .json) = some r := by
  have hdecode : decode Decode.maxDepth r.toJson = some r := decode_toJson h 121
  constructor
  · rw [parse?, Decode.text?, Json.parse?_compact r.plain_toJson, Option.bind_some, hdecode]
  · rw [render, renderJson, parse?, Decode.text?, Json.parse?_pretty r.plain_toJson,
      Option.bind_some, hdecode]

/-- A result with edits that overlap and stand in no order, texts that are escaped, an empty `help`
and the largest numbers. -/
def extremeResult : LintResult where
  diagnostics := [
    { code := "SF001", rule := "quotes \" and \\ back", severity := .error, anchor := ⟨0xFFFFFFFF⟩
      location := ⟨"dir/\u00e9\x01.java", 0xFFFFFFFFFFFFFFFF, 1, 0, 3⟩, message := "two\nlines\x7f"
      help := some ""
      fix := ⟨[.replace ⟨9, 4⟩ "\x08", .delete ⟨0, 0xFFFFFFFFFFFFFFFF⟩,
        .insertBefore ⟨5, 2⟩ "😀"]⟩ },
    { code := "", rule := "", severity := .info, anchor := ⟨0⟩, location := ⟨"", 0, 0, 0, 0⟩
      message := "" }]
  failures := [⟨"rule", ⟨7⟩, ⟨"A.java", 1, 2, 3, 4⟩, .invariant "no callee"⟩,
    ⟨"rule", ⟨8⟩, ⟨"A.java", 5, 6, 7, 8⟩, .breakdown "\t"⟩]
  unitsChecked := 0xFFFFFFFFFFFFFFFF

theorem parse?_extremeResult : extremeResult.Sized ∧
    parse? extremeResult.toJson.compact = some extremeResult ∧
    parse? (extremeResult.render .json) = some extremeResult := by
  have hsized : extremeResult.Sized := by
    simp [extremeResult, sized_iff, Diagnostic.sized_iff, RuleFailure.sized_iff,
      Location.sized_iff, NodeId.Sized, Edit.Sized, Span.Sized, Decode.maxWord, Decode.maxIndex]
  exact ⟨hsized, parse?_of_sized hsized⟩

end LintResult

end TreeLint
