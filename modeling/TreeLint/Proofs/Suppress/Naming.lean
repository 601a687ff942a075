import TreeLint.Proofs.Rule.Registry
import TreeLint.Suppress.Decision

/-!
# What suppresses a finding of a rule

A key on a node and a key in a directive stand for a rule alike. The keys on the nodes come first,
and of two directives the one on the line before.

- `Rule.NamedBy`: the keys that stand for a rule.
- `Rule.MarkedAt`, `annotatedAbove?_isSome_iff`: a key on the way up from a node.
- `Rule.ExcusedAt`, `allowance_eq_allowed_iff`: the directive that counts for a line.
- `suppression?_cases`: how a finding is suppressed.
-/

namespace TreeLint

/-- The line of `source` with the number `line`, counted from one. -/
def lineAt? (source : List Char) (line : Nat) : Option (List Char) :=
  if line = 0 then none else (Text.lines source)[line - 1]?

/-- The line of `source` with the number `line` begins with a comment. -/
def CommentLineAt (source : List Char) (line : Nat) : Prop :=
  ∃ text, lineAt? source line = some text ∧ isCommentLine text = true

namespace Rule

variable {rule : Rule} {source : List Char} {line : Nat} {directive : AllowDirective}

/-- The `key` stands for `rule`: for every rule, or for this one by its name, its code or one of its
further keys. -/
def NamedBy (rule : Rule) (key : String) : Prop :=
  key = everyRule ∨ key = rule.name ∨ key = rule.code ∨ key ∈ rule.altNames

theorem namedIn_iff {keys : List String} :
    rule.namedIn keys = true ↔ ∃ key ∈ keys, rule.NamedBy key := by
  simp only [namedIn, List.any_eq_true, Bool.or_eq_true, beq_iff_eq, answersTo_iff, NamedBy]

/-! ## Keys on nodes -/

/-- A node at or above `anchor` has a key for the rule. -/
def MarkedAt (rule : Rule) (tree : Tree) (anchor : NodeId) : Prop :=
  ∃ id ∈ tree.ancestors anchor, ∃ node, tree.node? id = some node ∧
    ∃ key ∈ node.suppressions, rule.NamedBy key

theorem annotatedAbove?_isSome_iff {tree : Tree} {anchor : NodeId} :
    (annotatedAbove? tree anchor rule).isSome = true ↔ rule.MarkedAt tree anchor := by
  rw [annotatedAbove?, List.find?_isSome, MarkedAt]
  refine exists_congr fun id => and_congr_right fun _ => ?_
  cases tree.node? id with
  | none => simp
  | some node => simp [namedIn_iff]

/-! ## Directives -/

/-- The line has this `directive`, and a key of it stands for `rule`. -/
def DirectedAt (rule : Rule) (source : List Char) (line : Nat) (directive : AllowDirective) :
    Prop :=
  ∃ text, lineAt? source line = some text ∧ AllowDirective.ofLine? text = some directive ∧
    ∃ key ∈ directive.keys, rule.NamedBy key

/-- The `directive` counts for the line: it stands on the line `before`, which begins with a
comment, or, when none there counts, on the line itself. -/
inductive ExcusedAt (rule : Rule) (source : List Char) (line : Nat) (directive : AllowDirective) :
    Prop
  | before (hcomment : CommentLineAt source (line - 1))
      (h : rule.DirectedAt source (line - 1) directive)
  | beside (hbefore : CommentLineAt source (line - 1) →
        ∀ other, ¬ rule.DirectedAt source (line - 1) other)
      (h : rule.DirectedAt source line directive)

theorem directiveFor?_eq_some_iff {text : List Char} : directiveFor? rule text = some directive ↔
    AllowDirective.ofLine? text = some directive ∧ ∃ key ∈ directive.keys, rule.NamedBy key := by
  rw [directiveFor?, Option.filter_eq_some_iff, namedIn_iff]

/-- A line has one `directive`. -/
theorem DirectedAt.unique {directive' : AllowDirective} (h : rule.DirectedAt source line directive)
    (h' : rule.DirectedAt source line directive') : directive = directive' := by
  obtain ⟨text, htext, hline, -⟩ := h
  obtain ⟨text', htext', hline', -⟩ := h'
  obtain rfl := Option.some.inj (htext.symm.trans htext')
  exact Option.some.inj (hline.symm.trans hline')

/-- One `directive` counts for a line. -/
theorem ExcusedAt.unique {directive' : AllowDirective} (h : rule.ExcusedAt source line directive)
    (h' : rule.ExcusedAt source line directive') : directive = directive' := by
  cases h with
  | before hcomment h =>
    cases h' with
    | before _ h' => exact h.unique h'
    | beside hbefore => exact (hbefore hcomment _ h).elim
  | beside hbefore h =>
    cases h' with
    | before hcomment h' => exact (hbefore hcomment _ h').elim
    | beside _ h' => exact h.unique h'

theorem ExcusedAt.reason_eq_iff (h : rule.ExcusedAt source line directive)
    {reason : Option String} : directive.reason = reason ↔
      ∃ other, rule.ExcusedAt source line other ∧ other.reason = reason := by
  constructor
  · rintro rfl
    exact ⟨directive, h, rfl⟩
  · rintro ⟨other, hother, rfl⟩
    rw [h.unique hother]

theorem bind_directiveFor?_eq_some_iff : (lineAt? source line).bind (directiveFor? rule) =
    some directive ↔ rule.DirectedAt source line directive := by
  simp only [Option.bind_eq_some_iff, directiveFor?_eq_some_iff, DirectedAt]

theorem filter_bind_directiveFor?_eq_some_iff :
    ((lineAt? source line).filter isCommentLine).bind (directiveFor? rule) = some directive ↔
      CommentLineAt source line ∧ rule.DirectedAt source line directive := by
  simp only [Option.bind_eq_some_iff, Option.filter_eq_some_iff, directiveFor?_eq_some_iff]
  constructor
  · rintro ⟨text, ⟨htext, hcomment⟩, hdirective⟩
    exact ⟨⟨text, htext, hcomment⟩, text, htext, hdirective⟩
  · rintro ⟨⟨text, htext, hcomment⟩, text', htext', hdirective⟩
    obtain rfl := Option.some.inj (htext.symm.trans htext')
    exact ⟨text, ⟨htext, hcomment⟩, hdirective⟩

/-- The line before `line` comes first, and the directive that is found gives the reason. -/
theorem allowance_eq_elim : allowance source line rule =
    ((((lineAt? source (line - 1)).filter isCommentLine).bind (directiveFor? rule)).or
      ((lineAt? source line).bind (directiveFor? rule))).elim .denied (.allowed ·.reason) := by
  cases h : (((lineAt? source (line - 1)).filter isCommentLine).bind (directiveFor? rule)).or
    ((lineAt? source line).bind (directiveFor? rule)) <;>
  · simp only [lineAt?] at h
    simp only [allowance, h, Option.elim_some, Option.elim_none]

/-- The `rule` may be broken at a line exactly when a `directive` counts for it (`ExcusedAt`), for
the `reason` given there. -/
theorem allowance_eq_allowed_iff {reason : Option String} :
    allowance source line rule = .allowed reason ↔
      ∃ directive, rule.ExcusedAt source line directive ∧ directive.reason = reason := by
  rw [allowance_eq_elim]
  cases hbefore : ((lineAt? source (line - 1)).filter isCommentLine).bind (directiveFor? rule) with
  | some directive =>
    obtain ⟨hcomment, hdirected⟩ := filter_bind_directiveFor?_eq_some_iff.mp hbefore
    have hexcused : rule.ExcusedAt source line directive := .before hcomment hdirected
    simp only [Option.some_or, Option.elim_some, Allowance.allowed.injEq]
    exact hexcused.reason_eq_iff
  | none =>
    have hnone : CommentLineAt source (line - 1) →
        ∀ other, ¬ rule.DirectedAt source (line - 1) other := fun hcomment other hother => by
      rw [filter_bind_directiveFor?_eq_some_iff.mpr ⟨hcomment, hother⟩] at hbefore
      cases hbefore
    cases hbeside : (lineAt? source line).bind (directiveFor? rule) with
    | some directive =>
      have hexcused : rule.ExcusedAt source line directive :=
        .beside hnone (bind_directiveFor?_eq_some_iff.mp hbeside)
      simp only [Option.none_or, Option.elim_some, Allowance.allowed.injEq]
      exact hexcused.reason_eq_iff
    | none =>
      simp only [Option.none_or, Option.elim_none, reduceCtorEq, false_iff, not_exists, not_and]
      rintro other (⟨hcomment, hother⟩ | ⟨-, hother⟩) -
      · exact hnone hcomment other hother
      · rw [bind_directiveFor?_eq_some_iff.mpr hother] at hbeside
        cases hbeside

end Rule

/-! ## Findings -/

/-- How the finding `d` of `rule` is suppressed: by a key on a node, or else by a directive for its
line, or not at all. -/
theorem suppression?_cases (tree : Tree) (d : Diagnostic) (rule : Rule) :
    (rule.MarkedAt tree d.anchor ∧ ∃ node, suppression? tree d rule = some (.marked node)) ∨
    ¬ rule.MarkedAt tree d.anchor ∧
      ((∃ directive, rule.ExcusedAt tree.source.toList d.location.line directive ∧
        suppression? tree d rule = some (.directive directive.reason)) ∨
      (∀ directive, ¬ rule.ExcusedAt tree.source.toList d.location.line directive) ∧
        suppression? tree d rule = none) := by
  unfold suppression?
  cases habove : annotatedAbove? tree d.anchor rule with
  | some node =>
    exact .inl ⟨Rule.annotatedAbove?_isSome_iff.mp (by rw [habove]; rfl), node, rfl⟩
  | none =>
    refine .inr ⟨fun h => ?_, ?_⟩
    · rw [← Rule.annotatedAbove?_isSome_iff, habove] at h
      cases h
    cases hallowance : allowance tree.source.toList d.location.line rule with
    | allowed reason =>
      obtain ⟨directive, hexcused, rfl⟩ := Rule.allowance_eq_allowed_iff.mp hallowance
      exact .inl ⟨directive, hexcused, rfl⟩
    | denied =>
      refine .inr ⟨fun directive hexcused => ?_, rfl⟩
      rw [Rule.allowance_eq_allowed_iff.mpr ⟨directive, hexcused, rfl⟩] at hallowance
      cases hallowance

end TreeLint
