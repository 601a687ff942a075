import TreeLint.Proofs.Analysis.Accounting
import TreeLint.Proofs.Text.Lines
import TreeLint.Proofs.Tree.Nesting

/-!
# The line of a diagnostic

A diagnostic has the line that `Tree.lineColumn` gives the beginning of its node, and an allow
directive is looked for on that line as `Text.lines` counts. Both mean the same text.

- `boundary_offset`: a diagnostic begins between characters.
- `lineAt?_eq_some_iff`: the line under the number of an offset is the one that the offset is on.
- `Tree.lineColumn_lines_of_finished`: the two numberings over the source of a tree.
-/

namespace TreeLint

/-- The line under the number `l` of an offset `o` is the one that `o` is on. -/
theorem lineAt?_eq_some_iff {text line : List Char} {o l c : Nat} (ho : Text.Boundary text o)
    (hlc : Text.lineColumn text o = (l, c)) :
    lineAt? text l = some line ↔ Text.LineFrom text (o - (c - 1)) line := by
  obtain ⟨hl, -, -⟩ := Text.lineColumn_pos ho hlc
  rw [lineAt?, if_neg (Nat.pos_iff_ne_zero.mp hl), Text.getElem?_lines_eq_some_iff ho hlc]

/-- A diagnostic `d` begins between characters, and has the line and the column of that place. -/
theorem boundary_offset {tree : Tree} (htree : tree.Sound) (hnested : tree.Nested)
    {types : TypeTable} {registry : Registry} {d : Diagnostic}
    (hd : d ∈ (scan tree types registry).diagnostics) :
    Text.Boundary tree.source.toList d.location.offset ∧
      tree.lineColumn d.location.offset = (d.location.line, d.location.column) := by
  obtain ⟨node, rule, -, -, hanswer, -⟩ := exists_found_of_mem htree hd
  obtain ⟨description, -, hanchor, -, rfl⟩ := found_iff.mp hanswer
  obtain ⟨-, -, hstart, -⟩ := Span.fits_iff.mp (hnested.fits hanchor)
  exact ⟨hstart, rfl⟩

/-- **Two numberings.** Later offsets `o'` of a source have later lines, or later columns of one
line. The line with the number `l` of an offset `o` is the text around `o`, from as many bytes
before it as the column `c` says to the end of the line, unless `o` is the end of a source of whole
lines. So a `directive` for a diagnostic `d` is looked for on the line where `d` begins. -/
theorem Tree.lineColumn_lines_of_finished (tree : Tree) (hfinished : tree.Finished) :
    (∀ o o', Text.Boundary tree.source.toList o → Text.Boundary tree.source.toList o' → o < o' →
      Prod.Lex (· < ·) (· < ·) (tree.lineColumn o) (tree.lineColumn o')) ∧
    (∀ o l c, Text.Boundary tree.source.toList o → tree.lineColumn o = (l, c) →
      1 ≤ l ∧ 1 ≤ c ∧ c - 1 ≤ o ∧
      ((∃ line, (Text.lines tree.source.toList)[l - 1]? = some line ∧
          ∀ other, Text.LineFrom tree.source.toList (o - (c - 1)) other ↔ other = line) ∨
        o = Text.byteSize tree.source.toList ∧ c = 1 ∧
          l = (Text.lines tree.source.toList).length + 1)) ∧
    ∀ (types : TypeTable) (registry : Registry),
      ∀ d ∈ (scan tree types registry).diagnostics,
        Text.Boundary tree.source.toList d.location.offset ∧
        tree.lineColumn d.location.offset = (d.location.line, d.location.column) ∧
        (∀ (rule : Rule) (directive : AllowDirective),
          rule.DirectedAt tree.source.toList d.location.line directive ↔
            ∃ line, Text.LineFrom tree.source.toList
              (d.location.offset - (d.location.column - 1)) line ∧
                directiveFor? rule line = some directive) ∧
        ∀ (rule : Rule) (reason : Option String),
          allowance tree.source.toList d.location.line rule = .allowed reason ↔
            ∃ directive, rule.ExcusedAt tree.source.toList d.location.line directive ∧
              directive.reason = reason := by
  refine ⟨fun o o' ho ho' hlt => Text.lineColumn_lex_of_lt ho ho' hlt, fun o l c ho hlc => ?_,
    fun types registry d hd => ?_⟩
  · obtain ⟨hl, hc, hle⟩ := Text.lineColumn_pos ho hlc
    refine ⟨hl, hc, hle, ?_⟩
    cases hget : (Text.lines tree.source.toList)[l - 1]? with
    -- No line has the number: the offset is behind the last line break.
    | none => exact .inr (Text.eq_byteSize_of_getElem?_lines ho hlc hget)
    | some line =>
      refine .inl ⟨line, rfl, fun other => ?_⟩
      rw [← Text.getElem?_lines_eq_some_iff ho hlc, hget, Option.some.injEq, eq_comm]
  · obtain ⟨ho, hlc⟩ := boundary_offset hfinished.sound hfinished.nested hd
    refine ⟨ho, hlc, fun rule directive => ?_, fun rule reason => Rule.allowance_eq_allowed_iff⟩
    simp only [← Rule.bind_directiveFor?_eq_some_iff, Option.bind_eq_some_iff,
      lineAt?_eq_some_iff ho hlc]

/-- The statements of `allowedTree` are on a line each. The directive for the finding at the first
is on its own line, which is the text from byte `0` on. -/
theorem Tree.lineColumn_lines_of_finished_allowedTree :
    let flag := flagBelow "flag" "F1"
    let source := allowedTree.source.toList
    allowedTree.Finished ∧
      Prod.Lex (· < ·) (· < ·) (allowedTree.lineColumn 2) (allowedTree.lineColumn 24) ∧
      Text.LineFrom source 0 "a; // sift: allow(flag)".toList ∧
      ∃ d ∈ (scan allowedTree {} (.ofList [flag])).diagnostics,
        d.location.offset = 0 ∧
        flag.DirectedAt source d.location.line ⟨["flag"], none⟩ ∧
        ∃ directive, flag.ExcusedAt source d.location.line directive ∧ directive.reason = none := by
  intro flag source
  obtain ⟨hlex, hlines, hscan⟩ := lineColumn_lines_of_finished allowedTree finished_allowedTree
  have hboundary : ∀ o ∈ [2, 24], Text.Boundary source o := fun o ho =>
    Text.isBoundary_iff.mp (by revert o; decide)
  have hfrom : Text.LineFrom source 0 "a; // sift: allow(flag)".toList := by
    obtain ⟨-, -, -, ⟨line, hline, hfrom⟩ | ⟨hend, -⟩⟩ :=
      hlines 2 1 3 (hboundary 2 (by decide)) (by decide)
    · have hread : (Text.lines source)[0]? = some "a; // sift: allow(flag)".toList := by decide
      exact (hfrom _).mpr (Option.some.inj (hread.symm.trans hline))
    · exact absurd hend (by decide)
  have hfound : (scan allowedTree {} (.ofList [flag])).diagnostics.head?.map (·.location) =
      some (.ofSpan allowedTree ⟨0, 2⟩) := by cbv
  obtain ⟨d, hhead, hplace⟩ := Option.map_eq_some_iff.mp hfound
  have hd := List.mem_of_head? hhead
  obtain ⟨-, -, hdirected, hallowed⟩ := hscan {} (.ofList [flag]) d hd
  rw [hplace] at hdirected hallowed
  refine ⟨finished_allowedTree, hlex 2 24 (hboundary 2 (by decide)) (hboundary 24 (by decide))
    (by decide), hfrom, d, hd, ?_⟩
  rw [hplace]
  exact ⟨rfl, (hdirected flag _).mpr ⟨_, hfrom, by cbv⟩, (hallowed flag none).mp (by cbv)⟩

end TreeLint
