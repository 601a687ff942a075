import Mathlib.Data.List.Permutation
import TreeLint.Command.Check
import TreeLint.Proofs.Analysis.Accounting
import TreeLint.Proofs.Analysis.Documents
import TreeLint.Proofs.Unit.Rendering

/-!
# What a run makes of the source files

All sources are read before any is written, and the fixes of each unit are made in the source that
was read. When two documents name one file, both are counted as corrected, and the file holds what
was written last.

- `UnitReport.fixed`: the diagnostics that a run counts as fixed.
- `Mended`: a source with the edits of some diagnostics made.
- `sharing`, `fixing`: the units whose source one file holds, and those of them with fixes.
- `Settled`: what a run over some units makes of the file at a place.
- `correct_cases`, `settled_of_correctAll`: what one unit does to a disk, and what all of them do.
- `last_correction_stands`: what the source files hold after a check.
-/

namespace TreeLint

open Edit EditBuffer

/-- `text` is `source` with the edits of some diagnostics made, from left to right. -/
def Mended (source : String) (found : List Diagnostic) (text : String) : Prop :=
  ∃ edits : List Edit, edits.Perm (found.flatMap (·.fix.edits)) ∧
    edits.Pairwise (fun a b => a.span.Precedes b.span) ∧
    Splice 0 source.toList edits text.toList

theorem mended_nil (source : String) : Mended source [] source :=
  ⟨[], .refl _, .nil, .rest 0 _⟩

namespace UnitReport

variable {r : UnitReport} {mode : FixMode} {file text : String}

/-! ## Which diagnostics are fixed -/

/-- The diagnostics that `mode` counts as fixed: their edits are in a text that is `written`. -/
def fixed (r : UnitReport) (mode : FixMode) : List Diagnostic :=
  match r.correction mode with
  | .ok (.written _ _) => (r.accepted.filter Prod.snd).map Prod.fst
  | _ => []

theorem correction_document (r : UnitReport) (document : String) (mode : FixMode) :
    UnitReport.correction { r with document := document } mode = r.correction mode :=
  rfl

theorem fixed_document (r : UnitReport) (document : String) (mode : FixMode) :
    UnitReport.fixed { r with document := document } mode = r.fixed mode :=
  rfl

/-- Where the file stands on `disk` that holds the source of the unit, seen from `cwd`. -/
def place? (r : UnitReport) (disk : Disk) (cwd : Place) : Option Place :=
  r.unit.sourceFile.bind (disk.resolve? cwd)

/-- Writing to a `target` that is a file does not move the source of `r`. -/
theorem place?_put {disk : Disk} {target : Place} {content : ByteArray}
    (h : disk.isFile target = true) (cwd : Place) (r : UnitReport) :
    r.place? (disk.put target content) cwd = r.place? disk cwd := by
  simp only [place?, funext (Disk.resolve?_put h cwd)]

theorem map_fst_accepted (r : UnitReport) : r.accepted.map Prod.fst = r.diagnostics := by
  have hlength : r.diagnostics.length = r.merged.2.length := by
    rw [merged, length_offerAll, List.length_map]
  have hzip := List.map_fst_zip hlength.le
  rw [List.zip, List.map_zipWith] at hzip
  rw [accepted, List.map_zipWith]
  exact hzip

/-- Every diagnostic of `r` is in `fixed` or in `unfixed`. -/
theorem fixed_append_unfixed_perm (r : UnitReport) (mode : FixMode) :
    (r.fixed mode ++ r.unfixed mode).Perm r.diagnostics := by
  cases hcorrection : r.correction mode with
  | error e => simp [fixed, unfixed, hcorrection]
  | ok correction =>
    cases correction with
    | nothing => simp [fixed, unfixed, hcorrection]
    | shown text => simp [fixed, unfixed, hcorrection]
    | written file text =>
      simp only [fixed, unfixed, hcorrection]
      rw [← List.map_append, ← map_fst_accepted]
      exact (List.filter_append_perm Prod.snd r.accepted).map Prod.fst

/-- The fixes of the diagnostics `found` that were `taken` and have edits are the fixes that were
taken, less those without edits. -/
theorem map_fix_filter_zipWith (found : List Diagnostic) (taken : List Bool) :
    ((found.zipWith (fun d taken => (d, taken && !d.fix.isEmpty)) taken).filter Prod.snd).map
        (·.1.fix) =
      ((((found.map Diagnostic.fix).zip taken).filter Prod.snd).map Prod.fst).filter
        (!·.isEmpty) := by
  induction found generalizing taken with
  | nil => rfl
  | cons d found ih =>
    cases taken with
    | nil => rfl
    | cons answer taken => cases answer <;> cases h : d.fix.isEmpty <;> simp [h, ih taken]

/-- The diagnostics of `r` whose fixes were accepted and change something. -/
def taken (r : UnitReport) : List Diagnostic := (r.accepted.filter Prod.snd).map Prod.fst

/-- The buffer `r.merged` has the edits of the diagnostics `r.taken`. -/
theorem edits_taken (r : UnitReport) : r.taken.flatMap (·.fix.edits) = r.merged.1.edits := by
  have hfixes : r.taken.map Diagnostic.fix =
      (EditBuffer.accepted {} (r.diagnostics.map Diagnostic.fix)).filter (!·.isEmpty) := by
    rw [taken, List.map_map]
    exact map_fix_filter_zipWith r.diagnostics r.merged.2
  calc r.taken.flatMap (·.fix.edits)
      = editsOf (r.taken.map Diagnostic.fix) := (List.flatMap_map ..).symm
    _ = editsOf (EditBuffer.accepted {} (r.diagnostics.map Diagnostic.fix)) := by
      rw [hfixes, editsOf_filter]
    _ = r.merged.1.edits := by rw [merged, edits_offerAll, List.nil_append]

/-- Where a text is `written`, the diagnostics that count as fixed are `r.taken`. -/
theorem fixed_eq_taken (h : r.correction mode = .ok (.written file text)) :
    r.fixed mode = r.taken := by
  simp only [fixed, h]
  rfl

theorem edits_fixed (h : r.correction mode = .ok (.written file text)) :
    (r.fixed mode).flatMap (·.fix.edits) = r.merged.1.edits := by
  rw [fixed_eq_taken h, edits_taken]

theorem conflictFree_merged (hfree : ∀ d ∈ r.diagnostics, ConflictFree d.fix.edits) :
    ConflictFree r.merged.1.edits :=
  conflictFree_offerAll .nil fun fix hfix => by
    obtain ⟨d, hd, rfl⟩ := List.mem_map.mp hfix
    exact hfree d hd

/-- What `r.merged` makes of the source has the edits of `r.taken`, and no others. -/
theorem mended_of_apply (hfree : ∀ d ∈ r.diagnostics, ConflictFree d.fix.edits)
    (h : r.merged.1.apply r.unit.tree.source = .ok text) :
    Mended r.unit.tree.source r.taken text := by
  have hbuffer := conflictFree_merged hfree
  rcases apply_cases hbuffer r.unit.tree.source with
    ⟨-, result, hresult, hsplice⟩ | ⟨-, span, size, herror⟩
  · cases h.symm.trans hresult
    refine ⟨sortEdits r.merged.1.edits, ?_, (before_sortEdits hbuffer).imp Before.precedes,
      (hsplice _).mpr (by simp)⟩
    rw [edits_taken]
    exact sortEdits_perm _
  · cases h.symm.trans herror

/-- What a run that writes does about the fixes of `r`: nothing, a text for its file, or it
fails. -/
theorem correction_cases (r : UnitReport) :
    (r.correction .write = .ok .nothing ∧ r.fixed .write = []) ∨
    (∃ file text, r.correction .write = .ok (.written file text) ∧ r.fixed .write ≠ [] ∧
      r.unit.sourceFile = some file ∧ r.merged.1.apply r.unit.tree.source = .ok text) ∨
    ∃ e, r.correction .write = .error e := by
  by_cases hempty : r.merged.1.isEmpty = true
  · have hnothing : r.correction .write = .ok .nothing := by simp [correction, hempty]
    exact .inl ⟨hnothing, by simp [fixed, hnothing]⟩
  · cases happly : r.merged.1.apply r.unit.tree.source with
    | error e =>
      exact .inr (.inr ⟨.badFixes r.unit.tree.path, by simp [correction, hempty, happly]⟩)
    | ok text =>
      cases hfile : r.unit.sourceFile with
      | none =>
        have hnothing : r.correction .write = .ok .nothing := by
          simp [correction, hempty, happly, hfile]
        exact .inl ⟨hnothing, by simp [fixed, hnothing]⟩
      | some file =>
        have hwritten : r.correction .write = .ok (.written file text) := by
          simp [correction, hempty, happly, hfile]
        refine .inr (.inl ⟨file, text, hwritten, fun hnone => hempty ?_, rfl, rfl⟩)
        rw [EditBuffer.isEmpty, ← edits_fixed hwritten, hnone]
        rfl

/-- The `text` that is written has the edits of the diagnostics that count as fixed, and no
others. -/
theorem mended_of_written (hfree : ∀ d ∈ r.diagnostics, ConflictFree d.fix.edits)
    (h : r.correction .write = .ok (.written file text)) :
    Mended r.unit.tree.source (r.fixed .write) text := by
  rcases r.correction_cases with
    ⟨hnothing, -⟩ | ⟨file', text', hwritten, -, -, happly⟩ | ⟨e, herror⟩
  · cases h.symm.trans hnothing
  · cases h.symm.trans hwritten
    rw [fixed_eq_taken h]
    exact mended_of_apply hfree happly
  · cases h.symm.trans herror

end UnitReport

/-! ## Units that share a file -/

section

variable {disk : Disk} {cwd place : Place} {reports back : List UnitReport} {last : UnitReport}

/-- The units among `reports` whose source is in the file at `place`. -/
def sharing (disk : Disk) (cwd place : Place) (reports : List UnitReport) : List UnitReport :=
  reports.filter fun r => r.place? disk cwd = some place

/-- The units `sharing` the file at `place` in which a diagnostic counts as fixed. -/
def fixing (disk : Disk) (cwd place : Place) (reports : List UnitReport) : List UnitReport :=
  (sharing disk cwd place reports).filter fun r => !(r.fixed .write).isEmpty

theorem flatMap_fixing (disk : Disk) (cwd place : Place) (reports : List UnitReport) :
    (fixing disk cwd place reports).flatMap (·.fixed .write) =
      (sharing disk cwd place reports).flatMap (·.fixed .write) := by
  rw [fixing]
  induction sharing disk cwd place reports with
  | nil => rfl
  | cons r reports ih => cases h : r.fixed .write <;> simp [h, ih]

theorem fixing_eq_nil
    (h : ∀ r ∈ reports, r.place? disk cwd = some place → r.fixed .write = []) :
    fixing disk cwd place reports = [] := by
  rw [fixing, List.filter_eq_nil_iff]
  intro r hr
  obtain ⟨hmem, hplace⟩ := List.mem_filter.mp hr
  simp [h r hmem (of_decide_eq_true hplace)]

theorem fixing_append_cons (front : List UnitReport) (hlast : last.place? disk cwd = some place)
    (hfixed : last.fixed .write ≠ [])
    (hback : ∀ r ∈ back, r.place? disk cwd = some place → r.fixed .write = []) :
    fixing disk cwd place (front ++ last :: back) = fixing disk cwd place front ++ [last] := by
  have hnil := fixing_eq_nil hback
  rw [fixing, sharing] at hnil ⊢
  simp [fixing, sharing, List.filter_append, hlast, hfixed, hnil]

end

namespace Command

variable {cwd place : Place} {e e' : Effects} {r : UnitReport} {reports : List UnitReport}

/-! ## The disk -/

/-- One unit `r` leaves the disk as it is, or puts its `text` into the file that holds its
source. -/
theorem correct_cases (h : e.correct cwd .write r = .ok e') :
    (r.fixed .write = [] ∧ e' = e) ∨
    ∃ file text place, r.correction .write = .ok (.written file text) ∧ r.fixed .write ≠ [] ∧
      r.place? e.disk cwd = some place ∧ e' = { e with disk := e.disk.put place text.toUTF8 } := by
  rcases r.correction_cases with ⟨hnothing, hfixed⟩ | ⟨file, text, hwritten, hfixed, hfile, -⟩ |
    ⟨error, herror⟩
  · simp only [Effects.correct, hnothing, Except.ok.injEq] at h
    exact .inl ⟨hfixed, h.symm⟩
  · simp only [Effects.correct, hwritten] at h
    cases hwrite : e.disk.write? cwd file text with
    | none => simp [hwrite] at h
    | some disk =>
      simp only [hwrite, Except.ok.injEq] at h
      obtain ⟨place, hplace, -, -, rfl⟩ := Disk.write?_eq_some_iff.mp hwrite
      have htarget : r.place? e.disk cwd = some place := by
        rw [UnitReport.place?, hfile]
        exact hplace
      exact .inr ⟨file, text, place, hwritten, hfixed, htarget, h.symm⟩
  · simp [Effects.correct, herror] at h

/-- What a run over some units, from `disk` to `disk'`, makes of the file at `place`. -/
inductive Settled (disk disk' : Disk) (cwd place : Place) : List UnitReport → Prop
  /-- No unit has fixes for the file at `place`, and it is as before. -/
  | kept {reports : List UnitReport}
      (hnone : ∀ r ∈ reports, r.place? disk cwd = some place → r.fixed .write = [])
      (hfile : disk'.file? place = disk.file? place) : Settled disk disk' cwd place reports
  /-- The file holds the `text` that the `last` unit with fixes for it put there. -/
  | written (front : List UnitReport) {last : UnitReport} {back : List UnitReport}
      {file text : String} (hlast : last.place? disk cwd = some place)
      (hwritten : last.correction .write = .ok (.written file text))
      (hfixed : last.fixed .write ≠ [])
      (hback : ∀ r ∈ back, r.place? disk cwd = some place → r.fixed .write = [])
      (hput : disk'.file? place = some text.toUTF8) :
      Settled disk disk' cwd place (front ++ last :: back)

section

variable {disk disk' : Disk} {target : Place} {file text : String}

/-- A unit `r` without fixes changes nothing. -/
theorem Settled.cons_kept (hr : r.fixed .write = []) (h : Settled disk disk' cwd place reports) :
    Settled disk disk' cwd place (r :: reports) := by
  cases h with
  | kept hnone hfile => exact .kept (List.forall_mem_cons.mpr ⟨fun _ => hr, hnone⟩) hfile
  | written front hlast hwritten hfixed hback hput =>
    exact .written (r :: front) hlast hwritten hfixed hback hput

/-- A unit `r` with fixes puts its `text` at `target`, and the units behind it may replace that. -/
theorem Settled.cons_put (hexists : disk.isFile target = true)
    (htarget : r.place? disk cwd = some target)
    (hwritten : r.correction .write = .ok (.written file text)) (hfixed : r.fixed .write ≠ [])
    (h : Settled (disk.put target text.toUTF8) disk' cwd place reports) :
    Settled disk disk' cwd place (r :: reports) := by
  cases h with
  | kept hnone hfile =>
    simp only [UnitReport.place?_put hexists] at hnone
    by_cases hplace : place = target
    · subst hplace
      exact .written [] htarget hwritten hfixed hnone (hfile.trans (Disk.file?_put_self ..))
    · refine .kept (List.forall_mem_cons.mpr ⟨fun h => ?_, hnone⟩)
        (hfile.trans (Disk.file?_put_of_ne hplace))
      exact absurd (Option.some.inj (h.symm.trans htarget)) hplace
  | written front hlast hwritten' hfixed' hback hput =>
    simp only [UnitReport.place?_put hexists] at hlast hback
    exact .written (r :: front) hlast hwritten' hfixed' hback hput

end

/-- A whole run settles every place. The files that hold the sources exist (`hexists`), so no path
leads elsewhere during the run. -/
theorem settled_of_correctAll
    (hexists : ∀ r ∈ reports, ∀ place, r.place? e.disk cwd = some place →
      e.disk.isFile place = true)
    (hrun : correctAll cwd .write e reports = (e', none)) :
    (∀ path, e'.disk.resolve? cwd path = e.disk.resolve? cwd path) ∧
    ∀ place, Settled e.disk e'.disk cwd place reports := by
  induction reports generalizing e with
  | nil =>
    obtain ⟨rfl, -⟩ := Prod.mk.inj hrun
    exact ⟨fun _ => rfl, fun _ => .kept nofun rfl⟩
  | cons r reports ih =>
    rw [correctAll] at hrun
    cases hstep : e.correct cwd .write r with
    | error error => simp [hstep] at hrun
    | ok next =>
      rw [hstep] at hrun
      have hbehind := (List.forall_mem_cons.mp hexists).2
      rcases correct_cases hstep with
        ⟨hfixed, rfl⟩ | ⟨file, text, target, hwritten, hfixed, htarget, rfl⟩
      · obtain ⟨hresolve, hsettled⟩ := ih hbehind hrun
        exact ⟨hresolve, fun place => (hsettled place).cons_kept hfixed⟩
      · have htargets : e.disk.isFile target = true := hexists r List.mem_cons_self target htarget
        obtain ⟨hresolve, hsettled⟩ := ih (fun r' hr' place hplace => Disk.isFile_put
          (hbehind r' hr' place (UnitReport.place?_put htargets cwd r' ▸ hplace))) hrun
        exact ⟨fun path => (hresolve path).trans (Disk.resolve?_put htargets cwd path),
          fun place => (hsettled place).cons_put htargets htarget hwritten hfixed⟩

/-- What a run leaves at the `place` of the source of `r`, if the files hold the sources when it
starts (`hread`): the fixes of the last of the units `fixing` the file are made in the text that was
read. -/
theorem mended_of_correctAll {content : ByteArray}
    (hread : ∀ r ∈ reports, ∀ place, r.place? e.disk cwd = some place →
      ∃ content, e.disk.file? place = some content ∧
        String.fromUTF8? content = some r.unit.tree.source)
    (hfree : ∀ r ∈ reports, ∀ d ∈ r.diagnostics, ConflictFree d.fix.edits)
    (hrun : correctAll cwd .write e reports = (e', none))
    (hcontent : e.disk.file? place = some content)
    (htext : String.fromUTF8? content = some r.unit.tree.source) :
    (∀ path, e'.disk.resolve? cwd path = e.disk.resolve? cwd path) ∧
    ∃ content' text, e'.disk.file? place = some content' ∧ String.fromUTF8? content' = some text ∧
      Mended r.unit.tree.source
        (((fixing e.disk cwd place reports).getLast?.map (·.fixed .write)).getD []) text := by
  have hexists : ∀ r ∈ reports, ∀ place, r.place? e.disk cwd = some place →
      e.disk.isFile place = true := fun r hr place hplace => by
    obtain ⟨content, hcontent, -⟩ := hread r hr place hplace
    rw [Disk.isFile, hcontent, Option.isSome_some]
  obtain ⟨hresolve, hsettled⟩ := settled_of_correctAll hexists hrun
  refine ⟨hresolve, ?_⟩
  cases hsettled place with
  | kept hnone hkept =>
    refine ⟨content, r.unit.tree.source, hkept.trans hcontent, htext, ?_⟩
    rw [fixing_eq_nil hnone]
    exact mended_nil _
  | @written front last back file text hlast hwritten hfixed hback hput =>
    have hmem : last ∈ front ++ last :: back := List.mem_append_right _ List.mem_cons_self
    have hsame : last.unit.tree.source = r.unit.tree.source := by
      obtain ⟨content', hcontent', htext'⟩ := hread last hmem place hlast
      obtain rfl := Option.some.inj (hcontent'.symm.trans hcontent)
      exact Option.some.inj (htext'.symm.trans htext)
    refine ⟨_, text, hput, Disk.fromUTF8?_toUTF8 text, ?_⟩
    rw [fixing_append_cons front hlast hfixed hback, List.getLast?_concat, ← hsame]
    exact UnitReport.mended_of_written (hfree last hmem) hwritten

/-! ## A check -/

/-- What is known of a report `r` of a run: no fix has a conflict, and the source of its unit was
read from the `file` that the unit names. -/
theorem facts_of_reports {analyzer : Analyzer} {disk : Disk} {own : IgnoreFile}
    (h : analyzer.reports disk cwd own = .ok reports) (hr : r ∈ reports) :
    (∀ d ∈ r.diagnostics, ConflictFree d.fix.edits) ∧
    ∀ file, r.unit.sourceFile = some file →
      disk.readText? cwd file = some r.unit.tree.source := by
  obtain ⟨names, unit, hload, rfl⟩ := Analyzer.reports_of_mem h hr
  obtain ⟨hfinished, hsource⟩ := SourceUnit.source_of_load hload
  exact ⟨fun d hd => conflictFree_of_mem_analyzeUnit hfinished hd, hsource⟩

/-- A check that writes corrections (`hmode`) and ends without an error (`hdone`) has corrected all
units. -/
theorem exists_correctAll_of_check {m : Machine} {o : CheckOptions} {analyzer : Analyzer}
    (hanalyzer : analyzerFor m o = .ok analyzer)
    (hreports : analyzer.reports m.disk m.cwd (ownIgnoreFile m) = .ok reports)
    (hmode : o.fixMode = .write) (hdone : (check m o).error = none) :
    ∃ e, correctAll m.cwd .write ⟨m.disk, (Analyzer.result reports).render o.format⟩ reports =
      (e, none) ∧ (check m o).disk = e.disk := by
  simp only [check, hanalyzer, hreports, settle, hmode] at hdone ⊢
  split at hdone
  · cases hdone
  · rename_i e hrun
    exact ⟨e, hrun, rfl⟩

/-- **The last correction stands.** After a check that writes corrections (`hmode`) and ends without
an error (`hdone`), every diagnostic is in `fixed` or in `unfixed`. The file of a loaded document
holds the text that was read, `Mended` by the edits that count as fixed for the last of the
documents `fixing` this file. If no other document has fixes for it, these are the edits of all
diagnostics that count as fixed in it. -/
theorem last_correction_stands (m : Machine) (o : CheckOptions) {analyzer : Analyzer}
    (hanalyzer : analyzerFor m o = .ok analyzer)
    (hreports : analyzer.reports m.disk m.cwd (ownIgnoreFile m) = .ok reports)
    (hmode : o.fixMode = .write) (hdone : (check m o).error = none) :
    (∀ r ∈ reports, (r.fixed .write ++ r.unfixed .write).Perm r.diagnostics) ∧
    ∀ r ∈ reports, ∀ file, r.unit.sourceFile = some file →
      ∃ place text, m.disk.resolve? m.cwd file = some place ∧
        m.disk.readText? m.cwd file = some r.unit.tree.source ∧
        (check m o).disk.readText? m.cwd file = some text ∧
        let sharing := sharing m.disk m.cwd place reports
        let fixing := fixing m.disk m.cwd place reports
        Mended r.unit.tree.source ((fixing.getLast?.map (·.fixed .write)).getD []) text ∧
        (fixing.length ≤ 1 →
          Mended r.unit.tree.source (sharing.flatMap (·.fixed .write)) text) := by
  refine ⟨fun r _ => r.fixed_append_unfixed_perm .write, fun r hr file hfile => ?_⟩
  obtain ⟨e, hrun, hdisk⟩ := exists_correctAll_of_check hanalyzer hreports hmode hdone
  have hfacts := fun r hr => facts_of_reports (r := r) hreports hr
  have hread : ∀ r ∈ reports, ∀ place, r.place? m.disk m.cwd = some place →
      ∃ content, m.disk.file? place = some content ∧
        String.fromUTF8? content = some r.unit.tree.source := by
    intro r hr place hplace
    obtain ⟨file, hfile, hresolve⟩ := Option.bind_eq_some_iff.mp hplace
    obtain ⟨place', content, hplace', hcontent, htext⟩ :=
      Disk.readText?_eq_some_iff.mp ((hfacts r hr).2 file hfile)
    obtain rfl := Option.some.inj (hresolve.symm.trans hplace')
    exact ⟨content, hcontent, htext⟩
  obtain ⟨place, content, hplace, hcontent, htext⟩ :=
    Disk.readText?_eq_some_iff.mp ((hfacts r hr).2 file hfile)
  obtain ⟨hresolve, content', text, hcontent', htext', hmended⟩ :=
    mended_of_correctAll hread (fun r hr => (hfacts r hr).1) hrun hcontent htext
  refine ⟨place, text, hplace, (hfacts r hr).2 file hfile, ?_, hmended, fun hone => ?_⟩
  -- The run ends with the disk of `correctAll`, where the file is `Mended`.
  · rw [hdisk, Disk.readText?_eq_some_iff]
    exact ⟨place, content', (hresolve file).trans hplace, hcontent', htext'⟩
  · rw [← flatMap_fixing]
    -- With one fixing unit at most, the fixes of all are those of the last.
    cases hfixing : fixing m.disk m.cwd place reports with
    | nil => simpa [hfixing] using hmended
    | cons last rest =>
      rw [hfixing, List.length_cons] at hone
      obtain rfl : rest = [] := List.length_eq_zero_iff.mp (by omega)
      simpa [hfixing] using hmended

/-! ## Two documents over one file -/

/-- A statement of nine bytes from `start` on that calls a method of the string variable `name` and
drops the result. -/
def trimStatement (start : Nat) (name : String) : NodeDocument where
  kind := .expressionStatement
  range := ⟨start, start + 9⟩
  children := [
    { kind := .methodInvocation, range := ⟨start, start + 8⟩
      children := [
        { kind := .memberSelect, range := ⟨start, start + 6⟩, name := some "trim"
          binding := some
            { kind := .method, owner := some "java.lang.String"
              returns := some "java.lang.String" }
          children := [
            { kind := .identifier, range := ⟨start, start + 1⟩, name := some name
              binding := some { kind := .localVariable, type := some "java.lang.String" } }] }] }]

/-- A document that names `A.java` as the file of its source and knows one statement of it. -/
def trimDocument (start : Nat) (name : String) : UnitDocument where
  path := "A.java"
  sourcePath := some "A.java"
  types := [{ name := "java.lang.String" }]
  root :=
    { kind := .compilationUnit, range := ⟨0, 20⟩, children := [trimStatement start name] }

/-- The source of the statements at `0` and at `10`. -/
def sharedText : String := "s.trim();\nt.trim();\n"

/-- A file with `sharedText`, and a document for each of its statements. -/
def sharedMachine : Machine where
  disk := ⟨[(["A.java"], .file sharedText.toUTF8),
    (["One.sift.json"], .file (trimDocument 0 "s").render.toUTF8),
    (["Two.sift.json"], .file (trimDocument 10 "t").render.toUTF8)]⟩

/-- The options of `check --fix` in the current folder. -/
def fixHere : CheckOptions := { fixMode := .write }

/-- The analyser of a check with the options `fixHere` where no configuration is found. -/
def plainAnalyzer : Analyzer where
  root := "."
  registry := .ofList ((Preset.ofConfig {}).configuredRules {})
  exclude := ["**/target/**", "**/build/**"].filterMap Glob.ofText?
  patterns := [defaultPattern].filterMap Glob.ofText?
  config := {}
  parallelism := none
  failOnUnitError := false

theorem analyzerFor_sharedMachine : analyzerFor sharedMachine fixHere = .ok plainAnalyzer := by
  have hnone : sharedMachine.configFile? "." none = none := by decide +kernel
  have hexclude :
      ["**/target/**", "**/build/**"].mapM Glob.ofText? = some plainAnalyzer.exclude := by cbv
  have hpatterns : [defaultPattern].mapM Glob.ofText? = some plainAnalyzer.patterns := by cbv
  have hchosen : [[], [defaultPattern], [defaultPattern]].find? (!·.isEmpty) =
      some [defaultPattern] := rfl
  simp only [analyzerFor, fixHere, Machine.loadConfig, hnone, AnalyzerOptions.build,
    AnalyzerSettings.default, List.nil_append, hexclude, hchosen, Option.getD_some, hpatterns]
  rfl

/-- The unit of `trimDocument start name` over `sharedText`. -/
def trimUnit (start : Nat) (name : String) : SourceUnit :=
  let built := ((trimDocument start name).build sharedText).toOption.getD default
  { tree := built.1, types := built.2, sourceFile := some "/A.java" }

/-- The report on it, when `names` lead to the document. -/
def trimReport (start : Nat) (name : String) (names : Place) : UnitReport :=
  { plainAnalyzer.report (trimUnit start name) with document := plainAnalyzer.pathOf [] names }

/-- The report on `One.sift.json`. -/
def firstReport : UnitReport := trimReport 0 "s" ["One.sift.json"]

/-- The report on `Two.sift.json`. -/
def lastReport : UnitReport := trimReport 10 "t" ["Two.sift.json"]

theorem resolve?_sharedMachine :
    sharedMachine.disk.resolve? sharedMachine.cwd "/A.java" = some ["A.java"] := by
  decide +kernel

theorem readText?_sharedMachine :
    sharedMachine.disk.readText? sharedMachine.cwd "/A.java" = some sharedText :=
  Disk.readText?_eq_some_iff.mpr
    ⟨["A.java"], _, resolve?_sharedMachine, rfl, Disk.fromUTF8?_toUTF8 sharedText⟩

theorem parse?_trimDocument {start : Nat} (hstart : start ≤ 10) (name : String) :
    UnitDocument.parse? (trimDocument start name).render = some (trimDocument start name) := by
  have hheight : (trimDocument start name).root.height ≤ 63 := by
    simp [trimDocument, trimStatement, NodeDocument.height, NodeDocument.heightAll]
  rw [UnitDocument.parse?_render, if_pos hheight]
  simp [trimDocument, trimStatement, NodeDocument.preorder, NodeDocument.preorderAll,
    NodeDocument.Bounded, Decode.maxWord]
  omega

theorem build_trimDocument {start : Nat} {name : String}
    (h : ((trimDocument start name).build sharedText).isOk = true) :
    (trimDocument start name).build sharedText =
      .ok ((trimUnit start name).tree, (trimUnit start name).types) := by
  simp only [trimUnit]
  cases hbuild : (trimDocument start name).build sharedText with
  | ok built => rfl
  | error e => simp [hbuild, Except.isOk, Except.toBool] at h

theorem reports_trimDocument {start : Nat} {name : String} {names : Place} (hstart : start ≤ 10)
    (hfolder : Path.directory? (plainAnalyzer.pathOf [] names) = some "/")
    (hresolve : sharedMachine.disk.resolve? [] (plainAnalyzer.pathOf [] names) = some names)
    (hfile : sharedMachine.disk.file? names = some (trimDocument start name).render.toUTF8)
    (hbuild : ((trimDocument start name).build sharedText).isOk = true) :
    plainAnalyzer.load sharedMachine.disk [] names = .ok (trimReport start name names) := by
  have hread : sharedMachine.disk.readText? [] (plainAnalyzer.pathOf [] names) =
      some (trimDocument start name).render :=
    Disk.readText?_eq_some_iff.mpr ⟨names, _, hresolve, hfile, Disk.fromUTF8?_toUTF8 _⟩
  have hsource : sharedMachine.disk.readText? [] "/A.java" = some sharedText :=
    readText?_sharedMachine
  have hjoin : Path.join "/" "A.java" = "/A.java" := by decide
  have hnone : (trimDocument start name).source = none := rfl
  have hpath : (trimDocument start name).sourcePath = some "A.java" := rfl
  refine Analyzer.load_eq_ok_iff.mpr ⟨trimUnit start name, ?_, rfl⟩
  simp only [SourceUnit.load, hread, hfolder, Option.getD_some, SourceUnit.ofText,
    parse?_trimDocument hstart name, hnone, hpath, hsource, build_trimDocument hbuild, bind,
    Except.bind, hjoin]
  have hnamed : (trimUnit start name).sourceFile = some "/A.java" := rfl
  generalize trimUnit start name = unit at hnamed
  rw [← hnamed]

theorem reports_sharedMachine :
    plainAnalyzer.reports sharedMachine.disk sharedMachine.cwd (ownIgnoreFile sharedMachine) =
      .ok [firstReport, lastReport] := by
  have hfiles : plainAnalyzer.files? sharedMachine.disk [] =
      some [["A.java"], ["One.sift.json"], ["Two.sift.json"]] := by decide +kernel
  have hselected : [["A.java"], ["One.sift.json"], ["Two.sift.json"]].filter
      (fun names => plainAnalyzer.selects (Place.relative names)) =
      [["One.sift.json"], ["Two.sift.json"]] := by decide +kernel
  have hdocuments : plainAnalyzer.documents [["A.java"], ["One.sift.json"], ["Two.sift.json"]] =
      [["One.sift.json"], ["Two.sift.json"]] := by
    rw [Analyzer.documents, hselected]
    exact List.mergeSort_of_pairwise (by decide)
  have hfirst : plainAnalyzer.load sharedMachine.disk [] ["One.sift.json"] = .ok firstReport :=
    reports_trimDocument (by decide) (by decide +kernel) (by decide +kernel) rfl (by cbv)
  have hlast : plainAnalyzer.load sharedMachine.disk [] ["Two.sift.json"] = .ok lastReport :=
    reports_trimDocument (by decide) (by decide +kernel) (by decide +kernel) rfl (by cbv)
  have hloadable : plainAnalyzer.loadable sharedMachine.disk []
      [["A.java"], ["One.sift.json"], ["Two.sift.json"]] = [firstReport, lastReport] := by
    rw [Analyzer.loadable, hdocuments, List.map_cons, List.map_cons, List.map_nil, hfirst, hlast]
    exact filterMap_toOption_map_ok [_, _]
  have hreports : plainAnalyzer.reports sharedMachine.disk [] = plainAnalyzer.reportsOn
      sharedMachine.disk [] [["A.java"], ["One.sift.json"], ["Two.sift.json"]] := by
    rw [Analyzer.reports, hfiles]
  calc plainAnalyzer.reports sharedMachine.disk sharedMachine.cwd (ownIgnoreFile sharedMachine)
      = plainAnalyzer.reports sharedMachine.disk [] := rfl
    _ = .ok [firstReport, lastReport] := by
      rw [hreports, ← hloadable]
      exact Analyzer.reportsOn_of_lenient (by decide) (by decide) rfl

set_option maxRecDepth 4000 in
theorem correction_trimUnit :
    (plainAnalyzer.report (trimUnit 0 "s")).correction .write =
        .ok (.written "/A.java" "s = s.trim();\nt.trim();\n") ∧
      (plainAnalyzer.report (trimUnit 10 "t")).correction .write =
        .ok (.written "/A.java" "s.trim();\nt = t.trim();\n") :=
  ⟨by cbv, by cbv⟩

set_option maxRecDepth 4000 in
theorem edits_trimUnit :
    ((plainAnalyzer.report (trimUnit 0 "s")).fixed .write).map (·.fix.edits) =
        [[.insertBefore ⟨0, 8⟩ "s = "]] ∧
      ((plainAnalyzer.report (trimUnit 10 "t")).fixed .write).map (·.fix.edits) =
        [[.insertBefore ⟨10, 18⟩ "t = "]] :=
  ⟨by cbv, by cbv⟩

/-- In `firstReport` and in `lastReport` the one statement of each is corrected in the text that was
read, and counted. -/
theorem corrections_sharedMachine :
    firstReport.correction .write = .ok (.written "/A.java" "s = s.trim();\nt.trim();\n") ∧
      lastReport.correction .write = .ok (.written "/A.java" "s.trim();\nt = t.trim();\n") ∧
      (firstReport.fixed .write).map (·.fix.edits) = [[.insertBefore ⟨0, 8⟩ "s = "]] ∧
      (lastReport.fixed .write).map (·.fix.edits) = [[.insertBefore ⟨10, 18⟩ "t = "]] := by
  simp only [firstReport, lastReport, trimReport, UnitReport.correction_document,
    UnitReport.fixed_document]
  exact ⟨correction_trimUnit.1, correction_trimUnit.2, edits_trimUnit⟩

/-- The second correction takes the place of the first in `A.java`. -/
theorem check_sharedMachine :
    (check sharedMachine fixHere).error = none ∧
      (check sharedMachine fixHere).disk.readText? sharedMachine.cwd "/A.java" =
        some "s.trim();\nt = t.trim();\n" := by
  obtain ⟨hfirst, hlast, -⟩ := corrections_sharedMachine
  have hsource := resolve?_sharedMachine
  have hfile : sharedMachine.disk.isFile ["A.java"] = true := rfl
  have hplain : sharedMachine.disk.isFolder ["A.java"] = false := by decide +kernel
  have hwriteFirst (text : String) : sharedMachine.disk.write? sharedMachine.cwd "/A.java" text =
      some (sharedMachine.disk.put ["A.java"] text.toUTF8) :=
    Disk.write?_eq_some_iff.mpr ⟨_, hsource, hplain, rfl, rfl⟩
  have hwriteLast (content : ByteArray) (text : String) :
      (sharedMachine.disk.put ["A.java"] content).write? sharedMachine.cwd "/A.java" text =
        some ((sharedMachine.disk.put ["A.java"] content).put ["A.java"] text.toUTF8) :=
    Disk.write?_eq_some_iff.mpr ⟨_, (Disk.resolve?_put hfile ..).trans hsource,
      (Disk.isFolder_put hfile _).trans hplain, rfl, rfl⟩
  have hmode : fixHere.fixMode = .write := rfl
  simp only [check, analyzerFor_sharedMachine, reports_sharedMachine, settle, hmode, correctAll,
    Effects.correct, hfirst, hlast, hwriteFirst, hwriteLast]
  refine ⟨trivial, Disk.readText?_eq_some_iff.mpr ⟨["A.java"], _, ?_, Disk.file?_put_self .., ?_⟩⟩
  · rw [Disk.resolve?_put (Disk.isFile_put hfile), Disk.resolve?_put hfile, hsource]
  · exact Disk.fromUTF8?_toUTF8 _

theorem last_correction_stands_sharedMachine :
    analyzerFor sharedMachine fixHere = .ok plainAnalyzer ∧
      plainAnalyzer.reports sharedMachine.disk sharedMachine.cwd (ownIgnoreFile sharedMachine) =
        .ok [firstReport, lastReport] ∧
      fixHere.fixMode = .write ∧ (check sharedMachine fixHere).error = none ∧
      ∃ text, (check sharedMachine fixHere).disk.readText? sharedMachine.cwd "/A.java" = some text ∧
        Mended sharedText (lastReport.fixed .write) text := by
  obtain ⟨hdone, -⟩ := check_sharedMachine
  obtain ⟨-, -, -, hedits⟩ := corrections_sharedMachine
  refine ⟨analyzerFor_sharedMachine, reports_sharedMachine, rfl, hdone, ?_⟩
  obtain ⟨-, hfiles⟩ := last_correction_stands sharedMachine fixHere analyzerFor_sharedMachine
    reports_sharedMachine rfl hdone
  obtain ⟨place, text, hplace, hread, htext, hmended, -⟩ :=
    hfiles firstReport List.mem_cons_self "/A.java" rfl
  obtain rfl := Option.some.inj (hplace.symm.trans resolve?_sharedMachine)
  have hlast : lastReport.place? sharedMachine.disk sharedMachine.cwd = some ["A.java"] :=
    resolve?_sharedMachine
  have hfixed : lastReport.fixed .write ≠ [] := fun hnone => by simp [hnone] at hedits
  have hfixing : fixing sharedMachine.disk sharedMachine.cwd ["A.java"] [firstReport, lastReport] =
      fixing sharedMachine.disk sharedMachine.cwd ["A.java"] [firstReport] ++ [lastReport] :=
    fixing_append_cons [firstReport] hlast hfixed fun r hr => absurd hr List.not_mem_nil
  rw [hfixing, List.getLast?_concat] at hmended
  have hsource := Option.some.inj (hread.symm.trans readText?_sharedMachine)
  exact ⟨text, htext, hsource ▸ hmended⟩

/-- Two documents over one file both count their corrections, and the file does not hold those of
`firstReport` and `lastReport` together. -/
theorem not_all_corrections_stand :
    analyzerFor sharedMachine fixHere = .ok plainAnalyzer ∧
      plainAnalyzer.reports sharedMachine.disk sharedMachine.cwd (ownIgnoreFile sharedMachine) =
        .ok [firstReport, lastReport] ∧
      fixHere.fixMode = .write ∧ (check sharedMachine fixHere).error = none ∧
      sharing sharedMachine.disk sharedMachine.cwd ["A.java"] [firstReport, lastReport] =
        [firstReport, lastReport] ∧
      sharedMachine.disk.readText? sharedMachine.cwd "/A.java" = some sharedText ∧
      ∀ text, (check sharedMachine fixHere).disk.readText? sharedMachine.cwd "/A.java" = some text →
        ¬ Mended sharedText (firstReport.fixed .write ++ lastReport.fixed .write) text := by
  obtain ⟨hdone, hfinal⟩ := check_sharedMachine
  obtain ⟨-, -, hfirst, hlast⟩ := corrections_sharedMachine
  have hsharing :
      sharing sharedMachine.disk sharedMachine.cwd ["A.java"] [firstReport, lastReport] =
        [firstReport, lastReport] := by
    refine List.filter_eq_self.mpr fun r hr => decide_eq_true ?_
    rcases List.mem_pair.mp hr with rfl | rfl <;> exact resolve?_sharedMachine
  refine ⟨analyzerFor_sharedMachine, reports_sharedMachine, rfl, hdone, hsharing,
    readText?_sharedMachine, ?_⟩
  rintro text htext ⟨edits, hperm, hordered, hsplice⟩
  obtain rfl := Option.some.inj (hfinal.symm.trans htext)
  rw [List.flatMap_append, List.flatMap_def, List.flatMap_def, hfirst, hlast] at hperm
  rcases List.perm_pair.mp hperm with rfl | rfl
  · -- In their order, the two insertions give another text.
    have hboth : ({ edits := [.insertBefore ⟨0, 8⟩ "s = ", .insertBefore ⟨10, 18⟩ "t = "] } :
        EditBuffer).apply sharedText = .ok "s = s.trim();\nt = t.trim();\n" := by cbv
    have hsorted : sortEdits [.insertBefore ⟨0, 8⟩ "s = ", .insertBefore ⟨10, 18⟩ "t = "] =
        [.insertBefore ⟨0, 8⟩ "s = ", .insertBefore ⟨10, 18⟩ "t = "] := by cbv
    have hfree : ConflictFree ({ edits := [.insertBefore ⟨0, 8⟩ "s = ",
        .insertBefore ⟨10, 18⟩ "t = "] } : EditBuffer).edits := by decide
    rcases apply_cases hfree sharedText with ⟨-, result, hresult, hiff⟩ | ⟨-, span, size, herror⟩
    · rw [hsorted] at hiff
      obtain rfl := (hiff _).mp hsplice
      exact absurd (hboth.symm.trans hresult) (by decide)
    · cases hboth.symm.trans herror
  · exact absurd (List.pairwise_pair.mp hordered) (by simp [Span.Precedes, Edit.span, Span.point])

end Command

end TreeLint
