import TreeLint.Command.Run
import TreeLint.Proofs.Command.Fixing
import TreeLint.Proofs.Command.Flags

/-!
# What a check leaves behind

The result of a check and the files that it writes are told by the reports alone: which diagnostics
are grave enough, and which of them count as fixed.

- `UnitReport.FixedAt`: a diagnostic counts as fixed. `unfixed_eq`: the others remain.
- `Failing`: a rule broke down, or a grave diagnostic is not fixed.
- `Disk.putAll`: some texts are written. `writes_of_correctAll`: which texts a run writes.
- `run_settles`: the result of a check, and what it changes.
-/

namespace TreeLint

open EditBuffer

/-! ## Writing several files -/

/-- The disk after `writes`: each text is put at its place, one after the other. -/
def Disk.putAll (disk : Disk) (writes : List (Place × String)) : Disk :=
  writes.foldl (fun disk write => disk.put write.1 write.2.toUTF8) disk

namespace UnitReport

variable {r : UnitReport} {mode : FixMode} {done : Correction} {d : Diagnostic} {i : Nat}

/-! ## Which diagnostics are fixed -/

/-- The buffer that was offered the fixes of the first `count` diagnostics, those without edits left
out. -/
def offered (r : UnitReport) (count : Nat) : EditBuffer :=
  (offerAll {} (((r.diagnostics.take count).map Diagnostic.fix).filter (!·.isEmpty))).1

/-- The diagnostic `d` at position `i` counts as fixed: `mode` is to write, the text of the unit is
that of a file, and the fix has edits, which the buffer that was `offered` those of the diagnostics
before accepts. -/
def FixedAt (r : UnitReport) (mode : FixMode) (i : Nat) (d : Diagnostic) : Prop :=
  mode = .write ∧ r.unit.sourceFile.isSome = true ∧ d.fix.isEmpty = false ∧
    (r.offered i).accepts d.fix = true

instance (r : UnitReport) (mode : FixMode) (i : Nat) (d : Diagnostic) :
    Decidable (r.FixedAt mode i d) :=
  inferInstanceAs (Decidable (_ ∧ _ ∧ _ ∧ _))

/-- Some diagnostic of the unit counts as fixed (`FixedAt`). -/
def HasFixed (r : UnitReport) (mode : FixMode) : Prop :=
  ∃ found ∈ r.diagnostics.zipIdx, r.FixedAt mode found.2 found.1

instance (r : UnitReport) (mode : FixMode) : Decidable (r.HasFixed mode) :=
  inferInstanceAs (Decidable (∃ found ∈ r.diagnostics.zipIdx, _))

theorem answer_eq {fixes : List Fix} {fix : Fix} (h : fixes[i]? = some fix) :
    (offerAll {} fixes).2[i]? = some ((offerAll {} (fixes.take i)).1.accepts fix) := by
  obtain ⟨hlt, rfl⟩ := List.getElem?_eq_some_iff.mp h
  have hsplit : fixes.take i ++ fixes[i] :: fixes.drop (i + 1) = fixes := by
    rw [List.cons_getElem_drop_succ, List.take_append_drop]
  have hcount : (fixes.take i).length = i := List.length_take_of_le hlt.le
  have hanswer := getElem?_offerAll {} (fixes.take i) (fixes.drop (i + 1)) fixes[i]
  rwa [hsplit, hcount] at hanswer

theorem accepted_eq (r : UnitReport) : r.accepted = r.diagnostics.zipIdx.map fun (d, i) =>
    (d, !d.fix.isEmpty && (r.offered i).accepts d.fix) := by
  refine List.ext_getElem? fun i => ?_
  rw [accepted, List.getElem?_zipWith, List.getElem?_map, List.getElem?_zipIdx]
  cases hd : r.diagnostics[i]? with
  | none => rfl
  | some d =>
    have hfix : (r.diagnostics.map Diagnostic.fix)[i]? = some d.fix := by simp [hd]
    have hanswer : r.merged.2[i]? = some ((r.offered i).accepts d.fix) := by
      rw [merged, answer_eq hfix, offered, offerAll_filter, List.map_take]
    simp [hanswer, Bool.and_comm]

/-- A text is written if `mode` is to write, the text of the unit is that of a file, and `r.merged`
has edits. -/
theorem isWritten_iff (h : r.correction mode = .ok done) : done.isWritten = true ↔
    mode = .write ∧ r.unit.sourceFile.isSome = true ∧ r.merged.1.isEmpty = false := by
  cases hempty : r.merged.1.isEmpty with
  | true =>
    simp only [correction, hempty, Bool.or_true, if_true, Except.ok.injEq] at h
    simp [← h, Correction.isWritten]
  | false =>
    cases mode with
    | off =>
      simp only [correction, decide_true, Bool.true_or, if_true, Except.ok.injEq] at h
      simp [← h, Correction.isWritten]
    | preview =>
      cases happly : r.merged.1.apply r.unit.tree.source with
      | error e => simp [correction, hempty, happly] at h
      | ok text =>
        simp only [correction, hempty, happly] at h
        simp [← Except.ok.inj h, Correction.isWritten]
    | write =>
      cases happly : r.merged.1.apply r.unit.tree.source with
      | error e => simp [correction, hempty, happly] at h
      | ok text =>
        cases hfile : r.unit.sourceFile with
        | none =>
          simp only [correction, hempty, happly, hfile] at h
          simp [← Except.ok.inj h, Correction.isWritten]
        | some file =>
          simp only [correction, hempty, happly, hfile] at h
          simp [← Except.ok.inj h, Correction.isWritten]

theorem unfixed_eq_ite (h : r.correction mode = .ok done) : r.unfixed mode =
    if done.isWritten then (r.accepted.filter fun answer => !answer.2).map Prod.fst
    else r.diagnostics := by
  cases done <;> simp [unfixed, h, Correction.isWritten]

theorem fixed_eq_ite (h : r.correction mode = .ok done) : r.fixed mode =
    if done.isWritten then r.taken else [] := by
  cases done <;> simp [fixed, h, Correction.isWritten, taken]

/-- The fix of `d`, at position `i`, fills the buffer if it is accepted and has edits. -/
theorem isEmpty_merged (hd : r.diagnostics[i]? = some d) (hfix : d.fix.isEmpty = false)
    (haccepts : (r.offered i).accepts d.fix = true) : r.merged.1.isEmpty = false := by
  have hmem : (d, true) ∈ r.accepted := by
    rw [accepted_eq]
    refine List.mem_map.mpr ⟨(d, i), List.mem_zipIdx_iff_getElem?.mpr hd, ?_⟩
    simp [hfix, haccepts]
  have htaken : d ∈ r.taken := List.mem_map.mpr ⟨_, List.mem_filter.mpr ⟨hmem, rfl⟩, rfl⟩
  rw [EditBuffer.isEmpty, ← edits_taken]
  obtain ⟨e, he⟩ := List.exists_mem_of_ne_nil d.fix.edits (by simpa [Fix.isEmpty] using hfix)
  simpa using ⟨d, htaken, List.ne_nil_of_mem he⟩

/-- Once the corrections `done` of a unit are made, `d` counts as fixed exactly if its fix has
edits, was accepted and is in a text that is written. -/
theorem fixedAt_iff (h : r.correction mode = .ok done) (hd : r.diagnostics[i]? = some d) :
    r.FixedAt mode i d ↔
      done.isWritten = true ∧ (!d.fix.isEmpty && (r.offered i).accepts d.fix) = true := by
  rw [FixedAt, isWritten_iff h, Bool.and_eq_true, Bool.not_eq_true']
  exact ⟨fun ⟨hmode, hfile, hfix, haccepts⟩ =>
      ⟨⟨hmode, hfile, isEmpty_merged hd hfix haccepts⟩, hfix, haccepts⟩,
    fun ⟨⟨hmode, hfile, _⟩, hfix, haccepts⟩ => ⟨hmode, hfile, hfix, haccepts⟩⟩

/-- The diagnostics that remain, `r.unfixed mode`, are those that are not `FixedAt` their
position. -/
theorem unfixed_eq (h : r.correction mode = .ok done) : r.unfixed mode =
    (r.diagnostics.zipIdx.filter fun (d, i) => ¬ r.FixedAt mode i d).map Prod.fst := by
  have hfilter : (r.diagnostics.zipIdx.filter fun (d, i) => ¬ r.FixedAt mode i d) =
      r.diagnostics.zipIdx.filter fun (d, i) =>
        !(done.isWritten && (!d.fix.isEmpty && (r.offered i).accepts d.fix)) := by
    refine List.filter_congr fun (d, i) hmem => ?_
    rw [Bool.eq_iff_iff, decide_eq_true_iff,
      fixedAt_iff h (List.mem_zipIdx_iff_getElem?.mp hmem), ← Bool.and_eq_true, Bool.not_eq_true,
      Bool.not_eq_true']
  rw [hfilter, unfixed_eq_ite h]
  cases done.isWritten with
  | false => simp
  | true => simp [accepted_eq, List.filter_map, Function.comp_def]

/-- The diagnostics counted by `r.fixed mode` are those that are `FixedAt` their position. -/
theorem fixed_eq (h : r.correction mode = .ok done) : r.fixed mode =
    (r.diagnostics.zipIdx.filter fun (d, i) => r.FixedAt mode i d).map Prod.fst := by
  have hfilter : (r.diagnostics.zipIdx.filter fun (d, i) => r.FixedAt mode i d) =
      r.diagnostics.zipIdx.filter fun (d, i) =>
        done.isWritten && (!d.fix.isEmpty && (r.offered i).accepts d.fix) := by
    refine List.filter_congr fun (d, i) hmem => ?_
    rw [Bool.eq_iff_iff, decide_eq_true_iff,
      fixedAt_iff h (List.mem_zipIdx_iff_getElem?.mp hmem), ← Bool.and_eq_true]
  rw [hfilter, fixed_eq_ite h]
  cases done.isWritten with
  | false => simp
  | true => simp [taken, accepted_eq, List.filter_map, Function.comp_def]

theorem hasFixed_iff (h : r.correction mode = .ok done) :
    r.HasFixed mode ↔ r.fixed mode ≠ [] := by
  rw [fixed_eq h, ne_eq, List.map_eq_nil_iff, List.filter_eq_nil_iff, HasFixed]
  push Not
  exact exists_congr fun found => and_congr_right fun _ => (decide_eq_true_iff).symm

theorem HasFixed.write (h : r.HasFixed mode) : mode = .write := by
  obtain ⟨_, _, hmode, _⟩ := h
  exact hmode

end UnitReport

namespace Command

variable {cwd place : Place} {e e' : Effects} {mode : FixMode} {r : UnitReport}
  {reports : List UnitReport}

/-! ## The disk -/

/-- A `write` puts at the place of the source of `r` that source with the accepted edits made. -/
def Writes (disk : Disk) (cwd : Place) (r : UnitReport) (write : Place × String) : Prop :=
  r.place? disk cwd = some write.1 ∧ r.merged.1.apply r.unit.tree.source = .ok write.2

theorem correction_of_correct (h : e.correct cwd mode r = .ok e') :
    ∃ done, r.correction mode = .ok done := by
  cases hcorrection : r.correction mode with
  | ok done => exact ⟨done, rfl⟩
  | error err => simp [Effects.correct, hcorrection] at h

theorem disk_of_correct (hmode : mode ≠ .write) (h : e.correct cwd mode r = .ok e') :
    e'.disk = e.disk := by
  obtain ⟨done, hdone⟩ := correction_of_correct h
  have hwritten : ¬ done.isWritten = true := fun hwritten =>
    hmode ((UnitReport.isWritten_iff hdone).mp hwritten).1
  cases done with
  | nothing =>
    simp only [Effects.correct, hdone, Except.ok.injEq] at h
    rw [h]
  | shown text =>
    simp only [Effects.correct, hdone, Except.ok.injEq] at h
    rw [← h]
  | written file text => exact absurd rfl hwritten

/-- One unit leaves the disk as it is, or writes its text, if a diagnostic of it counts as fixed
(`HasFixed`). -/
theorem settle_cases (h : e.correct cwd mode r = .ok e') :
    (¬ r.HasFixed mode ∧ e'.disk = e.disk) ∨
    (r.HasFixed mode ∧ ∃ write, Writes e.disk cwd r write ∧
      e'.disk = e.disk.put write.1 write.2.toUTF8) := by
  obtain ⟨done, hdone⟩ := correction_of_correct h
  by_cases hmode : mode = .write
  · subst hmode
    rw [UnitReport.hasFixed_iff hdone]
    rcases correct_cases h with
      ⟨hnone, rfl⟩ | ⟨file, text, place, hwritten, hfixed, hplace, rfl⟩
    · exact .inl ⟨by simpa using hnone, rfl⟩
    · refine .inr ⟨hfixed, (place, text), ⟨hplace, ?_⟩, rfl⟩
      rcases r.correction_cases with
        ⟨hnothing, -⟩ | ⟨file', text', hwritten', -, -, happly⟩ | ⟨err, herror⟩
      · cases hwritten.symm.trans hnothing
      · cases hwritten.symm.trans hwritten'
        exact happly
      · cases hwritten.symm.trans herror
  · exact .inl ⟨fun hfixed => hmode hfixed.write, disk_of_correct hmode h⟩

theorem Writes.congr {disk : Disk} {target : Place} {content : ByteArray} {write : Place × String}
    (hexists : disk.isFile target = true) (h : Writes (disk.put target content) cwd r write) :
    Writes disk cwd r write :=
  ⟨(UnitReport.place?_put hexists cwd r).symm.trans h.1, h.2⟩

/-- A run writes the texts of the units that have fixed diagnostics. The files that hold the sources
exist (`hexists`), so no path leads elsewhere during the run. -/
theorem writes_of_correctAll
    (hexists : ∀ r ∈ reports, ∀ place, r.place? e.disk cwd = some place →
      e.disk.isFile place = true)
    (hrun : correctAll cwd mode e reports = (e', none)) :
    (∀ r ∈ reports, ∃ done, r.correction mode = .ok done) ∧
    ∃ writes, List.Forall₂ (Writes e.disk cwd) (reports.filter fun r => r.HasFixed mode) writes ∧
      e'.disk = e.disk.putAll writes := by
  induction reports generalizing e with
  | nil =>
    obtain ⟨rfl, -⟩ := Prod.mk.inj hrun
    exact ⟨nofun, [], .nil, rfl⟩
  | cons r reports ih =>
    rw [correctAll] at hrun
    cases hstep : e.correct cwd mode r with
    | error error => simp [hstep] at hrun
    | ok next =>
      rw [hstep] at hrun
      obtain ⟨hfirst, hbehind⟩ := List.forall_mem_cons.mp hexists
      rcases settle_cases hstep with ⟨hnone, hdisk⟩ | ⟨hfixed, write, hwrites, hdisk⟩
      · obtain ⟨hdone, writes, hwrites, hfinal⟩ := ih (by rwa [hdisk]) hrun
        rw [hdisk] at hwrites hfinal
        exact ⟨List.forall_mem_cons.mpr ⟨correction_of_correct hstep, hdone⟩, writes,
          by simpa [hnone] using hwrites, hfinal⟩
      -- What is written goes to a file that exists, so the places of the other units stay where
      -- they were.
      · have htarget : e.disk.isFile write.1 = true := hfirst _ hwrites.1
        have hbehind' : ∀ r ∈ reports, ∀ place, r.place? next.disk cwd = some place →
            next.disk.isFile place = true := by
          intro r hr place hplace
          rw [hdisk, UnitReport.place?_put htarget] at hplace
          rw [hdisk]
          exact Disk.isFile_put (hbehind r hr place hplace)
        obtain ⟨hdone, writes, hrest, hfinal⟩ := ih hbehind' hrun
        rw [hdisk] at hrest hfinal
        refine ⟨List.forall_mem_cons.mpr ⟨correction_of_correct hstep, hdone⟩, write :: writes,
          ?_, hfinal⟩
        simpa [hfixed] using ⟨hwrites, hrest.imp fun _ _ => Writes.congr htarget⟩

/-- A `place` where no source of these units stands is as before. -/
theorem lookup_putAll {disk disk' : Disk} {writes : List (Place × String)}
    (h : List.Forall₂ (Writes disk cwd) reports writes)
    (hplace : ∀ r ∈ reports, r.place? disk cwd ≠ some place) :
    (disk'.putAll writes).entries.lookup place = disk'.entries.lookup place := by
  induction h generalizing disk' with
  | nil => rfl
  | @cons r write reports writes hwrite _ ih =>
    obtain ⟨hfirst, hbehind⟩ := List.forall_mem_cons.mp hplace
    have hne : place ≠ write.1 := fun heq => hfirst (heq ▸ hwrite.1)
    calc (disk'.putAll (write :: writes)).entries.lookup place
        = (disk'.put write.1 write.2.toUTF8).entries.lookup place := ih hbehind
      _ = disk'.entries.lookup place := Disk.lookup_set_of_ne hne _

/-! ## A check -/

/-- A rule broke down, or a diagnostic at least as grave as `threshold` is not `FixedAt` its
position. -/
def Failing (reports : List UnitReport) (mode : FixMode) (threshold : Severity) : Prop :=
  ∃ r ∈ reports, r.failures ≠ [] ∨ ∃ i d, r.diagnostics[i]? = some d ∧
    d.severity.atLeast threshold = true ∧ ¬ r.FixedAt mode i d

theorem isFailure_iff {threshold : Severity}
    (hdone : ∀ r ∈ reports, ∃ done, r.correction mode = .ok done) :
    isFailure reports mode threshold = true ↔ Failing reports mode threshold := by
  rw [isFailure, List.any_eq_true]
  refine exists_congr fun r => and_congr_right fun hr => ?_
  obtain ⟨done, hdone⟩ := hdone r hr
  have hremaining : 0 < r.remaining mode threshold ↔ ∃ i d, r.diagnostics[i]? = some d ∧
      d.severity.atLeast threshold = true ∧ ¬ r.FixedAt mode i d := by
    rw [UnitReport.remaining, List.countP_pos_iff, UnitReport.unfixed_eq hdone]
    simp only [List.mem_map, List.mem_filter, List.mem_zipIdx_iff_getElem?, Prod.exists,
      decide_eq_true_iff]
    constructor
    · rintro ⟨_, ⟨d, i, ⟨hd, hnot⟩, rfl⟩, hgrave⟩
      exact ⟨i, d, hd, hgrave, hnot⟩
    · rintro ⟨i, d, hd, hgrave, hnot⟩
      exact ⟨d, ⟨d, i, ⟨hd, hnot⟩, rfl⟩, hgrave⟩
  rw [Bool.or_eq_true, decide_eq_true_iff, hremaining, Bool.not_eq_true', List.isEmpty_eq_false_iff]

/-- The `place` of the source of a loaded unit `r` is that of a file. -/
theorem isFile_of_reports {analyzer : Analyzer} {disk : Disk} {own : IgnoreFile}
    (h : analyzer.reports disk cwd own = .ok reports) (hr : r ∈ reports)
    (hplace : r.place? disk cwd = some place) : disk.isFile place = true := by
  obtain ⟨file, hfile, hresolve⟩ := Option.bind_eq_some_iff.mp hplace
  obtain ⟨place', content, hplace', hcontent, -⟩ :=
    Disk.readText?_eq_some_iff.mp ((facts_of_reports h hr).2 file hfile)
  obtain rfl := Option.some.inj (hresolve.symm.trans hplace')
  rw [Disk.isFile, hcontent, Option.isSome_some]

/-- A check that ends without an error (`hdone`) has corrected all units, and fails if `isFailure`
says so of its `reports`. -/
theorem exists_effects_of_check {m : Machine} {o : CheckOptions} {analyzer : Analyzer}
    (hanalyzer : analyzerFor m o = .ok analyzer)
    (hreports : analyzer.reports m.disk m.cwd (ownIgnoreFile m) = .ok reports)
    (hdone : (check m o).error = none) :
    ∃ e, correctAll m.cwd o.fixMode ⟨m.disk, (Analyzer.result reports).render o.format⟩ reports =
        (e, none) ∧
      check m o =
        ⟨e, none, if isFailure reports o.fixMode analyzer.config.threshold then 1 else 0⟩ := by
  simp only [check, hanalyzer, hreports, settle] at hdone ⊢
  split at hdone
  · cases hdone
  · rename_i e hrun
    exact ⟨e, hrun, rfl⟩

/-- **A check settles.** Let the command line `args` ask for a check (`hrequest`) that loads its
configuration (`hanalyzer`), analyses the documents (`hreports`) and makes its corrections without
an error (`hdone`). Corrections are written if `--fix` is given without `--dry-run`. A diagnostic is
then `FixedAt` its position if the text of its unit was read from a file that the document names,
and its fix has edits and is accepted by the buffer that was offered the fixes of the unit before
it. All other diagnostics remain (`unfixed`). The result is one if the run is `Failing`, and zero
otherwise. In whatever form the findings are written, the `writes` are those of the units that have
fixed diagnostics, and no other place of the disk changes. -/
theorem run_settles (m : Machine) (args : List String) {o : CheckOptions} {analyzer : Analyzer}
    (hrequest : Request.ofArguments args m.environment = .ok (.check o))
    (hanalyzer : analyzerFor m o = .ok analyzer)
    (hreports : analyzer.reports m.disk m.cwd (ownIgnoreFile m) = .ok reports)
    (hdone : (run m args).error = none) :
    (o.fixMode = .write ↔ Given "fix" args ∧ ¬ Given "dry-run" args) ∧
    (∀ r ∈ reports,
      (∃ text doc, m.disk.readText? m.cwd r.document = some text ∧
        UnitDocument.parse? text = some doc ∧
        r.unit.sourceFile = if doc.source.isSome then none
          else doc.sourcePath.map (Path.join ((Path.directory? r.document).getD ""))) ∧
      (∀ file, r.unit.sourceFile = some file →
        m.disk.readText? m.cwd file = some r.unit.tree.source) ∧
      r.unfixed o.fixMode =
        (r.diagnostics.zipIdx.filter fun (d, i) => ¬ r.FixedAt o.fixMode i d).map Prod.fst) ∧
    ((run m args).code = 1 ↔ Failing reports o.fixMode analyzer.config.threshold) ∧
    ((run m args).code = 0 ↔ ¬ Failing reports o.fixMode analyzer.config.threshold) ∧
    (∃ writes, List.Forall₂ (Writes m.disk m.cwd)
        (reports.filter fun r => r.HasFixed o.fixMode) writes ∧
      (run m args).disk = m.disk.putAll writes) ∧
    (∀ place, (∀ r ∈ reports, r.HasFixed o.fixMode → r.place? m.disk m.cwd ≠ some place) →
      (run m args).disk.entries.lookup place = m.disk.entries.lookup place) ∧
    (o.fixMode ≠ .write → (run m args).disk = m.disk) := by
  have hcheck : run m args = check m o := by simp only [run, hrequest, perform]
  obtain ⟨hboth, hmode⟩ := fixMode_of_arguments hrequest
  obtain ⟨e, hrun, hsettle⟩ := exists_effects_of_check hanalyzer hreports (hcheck ▸ hdone)
  obtain ⟨hcorrected, writes, hwrites, hdisk⟩ :=
    writes_of_correctAll (fun r hr place => isFile_of_reports hreports hr) hrun
  have hfailing : isFailure reports o.fixMode analyzer.config.threshold = true ↔
      Failing reports o.fixMode analyzer.config.threshold := isFailure_iff hcorrected
  rw [hcheck, hsettle]
  refine ⟨?_, fun r hr => ⟨?_, (facts_of_reports hreports hr).2, ?_⟩, ?_, ?_,
    ⟨writes, hwrites, hdisk⟩, fun place hplace => ?_, fun hnot => ?_⟩
  · rw [hmode]
    by_cases hdry : Given "dry-run" args <;> by_cases hfix : Given "fix" args <;>
      simp [hdry, hfix]
  · obtain ⟨names, unit, hload, rfl⟩ := Analyzer.reports_of_mem hreports hr
    exact SourceUnit.sourceFile_of_load hload
  · obtain ⟨done, hdone⟩ := hcorrected r hr
    exact UnitReport.unfixed_eq hdone
  · by_cases hfail : isFailure reports o.fixMode analyzer.config.threshold = true <;>
      simp [← hfailing, hfail]
  · by_cases hfail : isFailure reports o.fixMode analyzer.config.threshold = true <;>
      simp [← hfailing, hfail]
  · refine hdisk ▸ lookup_putAll hwrites fun r hr => ?_
    obtain ⟨hr, hfixed⟩ := List.mem_filter.mp hr
    exact hplace r hr (of_decide_eq_true hfixed)
  · -- Only in write mode does a unit have fixed diagnostics, so nothing is written here.
    have hnone : (reports.filter fun r => r.HasFixed o.fixMode) = [] :=
      List.filter_eq_nil_iff.mpr fun r _ hfixed => hnot (of_decide_eq_true hfixed).write
    rw [hnone] at hwrites
    cases hwrites
    exact hdisk

/-- Both documents over the one file of `sharedMachine` have a diagnostic that counts as fixed, so
the file is written twice. -/
theorem run_settles_sharedMachine :
    Request.ofArguments ["check", "--fix"] sharedMachine.environment = .ok (.check fixHere) ∧
      analyzerFor sharedMachine fixHere = .ok plainAnalyzer ∧
      plainAnalyzer.reports sharedMachine.disk sharedMachine.cwd (ownIgnoreFile sharedMachine) =
        .ok [firstReport, lastReport] ∧
      (run sharedMachine ["check", "--fix"]).error = none ∧
      ∃ writes, List.Forall₂ (Writes sharedMachine.disk sharedMachine.cwd)
          [firstReport, lastReport] writes ∧
        (run sharedMachine ["check", "--fix"]).disk = sharedMachine.disk.putAll writes := by
  have hrequest :
      Request.ofArguments ["check", "--fix"] sharedMachine.environment = .ok (.check fixHere) := by
    rfl
  have hdone : (run sharedMachine ["check", "--fix"]).error = none := by
    simp only [run, hrequest, perform]
    exact check_sharedMachine.1
  refine ⟨hrequest, analyzerFor_sharedMachine, reports_sharedMachine, hdone, ?_⟩
  obtain ⟨-, -, -, -, ⟨writes, hwrites, hdisk⟩, -⟩ := run_settles sharedMachine ["check", "--fix"]
    hrequest analyzerFor_sharedMachine reports_sharedMachine hdone
  obtain ⟨hfirst, hlast, hfirstEdits, hlastEdits⟩ := corrections_sharedMachine
  have hall : [firstReport, lastReport].filter (fun r => r.HasFixed fixHere.fixMode) =
      [firstReport, lastReport] := by
    refine List.filter_eq_self.mpr fun r hr => decide_eq_true ?_
    rcases List.mem_pair.mp hr with rfl | rfl
    · exact (UnitReport.hasFixed_iff hfirst).mpr fun hnone => by simp [hnone] at hfirstEdits
    · exact (UnitReport.hasFixed_iff hlast).mpr fun hnone => by simp [hnone] at hlastEdits
  exact ⟨writes, hall ▸ hwrites, hdisk⟩

end Command

end TreeLint
