import TreeLint.Analysis.Analyzer
import TreeLint.Proofs.Disk.Paths
import TreeLint.Proofs.Disk.Writing
import TreeLint.Proofs.Unit.Loading

/-!
# Analysing many documents

The reports on a folder do not depend on the order in which its files are listed, nor on who loads
which document. Each is the report on one document by itself.

- `Analyzer.Reports`, `Analyzer.Fails`: what becomes of one document by itself.
- `mapM_id_cases`: all that was loaded, or the first error.
- `reportsOn_eq_of_perm`: neither the order of the files nor the workers make a difference.
- `reportsOn_of_lenient`, `reportsOn_of_strict`: what is left when the workers are done. The last
  sorting does nothing.
- `one_report_each`: the reports on some files, the errors, and what the reports add up to.
-/

namespace TreeLint

open Place

/-! ## The first error -/

section

variable {ε α : Type}

/-- Either all `outcomes` are `.ok`, or there is a first error `e`, and `mapM` returns it. -/
theorem mapM_id_cases (outcomes : List (Except ε α)) :
    (∃ items : List α, outcomes = items.map .ok ∧ outcomes.mapM id = .ok items) ∨
    ∃ (items : List α) (e : ε) (rest : List (Except ε α)),
      outcomes = items.map .ok ++ .error e :: rest ∧ outcomes.mapM id = .error e := by
  induction outcomes with
  | nil => exact .inl ⟨[], rfl, rfl⟩
  | cons outcome outcomes ih =>
    cases outcome with
    | error e => exact .inr ⟨[], e, outcomes, rfl, rfl⟩
    | ok item =>
      rcases ih with ⟨items, hitems, hok⟩ | ⟨items, e, rest, hitems, herror⟩
      · refine .inl ⟨item :: items, by rw [hitems, List.map_cons], ?_⟩
        rw [List.mapM_cons, hok]
        rfl
      · refine .inr ⟨item :: items, e, rest, by rw [hitems, List.map_cons, List.cons_append], ?_⟩
        rw [List.mapM_cons, herror]
        rfl

theorem filterMap_toOption_map_ok (items : List α) :
    (items.map (Except.ok (ε := ε))).filterMap Except.toOption = items := by
  induction items with
  | nil => rfl
  | cons item items ih => exact congrArg (item :: ·) ih

theorem map_eq_ok_iff {β : Type} {f : α → β} {outcome : Except ε α} {item : β} :
    outcome.map f = .ok item ↔ ∃ given, outcome = .ok given ∧ f given = item := by
  cases outcome <;> simp [Except.map]

theorem toOption_eq_some_iff {outcome : Except ε α} {item : α} :
    outcome.toOption = some item ↔ outcome = .ok item := by
  cases outcome <;> simp [Except.toOption]

end

namespace Analyzer

variable {a : Analyzer} {disk : Disk} {cwd names : Place} {files files' : List Place}
  {r : UnitReport} {reports : List UnitReport}

/-! ## One document -/

/-- The document to which `names` lead is loaded, and `r` is the report on it. -/
def Reports (a : Analyzer) (disk : Disk) (cwd names : Place) (r : UnitReport) : Prop :=
  ∃ unit, SourceUnit.load disk cwd (a.pathOf cwd names) = .ok unit ∧
    r = { analyzeUnit a.config a.registry unit with document := a.pathOf cwd names }

/-- The document to which `names` lead is not loaded, for the given cause. -/
def Fails (a : Analyzer) (disk : Disk) (cwd names : Place) (cause : UnitError) : Prop :=
  SourceUnit.load disk cwd (a.pathOf cwd names) = .error cause

theorem load_eq_ok_iff : a.load disk cwd names = .ok r ↔ a.Reports disk cwd names r := by
  simp only [load, Reports]
  cases hload : SourceUnit.load disk cwd (a.pathOf cwd names) with
  | ok unit => simp [report, eq_comm]
  | error cause => simp

theorem load_eq_error_iff {e : AnalyzerError} : a.load disk cwd names = .error e ↔
    ∃ cause, a.Fails disk cwd names cause ∧ e = .badUnit (a.pathOf cwd names) cause := by
  simp only [load, Fails]
  cases hload : SourceUnit.load disk cwd (a.pathOf cwd names) with
  | ok unit => simp
  | error cause => simp [eq_comm]

/-- A document for which `a.Fails` has no report among `reports`. -/
theorem Fails.load_not_mem {cause : UnitError} (h : a.Fails disk cwd names cause)
    (reports : List UnitReport) : a.load disk cwd names ∉ reports.map Except.ok := by
  rw [load_eq_error_iff.mpr ⟨cause, h, rfl⟩]
  simp

theorem parts_pathOf (h : names.Named) :
    Path.parts (a.pathOf cwd names) =
      Path.parts (Path.join (Path.absolute cwd) a.root) ++ names := by
  cases names with
  | nil => simp [pathOf]
  | cons name names =>
    rw [pathOf, if_neg (by simp), Path.parts_join (Path.isAbsolute_relative h),
      Path.parts_relative h]

theorem pathOf_before_iff {other : Place} (h : names.Named) (hother : other.Named) :
    Before (Path.parts (a.pathOf cwd names)) (Path.parts (a.pathOf cwd other)) ↔
      names.Before other := by
  rw [parts_pathOf h, parts_pathOf hother, before_append_iff]

/-! ## The documents -/

theorem mem_documents :
    names ∈ a.documents files ↔ names ∈ files ∧ a.selects names.relative = true := by
  rw [documents, List.mem_mergeSort, List.mem_filter]

theorem documents_eq_of_perm (h : files.Perm files') : a.documents files = a.documents files' :=
  mergeSort_eq_of_perm (h.filter _)

theorem pairwise_documents (h : files.Nodup) : (a.documents files).Pairwise Before :=
  pairwise_before_mergeSort (h.filter _)

/-- The reports on the documents among `files` that `a` can load. -/
def loadable (a : Analyzer) (disk : Disk) (cwd : Place) (files : List Place) : List UnitReport :=
  ((a.documents files).map (a.load disk cwd)).filterMap Except.toOption

theorem mem_loadable :
    r ∈ a.loadable disk cwd files ↔ ∃ names ∈ a.documents files, a.Reports disk cwd names r := by
  simp only [loadable, List.filterMap_map, List.mem_filterMap, Function.comp_apply,
    toOption_eq_some_iff, load_eq_ok_iff]

theorem length_loadable : (a.loadable disk cwd files).length =
    (a.documents files).countP fun names =>
      (SourceUnit.load disk cwd (a.pathOf cwd names)).isOk := by
  rw [loadable, List.filterMap_map, List.length_filterMap_eq_countP]
  refine List.countP_congr fun names _ => ?_
  simp only [Function.comp_apply, load]
  cases SourceUnit.load disk cwd (a.pathOf cwd names) <;> rfl

/-- The reports of `loadable` are in the strict order of their paths, as files are listed once
(`honce`) and by proper names (`hnamed`). -/
theorem pairwise_loadable (honce : files.Nodup) (hnamed : ∀ names ∈ files, names.Named) :
    (a.loadable disk cwd files).Pairwise fun r r' =>
      Before (Path.parts r.document) (Path.parts r'.document) := by
  rw [loadable, List.filterMap_map, List.pairwise_filterMap]
  refine (pairwise_documents honce).imp_of_mem ?_
  intro names other hnames hother hbefore r hr r' hr'
  obtain ⟨unit, -, rfl⟩ := load_eq_ok_iff.mp (toOption_eq_some_iff.mp hr)
  obtain ⟨unit', -, rfl⟩ := load_eq_ok_iff.mp (toOption_eq_some_iff.mp hr')
  exact (pathOf_before_iff (hnamed names (mem_documents.mp hnames).1)
    (hnamed other (mem_documents.mp hother).1)).mpr hbefore

/-- The last sorting does nothing: `loadable` is sorted already. -/
theorem mergeSort_loadable (honce : files.Nodup) (hnamed : ∀ names ∈ files, names.Named) :
    (a.loadable disk cwd files).mergeSort atMost = a.loadable disk cwd files :=
  List.mergeSort_of_pairwise ((pairwise_loadable honce hnamed).imp fun h => h.1)

/-! ## Runs -/

/-- The result of `reportsOn` is the same for any order of the `files`, any number of `workers` and
any way in which `pool` shares the documents out. -/
theorem reportsOn_eq_of_perm (h : files.Perm files') (workers : Option Nat)
    (pool pool' : WorkerPool Place (Except AnalyzerError UnitReport)) :
    reportsOn { a with parallelism := workers } disk cwd files' pool' =
      a.reportsOn disk cwd files pool := by
  calc reportsOn { a with parallelism := workers } disk cwd files' pool'
      = a.gather (pool'.map (workers.getD 0) (a.load disk cwd) (a.documents files')) := rfl
    _ = a.gather (pool.map (a.parallelism.getD 0) (a.load disk cwd) (a.documents files)) := by
      rw [WorkerPool.map_eq, WorkerPool.map_eq, documents_eq_of_perm h]

theorem reportsOn_of_lenient (honce : files.Nodup) (hnamed : ∀ names ∈ files, names.Named)
    (hlenient : a.failOnUnitError = false) :
    a.reportsOn disk cwd files = .ok (a.loadable disk cwd files) := by
  rw [reportsOn, WorkerPool.map_eq, gather, hlenient]
  exact congrArg Except.ok (mergeSort_loadable honce hnamed)

/-- With `failOnUnitError`, a run either finds no error and returns `loadable`, or ends with the
error of the first document that is not loaded. -/
theorem reportsOn_of_strict (a : Analyzer) (disk : Disk) (cwd : Place) (honce : files.Nodup)
    (hnamed : ∀ names ∈ files, names.Named)
    (hstrict : a.failOnUnitError = true) :
    (a.reportsOn disk cwd files = .ok (a.loadable disk cwd files) ∧
      ∀ names ∈ a.documents files, ∀ cause, ¬ a.Fails disk cwd names cause) ∨
    ∃ names ∈ a.documents files, ∃ cause, a.Fails disk cwd names cause ∧
      a.reportsOn disk cwd files = .error (.badUnit (a.pathOf cwd names) cause) ∧
      ∀ other ∈ a.documents files, (∃ cause, a.Fails disk cwd other cause) → other ≠ names →
        names.Before other := by
  rw [reportsOn, WorkerPool.map_eq, gather, hstrict, if_pos rfl]
  rcases mapM_id_cases ((a.documents files).map (a.load disk cwd)) with
    ⟨reports, hloaded, hok⟩ | ⟨reports, e, rest, hloaded, herror⟩
  · have hreports : a.loadable disk cwd files = reports := by
      rw [loadable, hloaded, filterMap_toOption_map_ok]
    refine .inl ⟨?_, fun names hnames cause hfails => ?_⟩
    · rw [hok, ← hreports]
      exact congrArg Except.ok (mergeSort_loadable honce hnamed)
    · exact absurd (hloaded ▸ List.mem_map_of_mem hnames) (hfails.load_not_mem reports)
  · -- The documents in front of the first error are those whose reports are in front of it.
    obtain ⟨front, back, hdocuments, hfront, hback⟩ := List.map_eq_append_iff.mp hloaded
    obtain ⟨names, behind, rfl, hnames, -⟩ := List.map_eq_cons_iff.mp hback
    obtain ⟨cause, hfails, rfl⟩ := load_eq_error_iff.mp hnames
    refine .inr ⟨names, by simp [hdocuments], cause, hfails, by rw [herror]; rfl,
      fun other hother => ?_⟩
    rintro ⟨cause', hfails'⟩ hne
    rw [hdocuments, List.mem_append, List.mem_cons] at hother
    rcases hother with hother | rfl | hother
    · exact absurd (hfront ▸ List.mem_map_of_mem hother) (hfails'.load_not_mem reports)
    · exact absurd rfl hne
    · have hordered := hdocuments ▸ pairwise_documents (a := a) honce
      exact (List.pairwise_cons.mp (List.pairwise_append.mp hordered).2.1).1 other hother

/-- Every report `r` of a run is that of a document, `names`. -/
theorem reports_of_mem {own : IgnoreFile} (h : a.reports disk cwd own = .ok reports)
    (hr : r ∈ reports) : ∃ names, a.Reports disk cwd names r := by
  obtain ⟨files, hfiles⟩ : ∃ files, a.reportsOn disk cwd files = .ok reports := by
    simp only [Analyzer.reports] at h
    split at h
    · exact ⟨_, h⟩
    · cases h
  rw [reportsOn, WorkerPool.map_eq, gather] at hfiles
  obtain ⟨loaded, hloaded, rfl⟩ := map_eq_ok_iff.mp hfiles
  rw [List.mem_mergeSort] at hr
  have hmem : .ok r ∈ (a.documents files).map (a.load disk cwd) := by
    split at hloaded
    · rcases mapM_id_cases ((a.documents files).map (a.load disk cwd)) with
        ⟨items, hitems, hok⟩ | ⟨items, e, rest, -, herror⟩
      · obtain rfl := Except.ok.inj (hok.symm.trans hloaded)
        exact hitems ▸ List.mem_map_of_mem hr
      · cases herror.symm.trans hloaded
    · obtain rfl := Except.ok.inj hloaded
      obtain ⟨outcome, houtcome, hsome⟩ := List.mem_filterMap.mp hr
      exact toOption_eq_some_iff.mp hsome ▸ houtcome
  obtain ⟨names, -, hnames⟩ := List.mem_map.mp hmem
  exact ⟨names, load_eq_ok_iff.mp hnames⟩

/-! ## Adding up -/

/-- Adding the `reports` one by one with `addReport` gives the `result` of all of them. -/
theorem foldl_addReport (reports : List UnitReport) : reports.foldl addReport {} = result reports :=
  rfl

theorem foldl_result (total : LintResult) (reports : List UnitReport)
    (hword : total.unitsChecked < Decode.maxWord + 1) :
    let sum := reports.foldl (fun total r => total ++ r.result) total
    sum.diagnostics = total.diagnostics ++ reports.flatMap (·.diagnostics) ∧
    sum.failures = total.failures ++ reports.flatMap (·.failures) ∧
    sum.unitsChecked = (total.unitsChecked + reports.length) % (Decode.maxWord + 1) := by
  induction reports generalizing total with
  | nil => simp [Nat.mod_eq_of_lt hword]
  | cons r reports ih =>
    obtain ⟨hdiagnostics, hfailures, hunits⟩ :=
      ih (total ++ r.result) (Nat.mod_lt _ (Nat.succ_pos _))
    refine ⟨?_, ?_, ?_⟩
    · rw [List.foldl_cons, hdiagnostics, List.flatMap_cons, ← List.append_assoc]
      rfl
    · rw [List.foldl_cons, hfailures, List.flatMap_cons, ← List.append_assoc]
      rfl
    · rw [List.foldl_cons, hunits, List.length_cons, Nat.add_comm reports.length, ← Nat.add_assoc]
      exact Nat.mod_add_mod ..

/-! ## The reports on a folder -/

/-- **One report for each document.** Let `files` be listed once each (`honce`), in any order, and
let any workers, however many, load the `documents` among them.

The run gives `reports` in the strict order of their paths: one for each document that can be
loaded, and each the one that loading and analysing this document gives (`a.Reports`). With
`failOnUnitError` the run fails exactly when some document cannot be loaded (`a.Fails`), and names
the one with the least path; without, it never fails. Adding the reports up one by one with
`addReport` gives their `result`: all diagnostics and failures in the order of the paths, and the
number of documents loaded, as a machine word. -/
theorem one_report_each (a : Analyzer) (disk : Disk) (cwd : Place) (files : List Place)
    (honce : files.Nodup) (hnamed : ∀ names ∈ files, names.Named) :
    let documents := a.documents files
    let outcome := a.reportsOn disk cwd files
    (∀ names, names ∈ documents ↔ names ∈ files ∧ a.selects names.relative = true) ∧
    (∀ files' workers pool, files'.Perm files →
      reportsOn { a with parallelism := workers } disk cwd files' pool = outcome) ∧
    (a.failOnUnitError = false → ∃ reports, outcome = .ok reports) ∧
    (a.failOnUnitError = true →
      ((∃ e, outcome = .error e) ↔ ∃ names ∈ documents, ∃ cause, a.Fails disk cwd names cause) ∧
      ∀ e, outcome = .error e → ∃ names ∈ documents, ∃ cause, a.Fails disk cwd names cause ∧
        e = .badUnit (a.pathOf cwd names) cause ∧
        ∀ other ∈ documents, (∃ cause, a.Fails disk cwd other cause) → other ≠ names →
          Before (Path.parts (a.pathOf cwd names)) (Path.parts (a.pathOf cwd other))) ∧
    (∀ reports, outcome = .ok reports →
      reports.Pairwise (fun r r' => Before (Path.parts r.document) (Path.parts r'.document)) ∧
      (∀ r, r ∈ reports ↔ ∃ names ∈ documents, a.Reports disk cwd names r) ∧
      reports.length =
        documents.countP (fun names => (SourceUnit.load disk cwd (a.pathOf cwd names)).isOk) ∧
      reports.foldl addReport {} = result reports ∧
      (result reports).diagnostics = reports.flatMap (·.diagnostics) ∧
      (result reports).failures = reports.flatMap (·.failures) ∧
      (result reports).unitsChecked = reports.length % (Decode.maxWord + 1) ∧
      (reports.length ≤ Decode.maxWord → (result reports).unitsChecked = reports.length)) ∧
    ∀ own, a.files? disk cwd own = some files →
      a.reports disk cwd own = outcome ∧ a.analyze disk cwd own = outcome.map result := by
  intro documents outcome
  have hnames : ∀ names ∈ documents, names.Named := fun names h =>
    hnamed names (mem_documents.mp h).1
  refine ⟨fun names => mem_documents,
    fun files' workers pool hperm => reportsOn_eq_of_perm hperm.symm workers .halving pool,
    fun hlenient => ⟨_, reportsOn_of_lenient honce hnamed hlenient⟩, fun hstrict => ?_,
    fun reports hreports => ?_, fun own hfiles => ?_⟩
  -- An analyser that stops at errors: the first error in the order of the paths is the one
  -- returned.
  · rcases reportsOn_of_strict a disk cwd honce hnamed hstrict with
      ⟨hok, hnone⟩ | ⟨names, hmem, cause, hfails, herror, hleast⟩
    · have houtcome : outcome = .ok (a.loadable disk cwd files) := hok
      rw [houtcome]
      refine ⟨⟨?_, ?_⟩, fun e he => ?_⟩
      · rintro ⟨e, he⟩
        cases he
      · rintro ⟨names, hmem, cause, hfails⟩
        exact (hnone names hmem cause hfails).elim
      · cases he
    · have houtcome : outcome = .error (.badUnit (a.pathOf cwd names) cause) := herror
      rw [houtcome]
      refine ⟨⟨fun _ => ⟨names, hmem, cause, hfails⟩, fun _ => ⟨_, rfl⟩⟩, ?_⟩
      rintro e ⟨⟩
      exact ⟨names, hmem, cause, hfails, rfl, fun other hother hfails' hne =>
        (pathOf_before_iff (hnames names hmem) (hnames other hother)).mpr
          (hleast other hother hfails' hne)⟩
  -- Strict or not, the reports of a run that succeeds are `loadable`.
  · obtain rfl : a.loadable disk cwd files = reports := by
      cases hfail : a.failOnUnitError with
      | false => exact Except.ok.inj ((reportsOn_of_lenient honce hnamed hfail).symm.trans hreports)
      | true =>
        rcases reportsOn_of_strict a disk cwd honce hnamed hfail with
          ⟨hok, -⟩ | ⟨_, -, _, -, herror, -⟩
        · exact Except.ok.inj (hok.symm.trans hreports)
        · cases herror.symm.trans hreports
    obtain ⟨hdiagnostics, hfailures, hunits⟩ :=
      foldl_result {} (a.loadable disk cwd files) (Nat.succ_pos _)
    have hcount : (result (a.loadable disk cwd files)).unitsChecked =
        (a.loadable disk cwd files).length % (Decode.maxWord + 1) :=
      hunits.trans (by rw [Nat.zero_add])
    exact ⟨pairwise_loadable honce hnamed, fun r => mem_loadable, length_loadable,
      foldl_addReport _, hdiagnostics, hfailures, hcount,
      fun hword => hcount.trans (Nat.mod_eq_of_lt (Nat.lt_succ_of_le hword))⟩
  · have hreports : a.reports disk cwd own = outcome := by rw [Analyzer.reports, hfiles]
    exact ⟨hreports, by rw [analyze, hreports]; rfl⟩

/-- A folder with a document that can be loaded, `A.sift.json`, and one that cannot,
`B.sift.json`. -/
def mixedDisk : Disk :=
  ⟨[(["B.sift.json"], .file "\x7b".toUTF8), (["A.sift.json"], .file twoStatements.render.toUTF8)]⟩

/-- An analyser of all files of a disk, with two workers; `strict` says whether it stops at
errors. -/
def ofEverything (strict : Bool) : Analyzer where
  root := "/"
  registry := .ofList []
  exclude := []
  patterns := [⟨[.anyText]⟩]
  config := {}
  parallelism := some 2
  failOnUnitError := strict

theorem load_mixedDisk :
    (∃ unit, SourceUnit.load mixedDisk [] "/A.sift.json" = .ok unit) ∧
      SourceUnit.load mixedDisk [] "/B.sift.json" = .error .malformed := by
  have hgood : mixedDisk.readText? [] "/A.sift.json" = some twoStatements.render :=
    Disk.readText?_eq_some_iff.mpr
      ⟨["A.sift.json"], _, by decide, rfl, Disk.fromUTF8?_toUTF8 twoStatements.render⟩
  have hbad : mixedDisk.readText? [] "/B.sift.json" = some "\x7b" :=
    Disk.readText?_eq_some_iff.mpr ⟨["B.sift.json"], _, by decide, rfl, Disk.fromUTF8?_toUTF8 _⟩
  have hsource : twoStatements.source = some "é; b;" := rfl
  obtain ⟨-, hok, -⟩ := SourceUnit.ofText_spec mixedDisk []
    ((Path.directory? "/A.sift.json").getD "") twoStatements.render parse?_twoStatements hsource
  obtain ⟨unit, hunit⟩ := hok.mpr nests_twoStatements
  refine ⟨⟨unit, by rw [SourceUnit.load, hgood]; exact hunit⟩, ?_⟩
  have hparse : UnitDocument.parse? "\x7b" = none := by cbv
  simp only [SourceUnit.load, hbad, SourceUnit.ofText, hparse]

/-- Of the two documents of `mixedDisk`, listed in the wrong order, the one that can be loaded gives
the report, and the other the error of an analyser that stops at errors. -/
theorem one_report_each_mixedDisk :
    let files : List Place := [["B.sift.json"], ["A.sift.json"]]
    files.Nodup ∧ (∀ names ∈ files, names.Named) ∧
      (∃ reports, (ofEverything false).reportsOn mixedDisk [] files = .ok reports ∧
        reports.map (·.document) = ["/A.sift.json"]) ∧
      (ofEverything true).reportsOn mixedDisk [] files =
        .error (.badUnit "/B.sift.json" .malformed) := by
  intro files
  have honce : files.Nodup := by decide
  have hnamed : ∀ names ∈ files, names.Named := by decide
  obtain ⟨⟨unit, hgood⟩, hbad⟩ := load_mixedDisk
  have hselects (strict : Bool) :
      ∀ names ∈ files, (ofEverything strict).selects names.relative = true := by
    cases strict <;> decide
  have hdocuments (strict : Bool) :
      (ofEverything strict).documents files = [["A.sift.json"], ["B.sift.json"]] := by
    calc (ofEverything strict).documents files
        = files.mergeSort Place.atMost := by
          rw [documents, List.filter_eq_self.mpr (hselects strict)]
      _ = [["A.sift.json"], ["B.sift.json"]].mergeSort Place.atMost :=
        mergeSort_eq_of_perm (.swap ..)
      _ = [["A.sift.json"], ["B.sift.json"]] := List.mergeSort_of_pairwise (by decide)
  have hA (strict : Bool) : (ofEverything strict).pathOf [] ["A.sift.json"] = "/A.sift.json" := by
    cases strict <;> decide
  have hB (strict : Bool) : (ofEverything strict).pathOf [] ["B.sift.json"] = "/B.sift.json" := by
    cases strict <;> decide
  refine ⟨honce, hnamed, ?_, ?_⟩
  · obtain ⟨-, -, hok, -, hreports, -⟩ :=
      one_report_each (ofEverything false) mixedDisk [] files honce hnamed
    obtain ⟨reports, houtcome⟩ := hok rfl
    obtain ⟨-, hiff, hlength, -⟩ := hreports reports houtcome
    rw [hdocuments] at hiff hlength
    obtain ⟨r, rfl⟩ : ∃ r, reports = [r] := List.length_eq_one_iff.mp (by
      simpa [hA, hB, hgood, hbad, Except.isOk, Except.toBool] using hlength)
    obtain ⟨names, hnames, unit', hload, rfl⟩ := (hiff r).mp List.mem_cons_self
    refine ⟨_, houtcome, ?_⟩
    rcases List.mem_pair.mp hnames with rfl | rfl
    · exact congrArg (fun document => [document]) (hA false)
    · rw [hB, hbad] at hload
      cases hload
  · obtain ⟨-, -, -, hstrict, -⟩ :=
      one_report_each (ofEverything true) mixedDisk [] files honce hnamed
    obtain ⟨hiff, hleast⟩ := hstrict rfl
    have hfails : (ofEverything true).Fails mixedDisk [] ["B.sift.json"] .malformed := by
      rw [Fails, hB, hbad]
    obtain ⟨e, he⟩ := hiff.mpr ⟨["B.sift.json"], by simp [hdocuments], _, hfails⟩
    obtain ⟨names, hnames, cause, hfails', rfl, -⟩ := hleast e he
    rw [hdocuments] at hnames
    rcases List.mem_pair.mp hnames with rfl | rfl
    · rw [Fails, hA, hgood] at hfails'
      cases hfails'
    · rw [Fails, hB, hbad] at hfails'
      cases hfails'
      rw [he, hB]

end Analyzer

end TreeLint
