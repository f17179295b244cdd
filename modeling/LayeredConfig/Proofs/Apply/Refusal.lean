import LayeredConfig.Proofs.Apply.Isolation
import LayeredConfig.Proofs.Text.Order

/-!
# When a pass is refused

A pass that can not be begun ends with an error and without a report: the directory of templates is
missing or can not be listed, or targets are missing.  To say that nothing has been written by then,
the pass is stated once more as a program whose steps change the files and whose errors undo
nothing.  Main statements:

* `run_eq_error_iff` — the errors that a pass can end with, and when;
* `perform_eq` — the program gives the report and the files of the pass, or its error;
* `refusal` — **when a pass is refused, with which error, and that the files are as they were**.
-/

namespace LayeredConfig.Apply

variable {fs : FileSystem} {layout : Layout} {config : Tree} {options : Options}
  {files targets : List Path}

/-! ## The errors of a pass -/

theorem scheduled_eq_error_iff {e : Error} :
    scheduled layout fs = .error e ↔
      (fs.isDirectory layout.templatesDir.text = false ∧
          e = .templateDirectoryNotFound layout.templatesDir.text) ∨
        (fs.isDirectory layout.templatesDir.text = true ∧
          ∃ cause, fs.listFiles layout.templatesDir = .error cause ∧ e = .file cause) := by
  unfold scheduled templates
  cases fs.isDirectory layout.templatesDir.text with
  | false => simp [eq_comm]
  | true =>
    cases fs.listFiles layout.templatesDir with
    | error cause => simp [Except.map, eq_comm]
    | ok files => simp [Except.map]

theorem check_eq_error_iff {e : Error} :
    check layout fs targets = .error e ↔
      (∃ r ∈ targets, fs.isFile (layout.target r).text = false) ∧
        e = .targetsMissing ((missing layout fs targets).map Path.text) := by
  have hsome : missing layout fs targets ≠ [] ↔
      ∃ r ∈ targets, fs.isFile (layout.target r).text = false := by
    simp [missing, List.filter_eq_nil_iff]
  rw [← hsome]
  unfold check
  cases missing layout fs targets with
  | nil => simp
  | cons first rest => simp [eq_comm]

/-- The errors of a pass: that of the schedule, or that targets are missing. -/
theorem run_eq_error_iff {e : Error} :
    run layout config options fs = .error e ↔
      scheduled layout fs = .error e ∨
        ∃ targets, scheduled layout fs = .ok targets ∧ check layout fs targets = .error e := by
  unfold run
  cases scheduled layout fs with
  | error cause => simp
  | ok targets =>
    cases hcheck : check layout fs targets with
    | error cause => simp [hcheck]
    | ok _ => simp [hcheck]

/-! ## The missing targets -/

/-- Sorting by the order of paths is sorting by their octets. -/
theorem atMost_iff_encode_le {a b : Text} :
    Text.atMost a b = true ↔ Utf8.encode a ≤ Utf8.encode b := by
  rw [Text.atMost_iff_le, ← not_lt, ← List.not_lt, Utf8.encode_lt_encode]

/-- Texts in the order of their octets are ordered in one way only. -/
theorem eq_of_perm_of_encode_le {names names' : List Text} (hperm : names.Perm names')
    (h : names.Pairwise fun a b => Utf8.encode a ≤ Utf8.encode b)
    (h' : names'.Pairwise fun a b => Utf8.encode a ≤ Utf8.encode b) : names = names' := by
  refine List.Perm.eq_of_pairwise (fun a b _ _ hab hba => ?_) h h' hperm
  rw [← atMost_iff_encode_le, Text.atMost_iff_le] at hab hba
  exact le_antisymm hab hba

/-- The missing targets are in the order of their paths. -/
theorem pairwise_missing (h : scheduled layout fs = .ok targets) :
    ((missing layout fs targets).map Path.text).Pairwise
      fun a b => Utf8.encode a ≤ Utf8.encode b := by
  rw [List.pairwise_map]
  refine ((pairwise_scheduled h).imp fun hle => ?_).filter _
  rwa [← atMost_iff_encode_le, Text.atMost_iff_le]

/-- Which targets a pass finds to be missing. -/
theorem run_eq_targetsMissing_iff (hdir : fs.isDirectory layout.templatesDir.text = true)
    (hfiles : fs.listFiles layout.templatesDir = .ok files) {names : List Text} :
    run layout config options fs = .error (.targetsMissing names) ↔
      (∃ r ∈ files, fs.isFile (layout.target r).text = false) ∧
        names.Perm
          ((files.filter fun r => !fs.isFile (layout.target r).text).map Path.text) ∧
        names.Pairwise fun a b => Utf8.encode a ≤ Utf8.encode b := by
  have hscheduled := scheduled_eq_ok_iff.mpr ⟨hdir, files, hfiles, rfl⟩
  have hsorted := pairwise_missing hscheduled
  have hperm := ((List.mergeSort_perm files fun a b => Text.atMost a.text b.text).filter
    fun r => !fs.isFile (layout.target r).text).map Path.text
  rw [run_eq_error_iff, hscheduled]
  simp only [reduceCtorEq, false_or, Except.ok.injEq, exists_eq_left', check_eq_error_iff,
    List.mem_mergeSort, Error.targetsMissing.injEq]
  refine and_congr_right fun _ => ⟨fun heq => heq ▸ ⟨hperm, hsorted⟩, fun h => ?_⟩
  exact eq_of_perm_of_encode_le (h.1.trans hperm.symm) h.2 hsorted

/-! ## A pass as a program -/

/-- The turn of a target as a step of a program on files. -/
def turn (layout : Layout) (config : Tree) (options : Options) (r : Path) :
    StateM FileSystem (Except Failure Applied) :=
  fun fs => applyTarget layout config options r fs

/-- The turns of some targets, one after the other. -/
def turns (layout : Layout) (config : Tree) (options : Options) :
    List Path → StateM FileSystem Report
  | [] => return ⟨[], [], options.dryRun⟩
  | r :: rest => do
    let outcome ← turn layout config options r
    let report ← turns layout config options rest
    return report.prepend outcome

/-- A pass as a program on files.  What has been done to them when an error ends it stays done. -/
def program (layout : Layout) (config : Tree) (options : Options) :
    ExceptT Error (StateM FileSystem) Report := do
  let targets ← liftExcept (scheduled layout (← get))
  liftExcept (check layout (← get) targets)
  turns layout config options targets

/-- The report or the error of a pass, with the files it leaves in both cases. -/
def perform (layout : Layout) (config : Tree) (options : Options) (fs : FileSystem) :
    Except Error Report × FileSystem :=
  (program layout config options).run.run fs

section Run

variable {α β : Type}

/-- One step of a program and then the next ones, unless the step failed. -/
theorem bind_run (step : ExceptT Error (StateM FileSystem) α)
    (next : α → ExceptT Error (StateM FileSystem) β) (fs : FileSystem) :
    (step >>= next).run.run fs =
      match (step.run.run fs : Except Error α × FileSystem) with
      | (.ok value, fs) => (next value).run.run fs
      | (.error e, fs) => (.error e, fs) := by
  rw [ExceptT.run_bind, StateT.run_bind]
  cases hstep : (step.run.run fs : Except Error α × FileSystem) with
  | mk result fs' =>
    cases result with
    | error e => rfl
    | ok value => rfl

theorem liftM_run (program : StateM FileSystem α) (fs : FileSystem) :
    (liftM program : ExceptT Error (StateM FileSystem) α).run.run fs =
      (.ok (program.run fs).1, (program.run fs).2) := rfl

theorem get_run (fs : FileSystem) :
    (get : ExceptT Error (StateM FileSystem) FileSystem).run.run fs = (.ok fs, fs) := rfl

/-- A step that only computes does nothing to the files, whether it fails or not. -/
theorem liftExcept_run (result : Except Error α) (fs : FileSystem) :
    (liftExcept result : ExceptT Error (StateM FileSystem) α).run.run fs = (result, fs) := by
  cases result with
  | error e => rfl
  | ok value => rfl

end Run

theorem turns_run (layout : Layout) (config : Tree) (options : Options) (targets : List Path)
    (fs : FileSystem) :
    (turns layout config options targets).run fs =
      ((applyAll layout config options targets fs).report,
        (applyAll layout config options targets fs).after) := by
  induction targets generalizing fs with
  | nil => rfl
  | cons r rest ih =>
    show (let (report, after) :=
          (turns layout config options rest).run (applyTarget layout config options r fs).2
        (report.prepend (applyTarget layout config options r fs).1, after)) = _
    rw [ih, report_cons, after_cons]

/-- **The program is the pass**, and where the pass is an error it has done nothing. -/
theorem perform_eq (layout : Layout) (config : Tree) (options : Options) (fs : FileSystem) :
    perform layout config options fs =
      match run layout config options fs with
      | .ok pass => (.ok pass.report, pass.after)
      | .error e => (.error e, fs) := by
  unfold perform program run
  simp only [bind_run, get_run, liftExcept_run]
  cases hscheduled : scheduled layout fs with
  | error e => rfl
  | ok targets =>
    cases hcheck : check layout fs targets with
    | error e => simp only [hcheck]
    | ok _ => simp only [hcheck, liftM_run, turns_run]

/-- The program fails exactly where the pass is refused, and then the files are as they were. -/
theorem perform_eq_error_iff {e : Error} {after : FileSystem} :
    perform layout config options fs = (.error e, after) ↔
      run layout config options fs = .error e ∧ after = fs := by
  rw [perform_eq]
  cases run layout config options fs with
  | error cause => simp [eq_comm]
  | ok pass => simp

theorem perform_fst_eq_error_iff {e : Error} :
    (perform layout config options fs).1 = .error e ↔ run layout config options fs = .error e := by
  rw [perform_eq]
  cases run layout config options fs with
  | error cause => simp
  | ok pass => simp

theorem perform_fst_eq_ok_iff {report : Report} :
    (perform layout config options fs).1 = .ok report ↔
      ∃ pass, run layout config options fs = .ok pass ∧ pass.report = report := by
  rw [perform_eq]
  cases run layout config options fs with
  | error cause => simp
  | ok pass => simp

/-! ## When a pass is refused -/

/-- **When a pass is refused.**  It finds no directory of templates exactly if there is none;
otherwise, if the templates can be listed, it finds targets missing exactly if one of them is no
file, and it names all of these in the order of the octets of their paths; and whatever the error
is, the files are as they were. -/
theorem refusal (layout : Layout) (config : Tree) (options : Options) (fs : FileSystem) :
    (∀ path, run layout config options fs = .error (.templateDirectoryNotFound path) ↔
      fs.isDirectory layout.templatesDir.text = false ∧ path = layout.templatesDir.text) ∧
    (fs.isDirectory layout.templatesDir.text = true →
      ∀ files, fs.listFiles layout.templatesDir = .ok files →
        ∀ names, run layout config options fs = .error (.targetsMissing names) ↔
          (∃ r ∈ files, fs.isFile (layout.target r).text = false) ∧
            names.Perm
              ((files.filter fun r => !fs.isFile (layout.target r).text).map Path.text) ∧
            names.Pairwise fun a b => Utf8.encode a ≤ Utf8.encode b) ∧
    ∀ e after, perform layout config options fs = (.error e, after) ↔
      run layout config options fs = .error e ∧ after = fs := by
  refine ⟨fun path => ?_, fun hdir files hfiles names => run_eq_targetsMissing_iff hdir hfiles,
    fun e after => perform_eq_error_iff⟩
  rw [run_eq_error_iff, scheduled_eq_error_iff]
  simp [check_eq_error_iff]

/-- The three templates without the targets `b` and `c/d`. -/
def bareFiles : FileSystem :=
  (mixedFiles.erase [['b']]).erase [['c']]

/-- Both targets are reported, and nothing has been written. -/
theorem refusal_bare :
    perform .usual configWithX .plain bareFiles =
      (.error (.targetsMissing [['b'], ['c', '/', 'd']]), bareFiles) := by
  obtain ⟨-, hmissing, hfiles⟩ := refusal .usual configWithX .plain bareFiles
  refine (hfiles _ _).mpr ⟨?_, rfl⟩
  refine (hmissing (by decide +kernel) mixedTargets (by decide +kernel) _).mpr ?_
  decide +kernel

end LayeredConfig.Apply
