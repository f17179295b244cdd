import LayeredConfig.CommandLine.Run
import LayeredConfig.Proofs.Apply.Rehearsal
import LayeredConfig.Proofs.Apply.FixedPoint
import LayeredConfig.Proofs.Model.Precedence

/-!
# What the exit code tells

A script that applies templates sees the exit code alone.  The code tells which stage the command
has come to: whether there was anything to compile, whether all targets were there, and whether the
pass over them had failures.  Main statements:

* `ofError_of_compile`, `ofError_of_run` — how the errors of each stage end the command;
* `ApplyRequest.course` — the courses that a command can take, each with its ending and the files
  it leaves;
* **`exit_code`** — each exit code with the condition for it, and what the code tells about the
  files.
-/

namespace LayeredConfig.CommandLine

variable {fs after : FileSystem} {e : Error} {ending : Ending} {request : ApplyRequest}

/-! ## The errors of the stages -/

theorem ofError_of_expandAll {properties : List (Text × Text)}
    (h : Properties.expandAll properties = .error e) : Ending.ofError e = .fatal := by
  induction properties with
  | nil => simp [Properties.expandAll] at h
  | cons property rest ih =>
    obtain ⟨key, value⟩ := property
    rw [Properties.expandAll] at h
    cases hkey : Tree.expand? key value with
    | none =>
      rw [hkey] at h
      obtain rfl := Except.error.inj h
      rfl
    | some tree =>
      rw [hkey] at h
      exact ih (Except.map_eq_error_iff.mp h)

/-- The content of a model file can only be malformed or hold an invalid key. -/
theorem ofError_of_parse {format : FileFormat} {file content : Text}
    (h : format.parse file content = .error e) : Ending.ofError e = .fatal := by
  cases format with
  | json =>
    obtain ⟨fault, -, rfl⟩ := Except.mapError_eq_error_iff.mp h
    rfl
  | yaml =>
    obtain ⟨fault, -, rfl⟩ := Except.mapError_eq_error_iff.mp h
    rfl
  | properties =>
    rw [FileFormat.parse] at h
    split at h
    · obtain rfl := Except.error.inj h
      rfl
    · exact ofError_of_expandAll (Except.map_eq_error_iff.mp h)

theorem ofError_of_load {file : ModelFile} (h : file.load fs = .error e) :
    Ending.ofError e = .fatal := by
  rw [ModelFile.load] at h
  split at h
  · exact absurd h (by simp)
  · split at h
    · obtain rfl := Except.error.inj h
      rfl
    · exact ofError_of_parse h

theorem ofError_of_loadAll {files : List ModelFile}
    (h : ModelFile.loadAll fs files = .error e) : Ending.ofError e = .fatal := by
  induction files with
  | nil => simp [ModelFile.loadAll] at h
  | cons file files ih =>
    rw [ModelFile.loadAll] at h
    rcases Except.bind_eq_error_iff.mp h with h | ⟨tree, -, h⟩
    · exact ofError_of_load h
    · rcases Except.bind_eq_error_iff.mp h with h | ⟨trees, -, h⟩
      · exact ih h
      · exact absurd h (by simp [pure, Except.pure])

theorem ofError_of_belowAll {roots : List Path} (h : ModelFile.belowAll fs roots = .error e) :
    Ending.ofError e = .fatal := by
  obtain ⟨cause, rfl⟩ := ModelFile.belowAll_error h
  rfl

theorem ofError_of_discover {roots : List Path} (hroots : roots ≠ [])
    (h : ModelFile.discover roots fs = .error e) : Ending.ofError e = .fatal := by
  rw [ModelFile.discover, if_neg hroots] at h
  split at h
  · obtain rfl := Except.error.inj h
    rfl
  · exact ofError_of_belowAll (Except.map_eq_error_iff.mp h)

/-- A compilation that is given a model directory fails fatally, if it does. -/
theorem ofError_of_compile {sources : Sources} (hroots : sources.roots ≠ [])
    (h : sources.compile fs = .error e) : Ending.ofError e = .fatal := by
  rw [Sources.compile] at h
  rcases Except.bind_eq_error_iff.mp h with h | ⟨files, -, h⟩
  · rw [Sources.selected] at h
    rcases Except.bind_eq_error_iff.mp h with h | ⟨files, -, h⟩
    · exact ofError_of_discover hroots h
    · split at h
      · obtain rfl := Except.error.inj h
        rfl
      · exact absurd h (by simp)
  · rcases Except.bind_eq_error_iff.mp h with h | ⟨trees, -, h⟩
    · exact ofError_of_loadAll h
    · exact absurd h (by simp [pure, Except.pure])

theorem compile_of_no_roots {sources : Sources} (hroots : sources.roots = []) (fs : FileSystem) :
    sources.compile fs = .error .noModelDirectories := by
  rw [Sources.compile, Sources.selected, ModelFile.discover, if_pos hroots]
  rfl

/-! ## The courses of a command -/

/-- The options of the pass that is requested. -/
def ApplyRequest.options (request : ApplyRequest) : Apply.Options :=
  ⟨AcceptSet.ofList request.accepted, request.dryRun⟩

/-- Whether the configuration is compiled and the templates are listed, and then a target is no
file. -/
def ApplyRequest.Misses (request : ApplyRequest) (fs : FileSystem) : Prop :=
  ∃ config targets, request.sources.compile fs = .ok config ∧
    Apply.scheduled request.layout fs = .ok targets ∧
    ∃ r ∈ targets, fs.isFile (request.layout.target r).text = false

/-- Whether a pass with the compiled configuration runs to the end. -/
def ApplyRequest.Passes (request : ApplyRequest) (fs : FileSystem) (pass : Apply.Pass) : Prop :=
  ∃ config, request.sources.compile fs = .ok config ∧
    Apply.run request.layout config request.options fs = .ok pass

/-- The courses that a command can take, each with its ending and the files after it. -/
inductive ApplyRequest.Course (request : ApplyRequest) (fs : FileSystem) :
    Ending → FileSystem → Prop
  | nothingGiven (hroots : request.sources.roots = []) : Course request fs .noModelDirectories fs
  | notCompiled {e : Error} (hroots : request.sources.roots ≠ [])
      (hcompile : request.sources.compile fs = .error e) : Course request fs .fatal fs
  | notListed {config : Tree} {e : Error} (hcompile : request.sources.compile fs = .ok config)
      (hlist : Apply.scheduled request.layout fs = .error e) : Course request fs .fatal fs
  | missed {config : Tree} {targets : List Path}
      (hcompile : request.sources.compile fs = .ok config)
      (hlist : Apply.scheduled request.layout fs = .ok targets)
      (hmissing : ∃ r ∈ targets, fs.isFile (request.layout.target r).text = false) :
      Course request fs .targetsMissing fs
  | failed {pass : Apply.Pass} (hpass : request.Passes fs pass)
      (hfailures : pass.report.failures ≠ []) : Course request fs .someFailed pass.after
  | succeeded {pass : Apply.Pass} (hpass : request.Passes fs pass)
      (hfailures : pass.report.failures = []) : Course request fs .success pass.after

namespace ApplyRequest

/-- **Every command takes one of the courses.** -/
theorem course (request : ApplyRequest) (warn : Bool) (fs : FileSystem) :
    request.Course fs (request.run warn fs).ending (request.run warn fs).after := by
  rw [run]
  cases hcompile : request.sources.compile fs with
  | error e =>
    by_cases hroots : request.sources.roots = []
    · obtain rfl := Except.error.inj ((compile_of_no_roots hroots fs).symm.trans hcompile)
      exact .nothingGiven hroots
    · simp only [Outcome.ofError, ofError_of_compile hroots hcompile]
      exact .notCompiled hroots hcompile
  | ok config =>
    cases hrun : Apply.run request.layout config request.options fs with
    | error e =>
      simp only [show Apply.run request.layout config ⟨_, _⟩ fs = .error e from hrun]
      rcases Apply.run_eq_error_iff.mp hrun with hlist | ⟨targets, hlist, hcheck⟩
      · rcases Apply.scheduled_eq_error_iff.mp hlist with ⟨-, rfl⟩ | ⟨-, cause, -, rfl⟩
        · exact .notListed hcompile hlist
        · exact .notListed hcompile hlist
      · obtain ⟨hmissing, rfl⟩ := Apply.check_eq_error_iff.mp hcheck
        exact .missed hcompile hlist hmissing
    | ok pass =>
      simp only [show Apply.run request.layout config ⟨_, _⟩ fs = .ok pass from hrun,
        Outcome.ofPass]
      by_cases hfailures : pass.report.failures = []
      · rw [if_pos (by simp [Apply.Report.isSuccess, hfailures])]
        exact .succeeded ⟨config, hcompile, hrun⟩ hfailures
      · rw [if_neg (by simp [Apply.Report.isSuccess, hfailures])]
        exact .failed ⟨config, hcompile, hrun⟩ hfailures

/-- A course is what running the command comes to, so no two courses can be taken. -/
theorem course_iff (warn : Bool) :
    request.Course fs ending after ↔
      ending = (request.run warn fs).ending ∧ after = (request.run warn fs).after := by
  refine ⟨fun h => ?_, fun ⟨hending, hafter⟩ => hending ▸ hafter ▸ request.course warn fs⟩
  cases h with
  | nothingGiven hroots => simp [run, compile_of_no_roots hroots, Outcome.ofError, Ending.ofError]
  | notCompiled hroots hcompile =>
    simp [run, hcompile, Outcome.ofError, ofError_of_compile hroots hcompile]
  | @notListed config e hcompile hlist =>
    have hrun : Apply.run request.layout config request.options fs = .error e :=
      Apply.run_eq_error_iff.mpr (Or.inl hlist)
    rcases Apply.scheduled_eq_error_iff.mp hlist with ⟨-, rfl⟩ | ⟨-, cause, -, rfl⟩ <;>
      simp [run, hcompile, show Apply.run request.layout config ⟨_, _⟩ fs = _ from hrun,
        Outcome.ofError, Ending.ofError]
  | @missed config targets hcompile hlist hmissing =>
    have hrun : Apply.run request.layout config request.options fs = .error _ :=
      Apply.run_eq_error_iff.mpr
        (Or.inr ⟨targets, hlist, Apply.check_eq_error_iff.mpr ⟨hmissing, rfl⟩⟩)
    simp [run, hcompile, show Apply.run request.layout config ⟨_, _⟩ fs = _ from hrun,
      Outcome.ofError, Ending.ofError]
  | @failed pass hpass hfailures =>
    obtain ⟨config, hcompile, hrun⟩ := hpass
    simp [run, hcompile, show Apply.run request.layout config ⟨_, _⟩ fs = _ from hrun,
      Outcome.ofPass, Apply.Report.isSuccess, hfailures]
  | @succeeded pass hpass hfailures =>
    obtain ⟨config, hcompile, hrun⟩ := hpass
    simp [run, hcompile, show Apply.run request.layout config ⟨_, _⟩ fs = _ from hrun,
      Outcome.ofPass, Apply.Report.isSuccess, hfailures]

/-! ## The codes of the courses -/

section Code

variable (h : request.Course fs ending after)

include h

/-- No two courses can be taken. -/
theorem Course.ending_eq {ending' : Ending} {after' : FileSystem}
    (h' : request.Course fs ending' after') : ending = ending' :=
  ((course_iff false).mp h).1.trans ((course_iff false).mp h').1.symm

theorem Course.code_eq_neg_one_iff : ending.code = -1 ↔ request.sources.roots = [] := by
  refine ⟨fun hcode => ?_, fun hroots => h.ending_eq (.nothingGiven hroots) ▸ rfl⟩
  cases h with
  | nothingGiven hroots => exact hroots
  | _ => exact absurd hcode (by decide)

theorem Course.code_eq_neg_two_iff : ending.code = -2 ↔ request.Misses fs := by
  refine ⟨fun hcode => ?_, fun ⟨config, targets, hcompile, hlist, hmissing⟩ =>
    h.ending_eq (.missed hcompile hlist hmissing) ▸ rfl⟩
  cases h with
  | missed hcompile hlist hmissing => exact ⟨_, _, hcompile, hlist, hmissing⟩
  | _ => exact absurd hcode (by decide)

theorem Course.code_eq_neg_three_iff :
    ending.code = -3 ↔ ∃ pass, request.Passes fs pass ∧ pass.report.failures ≠ [] := by
  refine ⟨fun hcode => ?_, fun ⟨pass, hpass, hfailures⟩ =>
    h.ending_eq (.failed hpass hfailures) ▸ rfl⟩
  cases h with
  | failed hpass hfailures => exact ⟨_, hpass, hfailures⟩
  | _ => exact absurd hcode (by decide)

theorem Course.code_eq_zero_iff :
    ending.code = 0 ↔ ∃ pass, request.Passes fs pass ∧ pass.report.failures = [] := by
  refine ⟨fun hcode => ?_, fun ⟨pass, hpass, hfailures⟩ =>
    h.ending_eq (.succeeded hpass hfailures) ▸ rfl⟩
  cases h with
  | succeeded hpass hfailures => exact ⟨_, hpass, hfailures⟩
  | _ => exact absurd hcode (by decide)

/-- The last code is for everything that the other ones are not for. -/
theorem Course.code_eq_neg_four_iff :
    ending.code = -4 ↔ ¬request.sources.roots = [] ∧ ¬request.Misses fs ∧
      ∀ pass, ¬request.Passes fs pass := by
  have hcodes : ending.code = -4 ↔
      ¬ending.code = -1 ∧ ¬ending.code = -2 ∧ ¬ending.code = -3 ∧ ¬ending.code = 0 := by
    cases h <;> decide
  rw [hcodes, h.code_eq_neg_one_iff, h.code_eq_neg_two_iff, h.code_eq_neg_three_iff,
    h.code_eq_zero_iff]
  refine and_congr_right fun _ => and_congr_right fun _ => ⟨fun ⟨hfailed, hsucceeded⟩ pass hpass =>
    ?_, fun hno => ⟨fun ⟨pass, hpass, _⟩ => hno pass hpass, fun ⟨pass, hpass, _⟩ => hno pass hpass⟩⟩
  by_cases hfailures : pass.report.failures = []
  · exact hsucceeded ⟨pass, hpass, hfailures⟩
  · exact hfailed ⟨pass, hpass, hfailures⟩

/-- Only a pass that is no rehearsal changes files. -/
theorem Course.after_eq
    (hquiet : ending.code = -1 ∨ ending.code = -2 ∨ ending.code = -4 ∨ request.dryRun = true) :
    after = fs := by
  have hpass : ∀ pass, request.Passes fs pass → request.dryRun = true → pass.after = fs := by
    rintro pass ⟨config, -, hrun⟩ hdry
    obtain ⟨targets, -, -, rfl⟩ := Apply.run_eq_ok_iff.mp hrun
    exact Apply.after_of_dryRun hdry config targets fs
  cases h with
  | failed hrun hfailures => exact hpass _ hrun (by simpa [Ending.code] using hquiet)
  | succeeded hrun hfailures => exact hpass _ hrun (by simpa [Ending.code] using hquiet)
  | _ => rfl

end Code

/-- After a pass without failures every target and its snapshot hold what the template is rendered
to. -/
theorem Passes.settles {pass : Apply.Pass} {config : Tree} {targets : List Path}
    (h : request.Passes fs pass) (hs : fs.Sound)
    (hcompile : request.sources.compile fs = .ok config)
    (hlist : Apply.scheduled request.layout fs = .ok targets)
    (hapart : request.layout.Apart fs.workingDirectory targets) (hdry : request.dryRun = false)
    (hfailures : pass.report.failures = []) {r : Path} (hr : r ∈ targets) :
    ∃ template, pass.after.readText (request.layout.template r).text = .ok template ∧
      let rendered := Template.render config template
      rendered.complete = true ∧
      pass.after.readBytes (request.layout.target r).text = .ok (Utf8.encode rendered.text) ∧
      pass.after.readBytes (request.layout.snapshot r).text = .ok (Utf8.encode rendered.text) := by
  obtain ⟨config', hcompile', hrun⟩ := h
  obtain rfl := Except.ok.inj (hcompile.symm.trans hcompile')
  obtain ⟨listed, hlisted, hexist, rfl⟩ := Apply.run_eq_ok_iff.mp hrun
  obtain rfl := Except.ok.inj (hlist.symm.trans hlisted)
  obtain ⟨content, hsettled, -⟩ := Apply.Settled.of_success
    (Apply.Ready.of_scheduled hs hlist hexist hapart) hdry hfailures
  obtain ⟨template, hread, hcomplete, hcontent⟩ :=
    Apply.renderTarget_eq_ok_iff.mp (hsettled.text r hr)
  refine ⟨template, hread, hcomplete, ?_, ?_⟩
  · rw [hcontent]
    exact hsettled.ready.readBytes_target hr (hsettled.target r hr)
  · rw [hcontent]
    exact (Apply.readBytes_snapshot_iff hsettled.ready.sound hsettled.ready.enters
      (hsettled.plain hr)).mpr (hsettled.snapshot r hr)

end ApplyRequest

/-- **What the exit code of a command that applies templates tells.**  It is -1 exactly if no model
directory is given, -2 exactly if a scheduled target is no file, -3 or 0 exactly if a pass runs to
the end with or without failures, and -4 otherwise.  Before a pass, and in a rehearsal, no file is
changed; and after a pass without failures that is no rehearsal, every target and its snapshot hold
what the template is rendered to. -/
theorem exit_code {environment : Option Text} {arguments : List Text}
    (hrequest : request? environment arguments = some (.apply request)) (warn : Bool)
    (fs : FileSystem) :
    let outcome := run environment warn arguments fs
    (outcome.ending.code = -1 ↔ request.sources.roots = []) ∧
    (outcome.ending.code = -2 ↔ request.Misses fs) ∧
    (outcome.ending.code = -3 ↔ ∃ pass, request.Passes fs pass ∧ pass.report.failures ≠ []) ∧
    (outcome.ending.code = 0 ↔ ∃ pass, request.Passes fs pass ∧ pass.report.failures = []) ∧
    (outcome.ending.code = -4 ↔ ¬request.sources.roots = [] ∧ ¬request.Misses fs ∧
      ∀ pass, ¬request.Passes fs pass) ∧
    (outcome.ending.code = -1 ∨ outcome.ending.code = -2 ∨ outcome.ending.code = -4 ∨
      request.dryRun = true → outcome.after = fs) ∧
    (outcome.ending.code = 0 → request.dryRun = false → fs.Sound →
      ∀ config targets, request.sources.compile fs = .ok config →
        Apply.scheduled request.layout fs = .ok targets →
        request.layout.Apart fs.workingDirectory targets →
        ∀ r ∈ targets, ∃ template,
          outcome.after.readText (request.layout.template r).text = .ok template ∧
          let rendered := Template.render config template
          rendered.complete = true ∧
          outcome.after.readBytes (request.layout.target r).text =
            .ok (Utf8.encode rendered.text) ∧
          outcome.after.readBytes (request.layout.snapshot r).text =
            .ok (Utf8.encode rendered.text)) := by
  have hrun : run environment warn arguments fs = request.run warn fs := by
    rw [run, hrequest]
    rfl
  simp only [hrun]
  have hcourse := request.course warn fs
  refine ⟨hcourse.code_eq_neg_one_iff, hcourse.code_eq_neg_two_iff, hcourse.code_eq_neg_three_iff,
    hcourse.code_eq_zero_iff, hcourse.code_eq_neg_four_iff, hcourse.after_eq, ?_⟩
  intro hcode hdry hs config targets hcompile hlist hapart r hr
  obtain ⟨pass, hpass, hfailures⟩ := hcourse.code_eq_zero_iff.mp hcode
  have hafter := ((ApplyRequest.course_iff warn).mp (.succeeded hpass hfailures)).2
  rw [← hafter]
  exact hpass.settles hs hcompile hlist hapart hdry hfailures hr

/-! ### A command that succeeds -/

/-- The three templates and targets, with a model directory that has a value for every name. -/
def modelledFiles : FileSystem :=
  { Apply.mixedFiles with
    root := Apply.mixedFiles.root ++ [("m".toList, .directory
      [("k.properties".toList, .file (Utf8.encode "x=1\ny=2".toList))])] }

/-- What `apply -m m -a b` asks for. -/
def acceptingRequest : ApplyRequest where
  sources := ⟨[Path.ofText "m".toList], []⟩
  layout := .usual
  accepted := [['b']]
  dryRun := false
  json := false

theorem compile_modelledFiles :
    acceptingRequest.sources.compile modelledFiles = .ok Apply.configWithXY := by
  have hbelow : ModelFile.belowAll modelledFiles acceptingRequest.sources.roots =
      .ok [⟨Path.ofText "m".toList, Path.ofText "k.properties".toList⟩] := by decide +kernel
  rw [Sources.compile, Sources.selected, ModelFile.discover, if_neg (by decide +kernel), hbelow,
    show acceptingRequest.sources.roots.find? _ = none from by decide +kernel]
  show (Except.ok (ModelFile.sort _) >>= _ >>= _) = _
  rw [ModelFile.sort, List.mergeSort_singleton]
  rfl

theorem prepared_modelledFiles : Apply.Prepared .usual modelledFiles Apply.mixedTargets := by
  decide +kernel

/-- The pass accepts the edited target and has no failures, so the command ends with 0 and the
target `b` holds its template. -/
theorem exit_code_accepting :
    request? none ["apply".toList, "-m".toList, "m".toList, "-a".toList, ['b']] =
      some (.apply acceptingRequest) ∧
    let outcome :=
      run none false ["apply".toList, "-m".toList, "m".toList, "-a".toList, ['b']] modelledFiles
    outcome.ending.code = 0 ∧
    ∀ r ∈ Apply.mixedTargets, ∃ template,
      outcome.after.readText (Layout.usual.template r).text = .ok template ∧
      let rendered := Template.render Apply.configWithXY template
      rendered.complete = true ∧
      outcome.after.readBytes (Layout.usual.target r).text = .ok (Utf8.encode rendered.text) ∧
      outcome.after.readBytes (Layout.usual.snapshot r).text =
        .ok (Utf8.encode rendered.text) := by
  have hrequest : request? none ["apply".toList, "-m".toList, "m".toList, "-a".toList, ['b']] =
      some (.apply acceptingRequest) := rfl
  have hprepared := prepared_modelledFiles
  have hfailures : (Apply.applyAll .usual Apply.configWithXY acceptingRequest.options
      Apply.mixedTargets modelledFiles).report.failures = [] := by decide +kernel
  obtain ⟨-, -, -, hzero, -, -, hsettled⟩ := exit_code hrequest false modelledFiles
  have hcode := hzero.mpr ⟨_, ⟨_, compile_modelledFiles, hprepared.run_eq _ _⟩, hfailures⟩
  exact ⟨hrequest, hcode, hsettled hcode rfl hprepared.sound _ _ compile_modelledFiles
    hprepared.scheduled_eq hprepared.apart⟩

end LayeredConfig.CommandLine
