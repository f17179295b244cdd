import LayeredConfig.Proofs.Apply.Isolation

/-!
# What becomes of a target that failed

A target that a report lists as failed should be left alone, target and snapshot.  The snapshot
always is.  The target is too, except where the write of the snapshot is what failed: the target
has been written by then, and it is not put back.  Main statements:

* `failed_iff` — **a failed target keeps its content exactly if it is not overwritten**, where
  `Overwritten` is a condition on the files before the pass;
* `failed_overwritten` — a target that failed and has other content than before.
-/

namespace LayeredConfig.Apply

open FileSystem (Sound Blocked)

variable {fs fs' : FileSystem} {layout : Layout} {config : Tree} {options : Options}
  {r : Path} {done targets : List Path}

/-! ## Failures -/

/-- Whether a target is overwritten with other content although its turn fails: it is judged to be
written, and only then its snapshot turns out to be blocked. -/
def Overwritten (layout : Layout) (config : Tree) (options : Options) (fs : FileSystem)
    (r : Path) : Prop :=
  options.dryRun = false ∧ ∃ plan,
    judge fs layout config (options.accepted.contains r) r = .ok plan ∧
    fs.fileAt? (layout.targetPlace fs.workingDirectory r) ≠ some (Utf8.encode plan.content) ∧
    Blocked fs (layout.configPlace fs.workingDirectory) (Layout.snapshotsName :: r.names)

/-- What a target holds when its turn has failed, by what the files were before the pass. -/
theorem failed_turn (h : Ready layout targets fs)
    (ht : Touched layout (rendered layout fs done) fs fs') (hdone : ∀ r ∈ done, r ∈ targets)
    (hr : r ∈ targets) (hnot : r ∉ done) {failure : Failure}
    (hfail : (applyTarget layout config options r fs').1 = .error failure) :
    (applyTarget layout config options r fs').2.fileAt?
        (layout.snapshotPlace fs.workingDirectory r) =
      fs'.fileAt? (layout.snapshotPlace fs.workingDirectory r) ∧
    ((applyTarget layout config options r fs').2.fileAt?
        (layout.targetPlace fs.workingDirectory r) =
      fs.fileAt? (layout.targetPlace fs.workingDirectory r) ↔
        ¬Overwritten layout config options fs r) := by
  have hdone' : ∀ r ∈ rendered layout fs done, r ∈ targets :=
    fun r hr => hdone r (mem_of_rendered hr)
  have hnot' : r ∉ rendered layout fs done := fun hmem => hnot (mem_of_rendered hmem)
  have hready := h.touched ht hdone'
  have hwd := ht.workingDirectory
  have htarget : fs'.fileAt? (layout.targetPlace fs.workingDirectory r) =
      fs.fileAt? (layout.targetPlace fs.workingDirectory r) :=
    h.place_eq ht hdone' hr hnot' (by simp [Layout.places])
  have hsnapshot := applyTarget_snapshot config options hready hr
    fun applied hok => by simp [hfail] at hok
  rw [hwd] at hsnapshot
  rcases (applyTarget_error hready hr hfail).2 with
    ⟨hjudge, hsame⟩ | ⟨plan, hdry, hjudge, hblocked, hput⟩
  · refine ⟨hsnapshot, ?_⟩
    rw [hsame]
    apply iff_of_true htarget
    intro hover
    obtain ⟨-, plan, hbefore, -, -⟩ := hover
    rw [h.judge_eq ht hdone hr hnot (template_of_judge h.sound hbefore), hbefore] at hjudge
    simp at hjudge
  · have htemplate := template_of_judge hready.sound hjudge
    rw [hwd, h.template_eq ht hdone' hr] at htemplate
    have hplain := h.plain r hr htemplate
    rw [h.judge_eq ht hdone hr hnot htemplate] at hjudge
    rw [hwd, h.blocked_iff ht hdone hplain htemplate] at hblocked
    obtain ⟨old, hold⟩ := hready.target r hr
    have hface := (becomes_target hready.sound hold (Utf8.encode plan.content)).face
    rw [← hput, hwd] at hface
    have hwritten := hface (layout.targetPlace fs.workingDirectory r)
    rw [if_pos rfl] at hwritten
    refine ⟨hsnapshot, ?_⟩
    rw [FileSystem.fileAt?_eq_some_iff.mpr hwritten]
    constructor
    · intro heq hover
      obtain ⟨-, other, hother, hne, -⟩ := hover
      obtain rfl : other = plan := Except.ok.inj (hother.symm.trans hjudge)
      exact hne heq.symm
    · intro hkept
      by_contra hne
      exact hkept ⟨hdry, plan, hjudge, Ne.symm hne, hblocked⟩

/-- A failed target keeps its snapshot, and it keeps its content exactly if it is not
overwritten. -/
theorem failed_iff {pass : Pass} (hs : fs.Sound) (hscheduled : scheduled layout fs = .ok targets)
    (hapart : layout.Apart fs.workingDirectory targets)
    (hrun : run layout config options fs = .ok pass) {failure : Failure}
    (hfailure : failure ∈ pass.report.failures) :
    pass.after.fileAt? (layout.snapshotPlace fs.workingDirectory failure.target) =
      fs.fileAt? (layout.snapshotPlace fs.workingDirectory failure.target) ∧
    (pass.after.fileAt? (layout.targetPlace fs.workingDirectory failure.target) =
      fs.fileAt? (layout.targetPlace fs.workingDirectory failure.target) ↔
        ¬Overwritten layout config options fs failure.target) := by
  obtain ⟨listed, hlisted, hexist, rfl⟩ := run_eq_ok_iff.mp hrun
  obtain rfl : listed = targets := Except.ok.inj (hlisted.symm.trans hscheduled)
  have hready := Ready.of_scheduled hs hscheduled hexist hapart
  obtain ⟨before, r, later, hsplit, hfail⟩ := mem_failures_iff.mp hfailure
  have hturn := hready.atTurn hsplit config options
  obtain ⟨hsnapshot, hiff⟩ :=
    failed_turn hready hturn.touched hturn.before_mem hturn.mem hturn.not_before hfail
  rw [(applyTarget_error hturn.ready hturn.mem hfail).1,
    hturn.after_eq _ (by simp [Layout.places]), hturn.after_eq _ (by simp [Layout.places]),
    hsnapshot]
  exact ⟨hturn.place_eq hready (by simp [Layout.places]), hiff⟩

/-! ## A target that is overwritten -/

/-- The target `a/b`. -/
def tornTarget : Path := Path.ofText ['a', '/', 'b']

/-- A template `a/b` and its target, with a file in the place of the directory that the snapshot
of `a/b` would have to be in. -/
def tornFiles : FileSystem where
  root :=
    [(Layout.defaultConfigDir, .directory
      [(Layout.snapshotsName, .directory [(['a'], .file (Utf8.encode "blocks".toList))]),
        (Layout.templatesName, .directory
          [(['a'], .directory [(['b'], .file (Utf8.encode "new".toList))])])]),
      (['a'], .directory [(['b'], .file (Utf8.encode "old".toList))])]
  workingDirectory := []

theorem prepared_tornFiles : Prepared .usual tornFiles [tornTarget] := by decide +kernel

/-- The blocked snapshot fails the target after it has been written. -/
theorem applyAll_tornFiles :
    let pass := applyAll .usual [] .plain [tornTarget] tornFiles
    Failure.access tornTarget
        (.access "_overmodel/.files/a".toList .exists) ∈ pass.report.failures ∧
      pass.after.fileAt? (Layout.usual.targetPlace [] tornTarget) ≠
        tornFiles.fileAt? (Layout.usual.targetPlace [] tornTarget) := by
  decide +kernel

theorem failed_iff_torn :
    ∃ pass failure, run .usual [] .plain tornFiles = .ok pass ∧
      failure ∈ pass.report.failures ∧
      pass.after.fileAt? (Layout.usual.snapshotPlace [] failure.target) =
        tornFiles.fileAt? (Layout.usual.snapshotPlace [] failure.target) ∧
      (pass.after.fileAt? (Layout.usual.targetPlace [] failure.target) =
        tornFiles.fileAt? (Layout.usual.targetPlace [] failure.target) ↔
          ¬Overwritten .usual [] .plain tornFiles failure.target) :=
  ⟨_, _, prepared_tornFiles.run_eq [] .plain, applyAll_tornFiles.1,
    failed_iff prepared_tornFiles.sound prepared_tornFiles.scheduled_eq prepared_tornFiles.apart
      (prepared_tornFiles.run_eq [] .plain) applyAll_tornFiles.1⟩

/-- A target that failed is not always left as it was. -/
theorem failed_overwritten :
    ¬∀ (layout : Layout) (config : Tree) (options : Options) (fs : FileSystem)
      (targets : List Path) (pass : Pass), fs.Sound → scheduled layout fs = .ok targets →
      layout.Apart fs.workingDirectory targets → run layout config options fs = .ok pass →
      ∀ failure ∈ pass.report.failures,
        pass.after.fileAt? (layout.targetPlace fs.workingDirectory failure.target) =
            fs.fileAt? (layout.targetPlace fs.workingDirectory failure.target) ∧
          pass.after.fileAt? (layout.snapshotPlace fs.workingDirectory failure.target) =
            fs.fileAt? (layout.snapshotPlace fs.workingDirectory failure.target) := by
  intro hkept
  have hsame := (hkept .usual [] .plain tornFiles [tornTarget] _ prepared_tornFiles.sound
    prepared_tornFiles.scheduled_eq prepared_tornFiles.apart
    (prepared_tornFiles.run_eq [] .plain) _ applyAll_tornFiles.1).1
  exact applyAll_tornFiles.2 hsame

end LayeredConfig.Apply
