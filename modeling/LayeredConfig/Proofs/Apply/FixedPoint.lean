import LayeredConfig.Proofs.Apply.Writes

/-!
# A successful pass is a fixed point

A pass in which nothing fails leaves every target and its snapshot with what the template is
rendered to.  Files like this are *settled*: another pass finds every target unchanged, writes what
is there already and makes nothing new.  Main statements:

* `Settled.of_success` — a pass without failures settles the targets;
* `Ready.scheduled_touched` — the turns of targets do not change which targets are scheduled;
* `Settled.report_eq`, `Settled.face_eq` — a pass over settled targets reports every one of them as
  unchanged and leaves every place as it is;
* `Settled.no_drift` — no configuration makes a settled target one that was edited;
* `run_again` — **the pass after a successful one**.
-/

namespace LayeredConfig.Apply

open FileSystem (Sound)

variable {fs fs' : FileSystem} {layout : Layout} {config config' : Tree} {options : Options}
  {r : Path} {done targets : List Path} {pass : Pass} {content : Path → Text}

/-- Whether every target and its snapshot hold what the template is rendered to. -/
structure Settled (layout : Layout) (config : Tree) (targets : List Path)
    (content : Path → Text) (fs : FileSystem) : Prop where
  ready : Ready layout targets fs
  text : ∀ r ∈ targets, renderTarget fs layout config r = .ok (content r)
  target : ∀ r ∈ targets, fs.fileAt? (layout.targetPlace fs.workingDirectory r) =
    some (Utf8.encode (content r))
  snapshot : ∀ r ∈ targets, fs.fileAt? (layout.snapshotPlace fs.workingDirectory r) =
    some (Utf8.encode (content r))

/-! ## The first pass -/

/-- The turns of targets make no templates and remove none, so the same targets are scheduled. -/
theorem Ready.scheduled_touched (h : Ready layout targets fs) (ht : Touched layout done fs fs')
    (hdone : ∀ r ∈ done, r ∈ targets) (hscheduled : scheduled layout fs = .ok targets) :
    scheduled layout fs' = .ok targets := by
  refine scheduled_congr h.sound ht.sound ht.keeps hscheduled fun names => ?_
  rcases ht.face (layout.configPlace fs.workingDirectory ++ Layout.templatesName :: names) with
    heq | ⟨-, hfile, r, hr, hplain, htarget | hsnapshot⟩ | ⟨hnone, hdir, -⟩
  · rw [FileSystem.fileAt?_congr heq]
  · rw [hfile, htarget, h.isSome_target (hdone r hr)]
  · -- Snapshots are in a directory of their own.
    rw [Layout.snapshotPlace_eq layout _ hplain] at hsnapshot
    have hname := (List.cons.inj (List.append_cancel_left hsnapshot)).1
    exact absurd hname (by decide)
  · simp [FileSystem.fileAt?, hnone, hdir, Face.content?]

/-- A pass without failures applies every target. -/
theorem applied_files_of_success
    (hsuccess : (applyAll layout config options targets fs).report.failures = []) :
    (applyAll layout config options targets fs).report.applied.map Applied.file = targets := by
  obtain ⟨hperm, hsub, -⟩ := entries_of_report layout config options targets fs
  rw [hsuccess, List.map_nil, List.append_nil] at hperm
  exact hsub.eq_of_length hperm.length_eq

/-- A pass without failures settles the targets, and the report has the checksums of what they
hold. -/
theorem Settled.of_success (h : Ready layout targets fs) (hdry : options.dryRun = false)
    (hsuccess : (applyAll layout config options targets fs).report.failures = []) :
    ∃ content,
      Settled layout config targets content (applyAll layout config options targets fs).after ∧
      ∀ applied ∈ (applyAll layout config options targets fs).report.applied,
        applied.checksum = Sha256.checksum (Utf8.encode (content applied.file)) := by
  have hpass := touched_applyAll config options h fun _ hr => hr
  have hdone : ∀ r ∈ rendered layout fs targets, r ∈ targets := fun r hr => mem_of_rendered hr
  have hfiles := applied_files_of_success hsuccess
  have hall : ∀ r ∈ targets, ∃ text, renderTarget fs layout config r = .ok text ∧
      (applyAll layout config options targets fs).after.fileAt?
        (layout.targetPlace fs.workingDirectory r) = some (Utf8.encode text) ∧
      (applyAll layout config options targets fs).after.fileAt?
        (layout.snapshotPlace fs.workingDirectory r) = some (Utf8.encode text) := by
    intro r hr
    rw [← hfiles] at hr
    obtain ⟨applied, hmem, rfl⟩ := List.mem_map.mp hr
    obtain ⟨-, -, plan, hjudge, -, htarget, hsnapshot⟩ := h.applied hdry hmem
    exact ⟨plan.content, (judge_eq_ok_iff.mp hjudge).2, htarget, hsnapshot⟩
  choose! content hcontent using hall
  refine ⟨content, ⟨h.touched hpass hdone, ?_, ?_, ?_⟩, ?_⟩
  · intro r hr
    have htemplate := template_of_renderTarget h.sound (hcontent r hr).1
    rw [h.renderTarget_eq hpass hdone hr htemplate]
    exact (hcontent r hr).1
  · rw [hpass.workingDirectory]
    exact fun r hr => (hcontent r hr).2.1
  · rw [hpass.workingDirectory]
    exact fun r hr => (hcontent r hr).2.2
  · intro applied hmem
    obtain ⟨hr, -, plan, hjudge, hentry, -⟩ := h.applied hdry hmem
    have hrender := (judge_eq_ok_iff.mp hjudge).2
    rw [(hcontent applied.file hr).1] at hrender
    rw [Except.ok.inj hrender]
    exact congrArg Applied.checksum hentry

/-! ## The second pass -/

/-- A target that can be compared with its snapshot is judged by its template. -/
theorem judge_of_compareSnapshot {accepted : Bool} {state : TargetState}
    (h : compareSnapshot fs layout accepted r = .ok state) (config : Tree) :
    judge fs layout config accepted r = (renderTarget fs layout config r).map (⟨state, ·⟩) := by
  rw [judge, h]
  cases renderTarget fs layout config r with
  | error failure => rfl
  | ok text => rfl

namespace Settled

variable (h : Settled layout config targets content fs)

include h

theorem plain (hr : r ∈ targets) : r.Plain :=
  h.ready.plain r hr (template_of_renderTarget h.ready.sound (h.text r hr))

/-- A settled target is unchanged, accepted or not. -/
theorem compareSnapshot_eq (hr : r ∈ targets) (accepted : Bool) :
    compareSnapshot fs layout accepted r = .ok .unchanged := by
  rw [Apply.compareSnapshot_eq h.ready.sound h.ready.enters (h.plain hr)
    (h.ready.readBytes_target hr (h.target r hr)), h.snapshot r hr]
  simp only [if_true]

theorem judge_eq (hr : r ∈ targets) (accepted : Bool) :
    judge fs layout config accepted r = .ok ⟨.unchanged, content r⟩ :=
  judge_eq_ok_iff.mpr ⟨h.compareSnapshot_eq hr accepted, h.text r hr⟩

/-- The snapshot of a settled target is a file, so it can be written. -/
theorem not_writeFails (hr : r ∈ targets) : ¬WriteFails layout options fs r := by
  intro hfails
  refine FileSystem.not_blocked_of_file (List.cons_ne_nil _ _) ?_ hfails.blocked
  rw [← Layout.snapshotPlace_eq layout _ (h.plain hr), h.snapshot r hr]
  rfl

theorem template (hr : r ∈ targets) :
    (fs.fileAt? (layout.templatePlace fs.workingDirectory r)).isSome :=
  template_of_renderTarget h.ready.sound (h.text r hr)

/-- The turn of a settled target succeeds. -/
theorem applyTarget_eq {before : List Path}
    (hturn : AtTurn layout config options targets fs before r) :
    (applyTarget layout config options r (applyAll layout config options before fs).after).1 =
      .ok (appliedEntry options r ⟨.unchanged, content r⟩) :=
  ((hturn.outcome h.ready (h.template hturn.mem)).2 _ (h.judge_eq hturn.mem _)).2
    (h.not_writeFails hturn.mem)

/-- A pass over settled targets reports each of them as unchanged. -/
theorem report_eq (options : Options) :
    (applyAll layout config options targets fs).report =
      ⟨targets.map fun r => appliedEntry options r ⟨.unchanged, content r⟩, [],
        options.dryRun⟩ :=
  report_of_ok fun _ _ _ hsplit => h.applyTarget_eq (h.ready.atTurn hsplit config options)

/-- The files of a settled target are as they were after a pass. -/
theorem fileAt?_eq (options : Options) (hr : r ∈ targets) {l : Location}
    (hl : l = layout.targetPlace fs.workingDirectory r ∨
      l = layout.snapshotPlace fs.workingDirectory r) :
    (applyAll layout config options targets fs).after.fileAt? l = fs.fileAt? l := by
  obtain ⟨before, later, hsplit⟩ := List.append_of_mem hr
  have hturn := h.ready.atTurn hsplit config options
  have hplaces : l ∈ layout.places fs.workingDirectory r := by
    rcases hl with rfl | rfl <;> simp [Layout.places]
  obtain ⟨plan, hjudge, -, ⟨-, hsame⟩ | ⟨-, htarget, hsnapshot⟩⟩ :=
    applyTarget_ok hturn.ready hr (h.applyTarget_eq hturn)
  · rw [hturn.after_eq l hplaces, hsame, hturn.place_eq h.ready hplaces]
  · -- What is written is what was there.
    rw [hturn.judge_eq h.ready (h.template hr), h.judge_eq hr] at hjudge
    obtain rfl := Except.ok.inj hjudge
    rw [hturn.touched.workingDirectory] at htarget hsnapshot
    rw [hturn.after_eq l hplaces]
    rcases hl with rfl | rfl
    · rw [htarget, h.target r hr]
    · rw [hsnapshot, h.snapshot r hr]

/-- A pass over settled targets leaves every place as it is. -/
theorem face_eq (options : Options) (l : Location) :
    (applyAll layout config options targets fs).after.faceAt? l = fs.faceAt? l := by
  have hpass := touched_applyAll config options h.ready fun _ hr => hr
  rcases hpass.face l with heq | ⟨-, hfile, r, hr, -, hl⟩ | ⟨hnone, -, r, hr, hplain, hway⟩
  · exact heq
  · obtain ⟨bytes, hbytes⟩ := Option.isSome_iff_exists.mp hfile
    rw [FileSystem.fileAt?_eq_some_iff.mp hbytes, eq_comm, ← FileSystem.fileAt?_eq_some_iff,
      ← h.fileAt?_eq options (mem_of_rendered hr) hl, hbytes]
  · -- The way to the snapshot of a settled target is made already.
    have hsnapshot := h.snapshot r (mem_of_rendered hr)
    rw [Layout.snapshotPlace_eq layout _ hplain, FileSystem.fileAt?_eq_some_iff] at hsnapshot
    have hdir := FileSystem.faceAt?_of_onWay_dropLast (List.cons_ne_nil _ _) hway
      (by rw [hsnapshot]; simp)
    simp [hdir] at hnone

/-- No configuration makes a settled target one that was edited. -/
theorem no_drift (config' : Tree) (options : Options) :
    ∀ failure ∈ (applyAll layout config' options targets fs).report.failures,
      failure.isDrift = false := by
  intro failure hmem
  obtain ⟨before, r, later, hsplit, hfail⟩ := mem_failures_iff.mp hmem
  have hturn := h.ready.atTurn hsplit config' options
  have hjudge := hturn.judge_eq h.ready (h.template hturn.mem) (options.accepted.contains r)
  rw [judge_of_compareSnapshot (h.compareSnapshot_eq hturn.mem _)] at hjudge
  cases hrender : renderTarget fs layout config' r with
  | error found =>
    rw [hrender] at hjudge
    rw [applyTarget_of_error hjudge] at hfail
    obtain rfl := Except.error.inj hfail
    exact isDrift_of_renderTarget hrender
  | ok text =>
    rw [hrender] at hjudge
    obtain ⟨e, rfl⟩ := applyTarget_error_of_ok hjudge hfail
    rfl

end Settled

/-! ## Two passes -/

/-- **A successful pass is a fixed point.**  After a pass without failures another one with the
same configuration applies the same targets in the same order with the same checksums, finds all of
them unchanged and leaves every place as it is; and a pass with any configuration finds no target
that was edited. -/
theorem run_again (hs : fs.Sound) (hscheduled : scheduled layout fs = .ok targets)
    (hapart : layout.Apart fs.workingDirectory targets) (hdry : options.dryRun = false)
    (hrun : run layout config options fs = .ok pass) (hsuccess : pass.report.failures = [])
    (options' : Options) :
    (∃ again, run layout config options' pass.after = .ok again ∧
      again.report.failures = [] ∧
      again.report.applied = pass.report.applied.map (fun applied =>
        { file := applied.file
          state := .unchanged
          accepted := options'.accepted.contains applied.file
          checksum := applied.checksum
          written := !options'.dryRun }) ∧
      ∀ l, again.after.faceAt? l = pass.after.faceAt? l) ∧
    ∀ config', ∃ again, run layout config' options' pass.after = .ok again ∧
      ∀ failure ∈ again.report.failures, failure.isDrift = false := by
  obtain ⟨listed, hlisted, hexist, rfl⟩ := run_eq_ok_iff.mp hrun
  obtain rfl : listed = targets := Except.ok.inj (hlisted.symm.trans hscheduled)
  have hready := Ready.of_scheduled hs hscheduled hexist hapart
  obtain ⟨content, hsettled, hchecksums⟩ := Settled.of_success hready hdry hsuccess
  have hagain := hready.scheduled_touched (touched_applyAll config options hready fun _ hr => hr)
    (fun r hr => mem_of_rendered hr) hscheduled
  have hrun' : ∀ config', run layout config' options'
      (applyAll layout config options listed fs).after =
        .ok (applyAll layout config' options' listed
          (applyAll layout config options listed fs).after) :=
    fun config' => run_eq_ok_iff.mpr ⟨listed, hagain,
      fun r hr => FileSystem.isFile_iff.mpr (hsettled.ready.target r hr), rfl⟩
  refine ⟨⟨_, hrun' config, ?_, ?_, hsettled.face_eq options'⟩, fun config' =>
    ⟨_, hrun' config', hsettled.no_drift config' options'⟩⟩
  · rw [hsettled.report_eq]
  · rw [hsettled.report_eq]
    conv_lhs => rw [← applied_files_of_success hsuccess]
    rw [List.map_map]
    refine List.map_congr_left fun applied hmem => ?_
    rw [hchecksums applied hmem]
    rfl

/-- A configuration with values for `x` and `y`. -/
def configWithXY : Tree :=
  configWithX ++ [(['y'], .branch [(Tree.valueKey, .scalar ['2'])])]

/-- The options of a pass that accepts the target `b`. -/
def acceptingB : Options := ⟨.ofList [['b']], false⟩

/-- With a value for every name and the edited target accepted, the second pass finds three
unchanged targets; without any value it still finds no target that was edited. -/
theorem run_again_mixed :
    ∃ pass, run .usual configWithXY acceptingB mixedFiles = .ok pass ∧
      (∃ again, run .usual configWithXY .plain pass.after = .ok again ∧
        again.report.failures = [] ∧
        again.report.applied.map (fun applied => (applied.file, applied.state)) =
          [(Path.ofText ['a'], .unchanged), (Path.ofText ['b'], .unchanged),
            (Path.ofText ['c', '/', 'd'], .unchanged)] ∧
        ∀ l, again.after.faceAt? l = pass.after.faceAt? l) ∧
      ∃ again, run .usual [] .plain pass.after = .ok again ∧
        ∀ failure ∈ again.report.failures, failure.isDrift = false := by
  have hrun := prepared_mixedFiles.run_eq configWithXY acceptingB
  have hsuccess : (applyAll .usual configWithXY acceptingB mixedTargets
      mixedFiles).report.failures = [] := by decide +kernel
  obtain ⟨⟨again, hagain, hfailures, happlied, hsame⟩, hother⟩ :=
    run_again prepared_mixedFiles.sound prepared_mixedFiles.scheduled_eq prepared_mixedFiles.apart
      rfl hrun hsuccess .plain
  refine ⟨_, hrun, ⟨again, hagain, hfailures, ?_, hsame⟩, hother []⟩
  have hfiles := congrArg (List.map fun file => (file, TargetState.unchanged))
    (applied_files_of_success hsuccess)
  rw [happlied, List.map_map]
  rw [List.map_map] at hfiles
  exact hfiles

end LayeredConfig.Apply
