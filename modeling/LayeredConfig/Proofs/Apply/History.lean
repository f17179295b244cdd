import LayeredConfig.Proofs.Apply.Writes

/-!
# Drift protection over a whole history

A configuration directory is used again and again: passes with changing configurations and options
take turns with changes that people and other programs make to targets, templates and anything
else but the snapshots.  `History` is all the files that can come of this, together with the last
pass that wrote each target.  Main statements:

* `Guarded` — the invariant: the snapshot of a target holds what the last pass wrote to it;
* `Guarded.of_applied` — a pass that writes a target establishes it;
* `Guarded.of_not_applied` — **every other pass preserves it**, whatever becomes of the other
  targets;
* `Guarded.target_kept` — while it holds, a target with other content is not overwritten unless it
  is accepted;
* `History.drift_protection` — both, at every point of every history.
-/

namespace LayeredConfig.Apply

open FileSystem (Sound NoBackslash Keeps)

variable {fs fs' : FileSystem} {layout : Layout} {config : Tree} {options : Options} {pass : Pass}
  {r : Path} {targets : List Path}

/-! ## Histories -/

/-- A well-formed file system with neither links nor backslashes in names. -/
structure Calm (fs : FileSystem) : Prop where
  sound : fs.Sound
  noBackslash : fs.NoBackslash

/-- A pass that wrote a target: its configuration, and the files before and after it. -/
structure Application where
  config : Tree
  before : FileSystem
  after : FileSystem

/-- The files after a pass, or after one that was refused. -/
def afterRun (layout : Layout) (config : Tree) (options : Options) (fs : FileSystem) :
    FileSystem :=
  match run layout config options fs with
  | .ok pass => pass.after
  | .error _ => fs

/-- The last application of each target after a pass: this pass for those that it reports as
applied, if it writes at all. -/
def noteApplied (layout : Layout) (config : Tree) (options : Options) (fs : FileSystem)
    (last : Path → Option Application) (r : Path) : Option Application :=
  match run layout config options fs with
  | .ok pass =>
    if options.dryRun = false ∧ r ∈ pass.report.applied.map Applied.file then
      some ⟨config, fs, pass.after⟩
    else last r
  | .error _ => last r

/-- What can become of files by passes on one layout and by changes from outside that leave the
snapshots alone, and the last application of each target. -/
inductive History (layout : Layout) : FileSystem → (Path → Option Application) → Prop
  | start {fs : FileSystem} (calm : Calm fs) : History layout fs fun _ => none
  | outside {fs fs' : FileSystem} {last : Path → Option Application}
      (history : History layout fs last) (calm : Calm fs')
      (workingDirectory : fs'.workingDirectory = fs.workingDirectory)
      (snapshots : ∀ rest : Location, rest ≠ [] →
        fs'.fileAt? (layout.configPlace fs.workingDirectory ++ Layout.snapshotsName :: rest) =
          fs.fileAt? (layout.configPlace fs.workingDirectory ++ Layout.snapshotsName :: rest)) :
      History layout fs' last
  | pass {fs : FileSystem} {last : Path → Option Application} (config : Tree) (options : Options)
      (history : History layout fs last) (outside : TargetsOutside layout fs) :
      History layout (afterRun layout config options fs) (noteApplied layout config options fs last)

/-! ## Passes over calm files -/

theorem Calm.ready (hc : Calm fs) (hout : TargetsOutside layout fs)
    (h : scheduled layout fs = .ok targets)
    (hexist : ∀ r ∈ targets, fs.isFile (layout.target r).text = true) : Ready layout targets fs :=
  Ready.of_scheduled hc.sound h hexist (apart_of_noBackslash hc.sound hc.noBackslash h hout)

/-- A pass makes no names with backslashes. -/
theorem Calm.touched (hc : Calm fs) (h : Ready layout targets fs) {done : List Path}
    (ht : Touched layout done fs fs') (hdone : ∀ r ∈ done, r ∈ targets) : Calm fs' := by
  -- The names on the way to a snapshot are those of the directory and of the target.
  have hsnapshot : ∀ r : Path, ∀ name ∈ layout.configPlace fs.workingDirectory ++
      Layout.snapshotsName :: r.names, '\\' ∉ name := by
    intro r name hname
    rcases List.mem_append.mp hname with hname | hname
    · refine hc.noBackslash (layout.configPlace fs.workingDirectory) ?_ name hname
      rw [Layout.configPlace, h.enters.directory]
      simp
    · rcases List.mem_cons.mp hname with rfl | hname
      · decide
      · intro hslash
        apply r.no_backslash
        rw [Path.text_eq_join r]
        exact Text.mem_join hname hslash
  refine ⟨ht.sound, fun l hface name hname => ?_⟩
  rcases ht.face l with heq | ⟨-, -, r, hr, hplain, htarget | hl⟩ | ⟨-, -, r, -, -, hway⟩
  · exact hc.noBackslash l (heq ▸ hface) name hname
  · obtain ⟨old, hold⟩ := Option.isSome_iff_exists.mp (h.isSome_target (hdone r hr))
    refine hc.noBackslash l ?_ name hname
    rw [htarget, FileSystem.fileAt?_eq_some_iff.mp hold]
    simp
  · rw [hl, Layout.snapshotPlace_eq layout _ hplain] at hname
    exact hsnapshot r name hname
  · apply hsnapshot r name
    rcases List.mem_append.mp (hway.2.2.subset hname) with hname | hname
    · exact List.mem_append_left _ hname
    · exact List.mem_append_right _ ((List.dropLast_prefix _).subset hname)

theorem Calm.afterRun (hc : Calm fs) (hout : TargetsOutside layout fs) (config : Tree)
    (options : Options) : Calm (afterRun layout config options fs) := by
  unfold Apply.afterRun
  cases hrun : run layout config options fs with
  | error e => exact hc
  | ok pass =>
    obtain ⟨targets, hscheduled, hexist, rfl⟩ := run_eq_ok_iff.mp hrun
    have hready := hc.ready hout hscheduled hexist
    exact hc.touched hready (touched_applyAll config options hready fun _ hr => hr)
      fun r hr => mem_of_rendered hr

/-! ## The invariant -/

/-- What is known of a target after its last application: the snapshot holds what was rendered
and written then. -/
structure Guarded (layout : Layout) (fs : FileSystem) (r : Path) (last : Application)
    (content : Text) : Prop where
  plain : r.Plain
  outside : ∀ rest : Location, rest ≠ [] →
    layout.targetPlace fs.workingDirectory r ≠ layout.configPlace fs.workingDirectory ++ rest
  rendered : renderTarget last.before layout last.config r = .ok content
  written : last.after.readBytes (layout.target r).text = .ok (Utf8.encode content)
  snapshot : fs.fileAt? (layout.snapshotPlace fs.workingDirectory r) = some (Utf8.encode content)

namespace Guarded

variable {last : Application} {content : Text}

/-- Changes elsewhere leave a target guarded. -/
theorem congr (h : Guarded layout fs r last content)
    (hwd : fs'.workingDirectory = fs.workingDirectory)
    (hsame : fs'.fileAt? (layout.snapshotPlace fs.workingDirectory r) =
      fs.fileAt? (layout.snapshotPlace fs.workingDirectory r)) :
    Guarded layout fs' r last content where
  plain := h.plain
  outside := hwd ▸ h.outside
  rendered := h.rendered
  written := h.written
  snapshot := by rw [hwd, hsame, h.snapshot]

/-- The files of a guarded target that has no turn in a pass are not written in it. -/
theorem not_written (h : Guarded layout fs r last content) (hout : TargetsOutside layout fs)
    (hscheduled : scheduled layout fs = .ok targets) (hr : r ∉ targets) {l : Location}
    (hl : l = layout.targetPlace fs.workingDirectory r ∨
      l = layout.snapshotPlace fs.workingDirectory r) :
    ∀ r' ∈ targets, ¬Written layout fs.workingDirectory r' l := by
  intro r' hr' hwritten
  obtain ⟨hplain', hl'⟩ := hwritten
  have hne : r.names ≠ r'.names := fun heq => hr (Path.eq_of_names_eq heq ▸ hr')
  have htargets := hout targets hscheduled r' hr'
  rcases hl with rfl | rfl
  · rcases hl' with heq | heq
    · rw [Layout.targetPlace_eq layout _ h.plain, Layout.targetPlace_eq layout _ hplain'] at heq
      exact hne (List.append_cancel_left heq)
    · rw [Layout.snapshotPlace_eq layout _ hplain'] at heq
      exact h.outside _ (List.cons_ne_nil _ _) heq
  · rcases hl' with heq | heq
    · rw [Layout.snapshotPlace_eq layout _ h.plain] at heq
      exact htargets _ (List.cons_ne_nil _ _) heq.symm
    · rw [Layout.snapshotPlace_eq layout _ h.plain, Layout.snapshotPlace_eq layout _ hplain'] at heq
      exact hne (List.cons.inj (List.append_cancel_left heq)).2

/-- A pass that writes a target guards it. -/
theorem of_applied (hc : Calm fs) (hout : TargetsOutside layout fs)
    (hrun : run layout config options fs = .ok pass) (hdry : options.dryRun = false)
    (hr : r ∈ pass.report.applied.map Applied.file) :
    ∃ content, Guarded layout pass.after r ⟨config, fs, pass.after⟩ content := by
  obtain ⟨targets, hscheduled, hexist, rfl⟩ := run_eq_ok_iff.mp hrun
  have hready := hc.ready hout hscheduled hexist
  have hpass := touched_applyAll config options hready fun _ h => h
  have hafter := hready.touched hpass fun r hr => mem_of_rendered hr
  obtain ⟨applied, hmem, rfl⟩ := List.mem_map.mp hr
  obtain ⟨hr, hplain, plan, hjudge, -, htarget, hsnapshot⟩ := hready.applied hdry hmem
  rw [← hpass.workingDirectory] at htarget hsnapshot
  refine ⟨plan.content, hplain, ?_, (judge_eq_ok_iff.mp hjudge).2,
    hafter.readBytes_target hr htarget, hsnapshot⟩
  rw [hpass.workingDirectory]
  exact hout targets hscheduled applied.file hr

/-- A pass that does not write a target leaves its snapshot alone. -/
theorem of_not_applied (h : Guarded layout fs r last content) (hc : Calm fs)
    (hout : TargetsOutside layout fs) (hrun : run layout config options fs = .ok pass)
    (hnot : ¬(options.dryRun = false ∧ r ∈ pass.report.applied.map Applied.file)) :
    Guarded layout pass.after r last content := by
  obtain ⟨targets, hscheduled, hexist, rfl⟩ := run_eq_ok_iff.mp hrun
  have hready := hc.ready hout hscheduled hexist
  have hpass := touched_applyAll config options hready fun _ h => h
  apply h.congr hpass.workingDirectory
  by_cases hr : r ∈ targets
  · obtain ⟨before, later, hsplit⟩ := List.append_of_mem hr
    have hturn := hready.atTurn hsplit config options
    have hsnapshot := applyTarget_snapshot config options hturn.ready hr
      fun applied hok => by
        by_contra hdry
        refine hnot ⟨by simpa using hdry, List.mem_map.mpr
          ⟨applied, mem_applied_iff.mpr ⟨before, r, later, hsplit, hok⟩, ?_⟩⟩
        obtain ⟨plan, -, rfl, -⟩ := applyTarget_ok hturn.ready hr hok
        rfl
    rw [hturn.touched.workingDirectory] at hsnapshot
    rw [hturn.after_eq _ (by simp [Layout.places]), hsnapshot]
    exact hturn.place_eq hready (by simp [Layout.places])
  · exact hpass.fileAt?_eq fun r' hr' =>
      h.not_written hout hscheduled hr (Or.inr rfl) r' (mem_of_rendered hr')

/-- A guarded target that holds something else is not overwritten unless it is accepted. -/
theorem target_kept (h : Guarded layout fs r last content) (hc : Calm fs)
    (hout : TargetsOutside layout fs) (config : Tree) (options : Options)
    (haccepted : options.accepted.contains r = false) {bytes : Bytes}
    (hread : fs.readBytes (layout.target r).text = .ok bytes)
    (hdrift : bytes ≠ Utf8.encode content) :
    (afterRun layout config options fs).readBytes (layout.target r).text = .ok bytes := by
  unfold afterRun
  cases hrun : run layout config options fs with
  | error e => exact hread
  | ok pass =>
    obtain ⟨targets, hscheduled, hexist, rfl⟩ := run_eq_ok_iff.mp hrun
    have hready := hc.ready hout hscheduled hexist
    have hpass := touched_applyAll config options hready fun _ h => h
    apply FileSystem.readBytes_of_keeps hc.sound.linkFree hpass.sound.linkFree hpass.keeps hread
    by_cases hr : r ∈ targets
    · obtain ⟨before, later, hsplit⟩ := List.append_of_mem hr
      have hturn := hready.atTurn hsplit config options
      -- At its turn the target still differs from its snapshot, so it is left alone.
      have hold := FileSystem.readBytes_of_keeps hc.sound.linkFree hturn.ready.sound.linkFree
        hturn.touched.keeps hread
        (hturn.place_eq hready (by simp [Layout.places, Layout.targetPlace]))
      have hsnapshot := (hturn.place_eq hready (by simp [Layout.places])).trans h.snapshot
      rw [← hturn.touched.workingDirectory] at hsnapshot
      have hcompare := compareSnapshot_eq hturn.ready.sound hturn.ready.enters h.plain hold false
      rw [hsnapshot] at hcompare
      simp only [if_neg hdrift, Bool.false_eq_true, if_false] at hcompare
      obtain ⟨failure, hjudge⟩ : ∃ failure, judge (applyAll layout config options before fs).after
          layout config (options.accepted.contains r) r = .error failure :=
        ⟨_, by rw [haccepted, judge, hcompare]⟩
      have hplace := hturn.after_eq (layout.targetPlace fs.workingDirectory r)
        (by simp [Layout.places])
      rw [applyTarget_of_error hjudge] at hplace
      exact hplace.trans (hturn.place_eq hready (by simp [Layout.places]))
    · exact hpass.fileAt?_eq fun r' hr' =>
        h.not_written hout hscheduled hr (Or.inl rfl) r' (mem_of_rendered hr')

end Guarded

/-! ## Drift protection -/

theorem History.calm {last : Path → Option Application} (h : History layout fs last) : Calm fs := by
  induction h with
  | start calm => exact calm
  | outside _ calm _ _ _ => exact calm
  | pass config options _ hout ih => exact ih.afterRun hout config options

/-- The invariant holds for every target that was ever written. -/
theorem History.guarded {last : Path → Option Application} (h : History layout fs last)
    {application : Application} (hlast : last r = some application) :
    ∃ content, Guarded layout fs r application content := by
  induction h with
  | start calm => simp at hlast
  | outside history _ hwd hsnapshots ih =>
    obtain ⟨content, hguarded⟩ := ih hlast
    refine ⟨content, hguarded.congr hwd ?_⟩
    rw [Layout.snapshotPlace_eq layout _ hguarded.plain]
    exact hsnapshots r.names r.names_ne_nil
  | @pass fs last config options history hout ih =>
    have hcalm := history.calm
    unfold noteApplied at hlast
    unfold afterRun
    cases hrun : run layout config options fs with
    | error e =>
      rw [hrun] at hlast
      exact ih hlast
    | ok pass =>
      rw [hrun] at hlast
      simp only at hlast
      split_ifs at hlast with happlied
      · obtain rfl := Option.some.inj hlast
        exact Guarded.of_applied hcalm hout hrun happlied.1 happlied.2
      · obtain ⟨content, hguarded⟩ := ih hlast
        exact ⟨content, hguarded.of_not_applied hcalm hout hrun happlied⟩

/-- **Drift protection.**  From the first pass on that writes a target, its snapshot is what the
last such pass rendered and wrote, and as long as the target itself holds something else, no pass
that is not told to accept it changes it. -/
theorem History.drift_protection {last : Path → Option Application} (h : History layout fs last)
    {application : Application} (hlast : last r = some application) :
    ∃ content,
      renderTarget application.before layout application.config r = .ok content ∧
      application.after.readBytes (layout.target r).text = .ok (Utf8.encode content) ∧
      fs.fileAt? (layout.snapshotPlace fs.workingDirectory r) = some (Utf8.encode content) ∧
      (fs.isDirectory layout.snapshotsDir.text = true →
        fs.readBytes (layout.snapshot r).text = .ok (Utf8.encode content)) ∧
      ∀ config options bytes, TargetsOutside layout fs → options.accepted.contains r = false →
        fs.readBytes (layout.target r).text = .ok bytes → bytes ≠ Utf8.encode content →
        (afterRun layout config options fs).readBytes (layout.target r).text = .ok bytes := by
  obtain ⟨content, hguarded⟩ := h.guarded hlast
  have hcalm := h.calm
  refine ⟨content, hguarded.rendered, hguarded.written, hguarded.snapshot, fun hdir => ?_, ?_⟩
  · have henters : fs.Enters layout.configDir.text := by
      have hreach := ((FileSystem.isDirectory_iff hcalm.sound.linkFree).mp hdir).1
      rw [Layout.snapshotsDir_text] at hreach
      exact FileSystem.enters_of_reaches_below (by simp)
        (by simpa using Layout.properName_snapshotsName) hreach
    exact (readBytes_snapshot_iff hcalm.sound henters hguarded.plain).mpr hguarded.snapshot
  · intro config options bytes hout haccepted hread hdrift
    exact hguarded.target_kept hcalm hout config options haccepted hread hdrift

/-! ## A target that is edited between two passes -/

/-- The target `t`. -/
def editedTarget : Path := Path.ofText ['t']

/-- A template `t` and its target, before any pass. -/
def freshFiles : FileSystem where
  root :=
    [(Layout.defaultConfigDir, .directory
      [(Layout.templatesName, .directory [(['t'], .file (Utf8.encode "new".toList))])]),
      (['t'], .file (Utf8.encode "old".toList))]
  workingDirectory := []

/-- The first of the two passes. -/
def firstPass : Pass :=
  applyAll .usual [] .plain [editedTarget] freshFiles

/-- The files after it and an edit of the target. -/
def editedFiles : FileSystem :=
  firstPass.after.put [['t']] (.file (Utf8.encode "mine".toList))

theorem targetsOutside_of_single (h : scheduled .usual fs = .ok [editedTarget])
    (hwd : fs.workingDirectory = []) : TargetsOutside .usual fs := by
  intro targets hscheduled r hr rest _
  obtain rfl := Except.ok.inj (h.symm.trans hscheduled)
  obtain rfl := List.mem_singleton.mp hr
  have htarget : Layout.usual.targetPlace [] editedTarget = [['t']] := by decide
  have hconfig : Layout.usual.configPlace [] = [Layout.defaultConfigDir] := by decide
  rw [hwd, htarget, hconfig]
  intro heq
  exact absurd (List.cons.inj heq).1 (by decide)

theorem prepared_freshFiles : Prepared .usual freshFiles [editedTarget] := by decide +kernel

theorem run_freshFiles : run .usual [] .plain freshFiles = .ok firstPass :=
  prepared_freshFiles.run_eq [] .plain

/-- The first pass writes the target, and after it the edit is seen. -/
theorem written_firstPass :
    editedTarget ∈ firstPass.report.applied.map Applied.file ∧
      firstPass.after.workingDirectory = [] ∧
      firstPass.after.fileAt? [['t']] = some (Utf8.encode "new".toList) ∧
      firstPass.after.readBytes (Layout.usual.target editedTarget).text =
        .ok (Utf8.encode "new".toList) ∧
      editedFiles.readBytes (Layout.usual.target editedTarget).text =
        .ok (Utf8.encode "mine".toList) := by
  decide +kernel

theorem prepared_editedFiles : Prepared .usual editedFiles [editedTarget] := by decide +kernel

theorem history_firstPass :
    History .usual firstPass.after (noteApplied .usual [] .plain freshFiles fun _ => none) := by
  have hcalm : Calm freshFiles := ⟨prepared_freshFiles.sound, prepared_freshFiles.noBackslash⟩
  have hout : TargetsOutside .usual freshFiles :=
    targetsOutside_of_single prepared_freshFiles.scheduled_eq rfl
  have hpass := History.pass [] .plain (.start hcalm) hout
  have hafter : afterRun .usual [] .plain freshFiles = firstPass.after := by
    simp only [afterRun, run_freshFiles]
  rwa [hafter] at hpass

theorem noteApplied_freshFiles :
    noteApplied .usual [] .plain freshFiles (fun _ => none) editedTarget =
      some ⟨[], freshFiles, firstPass.after⟩ := by
  have happlied : Options.plain.dryRun = false ∧
      editedTarget ∈ firstPass.report.applied.map Applied.file := ⟨rfl, written_firstPass.1⟩
  simp only [noteApplied, run_freshFiles, if_pos happlied]

theorem history_editedFiles :
    History .usual editedFiles (noteApplied .usual [] .plain freshFiles fun _ => none) := by
  have hsound := history_firstPass.calm.sound
  obtain ⟨-, hwd, hwritten, -⟩ := written_firstPass
  have hconfig : Layout.usual.configPlace [] = [Layout.defaultConfigDir] := by decide
  have hedit := FileSystem.becomes_put hsound (FileSystem.fits_of_file hsound.regular hwritten)
    (DirEntry.fresh_file (Utf8.encode "mine".toList))
  refine .outside history_firstPass ⟨prepared_editedFiles.sound, prepared_editedFiles.noBackslash⟩
    hedit.workingDirectory ?_
  intro rest _
  -- The edit is seen at the target only.
  refine FileSystem.fileAt?_congr ?_
  rw [editedFiles, hedit.face, if_neg]
  rw [hwd, hconfig]
  intro heq
  exact absurd (List.cons.inj heq).1 (by decide)

/-- The snapshot still holds what the first pass wrote, and a second pass keeps the edit. -/
theorem drift_protection_edited :
    editedFiles.fileAt? (Layout.usual.snapshotPlace [] editedTarget) =
        some (Utf8.encode "new".toList) ∧
      (afterRun .usual [] .plain editedFiles).readBytes (Layout.usual.target editedTarget).text =
        .ok (Utf8.encode "mine".toList) := by
  obtain ⟨-, hwd, -, hnew, hmine⟩ := written_firstPass
  have hwd' : editedFiles.workingDirectory = [] := by rw [editedFiles, FileSystem.put, hwd]
  have hout : TargetsOutside .usual editedFiles :=
    targetsOutside_of_single prepared_editedFiles.scheduled_eq hwd'
  have haccepted : Options.plain.accepted.contains editedTarget = false := by decide
  obtain ⟨content, -, hwritten, hsnapshot, -, hkept⟩ :=
    history_editedFiles.drift_protection noteApplied_freshFiles
  dsimp only at hwritten
  rw [hnew] at hwritten
  have hcontent := Except.ok.inj hwritten
  rw [hwd', ← hcontent] at hsnapshot
  have hdrift : Utf8.encode "mine".toList ≠ Utf8.encode content := by
    rw [← hcontent]
    intro hsame
    exact absurd (String.toList_inj.mp (Utf8.encode_injective hsame)) (by decide)
  exact ⟨hsnapshot, hkept [] .plain _ hout haccepted hmine hdrift⟩

end LayeredConfig.Apply
