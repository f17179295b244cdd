import LayeredConfig.Proofs.Apply.Refusal
import LayeredConfig.Proofs.FileSystem.Descent

/-!
# What a rehearsal tells

A rehearsal judges every target on the files before the pass, while in the pass itself the turns of
other targets have changed files by then.  Still it tells what the pass comes to, as far as nothing
goes wrong with a write: the turns of other targets touch neither the files of a target nor, below
the directory of templates, what is there and what is not.  Only a path that leads up can tell the
difference, since a directory made for another snapshot can open its way.  Main statements:

* `Ready.alike_templates` — what the turns of targets leave alone below the directory of templates;
* `Ready.judge_eq_of_descends` — so the judgement of a target is the same, errors included;
* `Ready.foretells_turn`, `foretells_applyAll` — one turn, and by induction all of them;
* `rehearsal` — **what a rehearsal tells about the pass**;
* `rehearsal_stray` — a path that leads up fails in the rehearsal and in the pass for different
  reasons.
-/

namespace LayeredConfig.Apply

open FileSystem (Sound Enters Alike LeadsDown)

variable {fs fs' now : FileSystem} {layout : Layout} {config : Tree} {options : Options}
  {accepted : Bool} {r : Path} {before later files done targets : List Path} {plan : Plan}

/-! ## The turns of other targets -/

/-- Below the directory of templates the turns of targets write only files that are there. -/
theorem Ready.alike_templates (h : Ready layout targets fs) (ht : Touched layout done fs fs')
    (hdone : ∀ r ∈ done, r ∈ targets) :
    Alike fs fs' (FileSystem.placeOf fs.workingDirectory layout.templatesDir.text) := by
  rw [Layout.templatesDir_place]
  have hsub : Layout.templatesName ≠ Layout.snapshotsName := by decide
  have hface : ∀ names,
      let l := layout.configPlace fs.workingDirectory ++ [Layout.templatesName] ++ names
      fs'.faceAt? l = fs.faceAt? l ∨
        ∃ old new, fs.faceAt? l = some (.file old) ∧ fs'.faceAt? l = some (.file new) := by
    intro names l
    rcases ht.face l with heq | ⟨-, hfile, r, hr, hplain, htarget | hsnapshot⟩ |
      ⟨-, -, r, hr, -, hway⟩
    · exact Or.inl heq
    · obtain ⟨old, hold⟩ := Option.isSome_iff_exists.mp (htarget ▸ h.isSome_target (hdone r hr))
      obtain ⟨new, hnew⟩ := Option.isSome_iff_exists.mp hfile
      exact Or.inr ⟨old, new, FileSystem.fileAt?_eq_some_iff.mp hold,
        FileSystem.fileAt?_eq_some_iff.mp hnew⟩
    · rw [Layout.snapshotPlace_eq layout _ hplain] at hsnapshot
      simp only [l, List.append_assoc, List.singleton_append] at hsnapshot
      exact absurd (List.cons.inj (List.append_cancel_left hsnapshot)).1 hsub
    · obtain ⟨p, hpre, -, hp⟩ := FileSystem.onWay_iff.mp hway
      simp only [l, List.append_assoc, List.singleton_append] at hp
      rw [← List.append_cancel_left hp, List.dropLast_cons_of_ne_nil r.names_ne_nil] at hpre
      exact absurd (List.cons_prefix_cons.mp hpre).1 hsub
  refine ⟨fun names => ?_, fun names => ?_⟩ <;>
    rcases hface names with heq | ⟨old, new, hold, hnew⟩
  · rw [heq]
  · rw [hold, hnew]; simp
  · rw [heq]
  · rw [hold, hnew]; simp

/-- Unless its path leads up, the snapshot of a target is below the configuration directory. -/
theorem exists_leadsDown_snapshot (layout : Layout) (h : r.Descends) :
    ∃ steps, LeadsDown layout.configDir (layout.snapshot r).text steps := by
  obtain ⟨steps, hsteps⟩ :=
    FileSystem.exists_leadsDown layout.snapshotsDir r.no_backslash (Step.up_not_mem h)
  exact ⟨_, hsteps.of_join (by decide) (by decide)⟩

/-- Unless its path leads up, the template of a target is below the directory of templates. -/
theorem exists_leadsDown_template (layout : Layout) (h : r.Descends) :
    ∃ steps, LeadsDown layout.templatesDir (layout.template r).text steps :=
  FileSystem.exists_leadsDown layout.templatesDir r.no_backslash (Step.up_not_mem h)

/-- How a target and its snapshot compare depends on what is read of both. -/
theorem compareSnapshot_congr {old : Bytes} (hold : fs.readBytes (layout.target r).text = .ok old)
    (hold' : fs'.readBytes (layout.target r).text = .ok old)
    (hsnapshot : ∀ content, fs'.readBytes (layout.snapshot r).text = .ok content ↔
      fs.readBytes (layout.snapshot r).text = .ok content) (accepted : Bool) :
    compareSnapshot fs' layout accepted r = compareSnapshot fs layout accepted r := by
  have hfile : fs'.isFile (layout.snapshot r).text = fs.isFile (layout.snapshot r).text := by
    rw [Bool.eq_iff_iff, FileSystem.isFile_iff, FileSystem.isFile_iff]
    exact exists_congr hsnapshot
  cases hthere : fs.isFile (layout.snapshot r).text with
  | false => simp only [compareSnapshot, hfile, hthere, Bool.not_false, if_true]
  | true =>
    obtain ⟨content, hread⟩ := FileSystem.isFile_iff.mp hthere
    simp only [compareSnapshot, hfile, hold, hold', hread, (hsnapshot content).mpr hread]

theorem renderTarget_congr
    (hread : fs'.readBytes (layout.template r).text = fs.readBytes (layout.template r).text)
    (config : Tree) : renderTarget fs' layout config r = renderTarget fs layout config r := by
  unfold renderTarget FileSystem.readText
  rw [hread]

/-- The turns of other targets do not change the judgement of a target whose path does not lead up,
whether it has a template to read or not. -/
theorem Ready.judge_eq_of_descends (h : Ready layout targets fs)
    (htemplates : fs.Enters layout.templatesDir.text)
    (ht : Touched layout (rendered layout fs done) fs fs') (hdone : ∀ r ∈ done, r ∈ targets)
    (hr : r ∈ targets) (hnot : r ∉ done) (hdescends : r.Descends) (config : Tree)
    (accepted : Bool) :
    judge fs' layout config accepted r = judge fs layout config accepted r := by
  by_cases htemplate : (fs.fileAt? (layout.templatePlace fs.workingDirectory r)).isSome
  · exact h.judge_eq ht hdone hr hnot htemplate config accepted
  · have hdone' : ∀ r ∈ rendered layout fs done, r ∈ targets :=
      fun r hr => hdone r (mem_of_rendered hr)
    have hnot' : r ∉ rendered layout fs done := fun hmem => hnot (mem_of_rendered hmem)
    have hlf := h.sound.linkFree
    have hlf' := ht.sound.linkFree
    obtain ⟨old, hold⟩ := h.target r hr
    have hold' := FileSystem.readBytes_of_keeps hlf hlf' ht.keeps hold
      (h.place_eq ht hdone' hr hnot' (by simp [Layout.places, Layout.targetPlace]))
    obtain ⟨steps, hsteps⟩ := exists_leadsDown_snapshot layout hdescends
    have hsnapshot : ∀ content, fs'.readBytes (layout.snapshot r).text = .ok content ↔
        fs.readBytes (layout.snapshot r).text = .ok content :=
      fun content => hsteps.readBytes_iff hlf hlf' ht.workingDirectory ht.keeps h.enters
        (h.place_eq ht hdone' hr hnot' (by simp [Layout.places, Layout.snapshotPlace]))
    obtain ⟨steps', hsteps'⟩ := exists_leadsDown_template layout hdescends
    have hread := hsteps'.readBytes_congr hlf hlf' ht.workingDirectory htemplates
      (htemplates.mono ht.keeps) (h.alike_templates ht hdone')
      (Option.not_isSome_iff_eq_none.mp htemplate)
    unfold judge
    rw [compareSnapshot_congr hold hold' hsnapshot, renderTarget_congr hread]

/-! ## Turns that only judge -/

/-- The options of the rehearsal of a pass. -/
def Options.rehearse (options : Options) : Options :=
  { options with dryRun := true }

theorem applyTarget_files_of_dryRun (hdry : options.dryRun = true) (config : Tree) (r : Path)
    (fs : FileSystem) : (applyTarget layout config options r fs).2 = fs := by
  cases hjudge : judge fs layout config (options.accepted.contains r) r with
  | error failure => rw [applyTarget_of_error hjudge]
  | ok plan => rw [applyTarget_of_dryRun hjudge hdry]

/-- A rehearsal leaves the files as they are. -/
theorem after_of_dryRun (hdry : options.dryRun = true) (config : Tree) (files : List Path)
    (fs : FileSystem) : (applyAll layout config options files fs).after = fs := by
  induction files with
  | nil => rfl
  | cons r rest ih => rw [after_cons, applyTarget_files_of_dryRun hdry, ih]

/-! ## Turns that are foretold -/

/-- Whether a failure tells another one: of the same target, and the same unless the path of the
target leads up. -/
def Failure.Foretells (rehearsed failure : Failure) : Prop :=
  rehearsed.target = failure.target ∧ (failure.target.Descends → rehearsed = failure)

/-- Whether the outcome of a turn that only judges tells that of a turn that writes. -/
inductive Foretells : Except Failure Applied → Except Failure Applied → Prop where
  | applied {applied : Applied} (hwritten : applied.written = true) :
      Foretells (.ok { applied with written := false }) (.ok applied)
  | failed {rehearsed failure : Failure} (h : rehearsed.Foretells failure) :
      Foretells (.error rehearsed) (.error failure)

/-- Whether the report of a rehearsal tells that of a pass, entry by entry. -/
structure Report.Foretells (rehearsed report : Report) : Prop where
  failures : List.Forall₂ Failure.Foretells rehearsed.failures report.failures
  applied : rehearsed.applied =
    report.applied.map fun applied => { applied with written := false }
  written : ∀ applied ∈ report.applied, applied.written = true

theorem Report.Foretells.prepend {rehearsed report : Report} (h : rehearsed.Foretells report)
    {outcome outcome' : Except Failure Applied} (hturn : Apply.Foretells outcome outcome') :
    (rehearsed.prepend outcome).Foretells (report.prepend outcome') := by
  cases hturn with
  | @applied entry hwritten =>
    refine ⟨h.failures, congrArg (_ :: ·) h.applied, ?_⟩
    intro other hother
    rcases List.mem_cons.mp hother with rfl | hother
    · exact hwritten
    · exact h.written other hother
  | failed hfailure => exact ⟨h.failures.cons hfailure, h.applied, h.written⟩

/-- If each turn of a rehearsal tells that of the pass, the report of the rehearsal tells that of
the pass. -/
theorem foretells_applyAll {rehearsal : Options} (hdry : rehearsal.dryRun = true)
    (h : ∀ before r later, files = before ++ r :: later →
      Foretells (applyTarget layout config rehearsal r fs).1
        (applyTarget layout config options r (applyAll layout config options before now).after).1) :
    (applyAll layout config rehearsal files fs).report.Foretells
      (applyAll layout config options files now).report := by
  induction files generalizing now with
  | nil => exact ⟨List.Forall₂.nil, rfl, fun applied hmem => absurd hmem List.not_mem_nil⟩
  | cons first rest ih =>
    rw [report_cons, report_cons]
    simp only [applyTarget_files_of_dryRun hdry]
    refine (ih fun before r later heq => ?_).prepend (h [] first rest rfl)
    exact h (first :: before) r later (congrArg (first :: ·) heq)

/-! ## Writes that succeed -/

/-- Whether every target of a pass that is judged to be written can be written. -/
def writesSucceed (layout : Layout) (config : Tree) (options : Options) :
    List Path → FileSystem → Bool
  | [], _ => true
  | r :: rest, fs =>
    (match judge fs layout config (options.accepted.contains r) r with
      | .ok plan => (writeTarget layout r plan.content fs).1.isOk
      | .error _ => true) &&
      writesSucceed layout config options rest (applyTarget layout config options r fs).2

/-- If the writes of a pass succeed, they do so at the turn of each target. -/
theorem writeTarget_of_writesSucceed
    (h : writesSucceed layout config options (before ++ r :: later) fs = true)
    (hjudge : judge (applyAll layout config options before fs).after layout config
      (options.accepted.contains r) r = .ok plan) :
    (writeTarget layout r plan.content (applyAll layout config options before fs).after).1 =
      .ok () := by
  induction before generalizing fs with
  | nil =>
    obtain ⟨hfirst, -⟩ := Bool.and_eq_true_iff.mp h
    have hjudge' : judge fs layout config (options.accepted.contains r) r = .ok plan := hjudge
    simp only [hjudge'] at hfirst
    show (writeTarget layout r plan.content fs).1 = .ok ()
    cases hwrite : (writeTarget layout r plan.content fs).1 with
    | error e => simp [hwrite, Except.isOk, Except.toBool] at hfirst
    | ok _ => rfl
  | cons first before ih => exact ih (Bool.and_eq_true_iff.mp h).2 hjudge

/-- If no failure of a pass is about reading or writing, all its writes have succeeded. -/
theorem writesSucceed_of_failures
    (h : ∀ failure ∈ (applyAll layout config options files fs).report.failures,
      ∀ r e, failure ≠ .access r e) (hdry : options.dryRun = false) :
    writesSucceed layout config options files fs = true := by
  induction files generalizing fs with
  | nil => rfl
  | cons r rest ih =>
    rw [report_cons] at h
    have hrest := ih fun failure hmem => h failure (mem_failures_prepend.mpr (Or.inr hmem))
    rw [writesSucceed, hrest, Bool.and_true]
    cases hjudge : judge fs layout config (options.accepted.contains r) r with
    | error failure => rfl
    | ok plan =>
      cases hresult : writeTarget layout r plan.content fs with
      | mk written fs' =>
        cases written with
        | ok _ => simp only [hresult, Except.isOk, Except.toBool]
        | error e =>
          refine absurd rfl (h (.access r e) (mem_failures_prepend.mpr (Or.inl ?_)) r e)
          simp only [applyTarget, hjudge, hdry, hresult, Bool.false_eq_true, if_false]

theorem applyTarget_of_writeTarget
    (hjudge : judge fs layout config (options.accepted.contains r) r = .ok plan)
    (hwrite : (writeTarget layout r plan.content fs).1 = .ok ()) :
    (applyTarget layout config options r fs).1 = .ok (appliedEntry options r plan) := by
  simp only [applyTarget, hjudge]
  split_ifs with hdry
  · rfl
  · cases hresult : writeTarget layout r plan.content fs with
    | mk written fs' =>
      obtain rfl : written = .ok () := by rw [← hwrite, hresult]
      rfl

/-- **The turn of a target in a rehearsal tells its turn in the pass.**  A target that is written
has a template, so its judgement is the same at its turn as before the pass. -/
theorem Ready.foretells_turn (h : Ready layout targets fs)
    (htemplates : fs.Enters layout.templatesDir.text) (hsplit : targets = before ++ r :: later)
    (hdry : options.dryRun = false)
    (hwrites : writesSucceed layout config options targets fs = true) :
    Foretells (applyTarget layout config options.rehearse r fs).1
      (applyTarget layout config options r
        (applyAll layout config options before fs).after).1 := by
  have hturn := h.atTurn hsplit config options
  have hdone : ∀ r' ∈ rendered layout fs before, r' ∈ targets :=
    fun r' hr' => hturn.before_mem r' (mem_of_rendered hr')
  cases hjudge : judge (applyAll layout config options before fs).after layout config
      (options.accepted.contains r) r with
  | ok plan =>
    have htemplate := template_of_judge hturn.ready.sound hjudge
    rw [hturn.touched.workingDirectory, h.template_eq hturn.touched hdone hturn.mem] at htemplate
    have hfirst : judge fs layout config (options.rehearse.accepted.contains r) r = .ok plan :=
      (hturn.judge_eq h htemplate (options.accepted.contains r)).symm.trans hjudge
    rw [applyTarget_of_dryRun hfirst rfl, applyTarget_of_writeTarget hjudge
      (writeTarget_of_writesSucceed (hsplit ▸ hwrites) hjudge)]
    exact @Foretells.applied (appliedEntry options r plan) (by simp [appliedEntry, hdry])
  | error failure =>
    rw [applyTarget_of_error hjudge]
    cases hfirst : judge fs layout config (options.rehearse.accepted.contains r) r with
    | ok plan =>
      have htemplate := template_of_judge h.sound hfirst
      have hsame := (hturn.judge_eq h htemplate (options.accepted.contains r)).trans hfirst
      simp [hjudge] at hsame
    | error rehearsed =>
      rw [applyTarget_of_error hfirst]
      have htarget := judge_error_target hjudge
      refine .failed ⟨(judge_error_target hfirst).trans htarget.symm, fun hdescends => ?_⟩
      have hsame := (h.judge_eq_of_descends htemplates hturn.touched hturn.before_mem hturn.mem
        hturn.not_before (htarget ▸ hdescends) config (options.accepted.contains r)).trans hfirst
      exact (Except.error.inj (hjudge.symm.trans hsame)).symm

/-! ## The rehearsal of a pass -/

/-- **What a rehearsal tells about the pass.**  It leaves the files as they are, it is refused
exactly if the pass is, with the same error, and if all writes of the pass succeed, its report
tells that of the pass: the same targets are applied, with the same entries except that nothing was
written, and the same targets fail, for the same reason unless their paths lead up. -/
theorem rehearsal (layout : Layout) (config : Tree) (accepted : AcceptSet) (fs : FileSystem) :
    (perform layout config ⟨accepted, true⟩ fs).2 = fs ∧
    (∀ e, (perform layout config ⟨accepted, true⟩ fs).1 = .error e ↔
      (perform layout config ⟨accepted, false⟩ fs).1 = .error e) ∧
    ∀ targets report, fs.Sound → scheduled layout fs = .ok targets →
      layout.Apart fs.workingDirectory targets →
      (perform layout config ⟨accepted, false⟩ fs).1 = .ok report →
      writesSucceed layout config ⟨accepted, false⟩ targets fs = true →
      ∃ rehearsed, (perform layout config ⟨accepted, true⟩ fs).1 = .ok rehearsed ∧
        rehearsed.Foretells report := by
  have herror : ∀ e, run layout config ⟨accepted, true⟩ fs = .error e ↔
      run layout config ⟨accepted, false⟩ fs = .error e := fun e => by
    rw [run_eq_error_iff, run_eq_error_iff]
  refine ⟨?_, fun e => ?_, ?_⟩
  · rw [perform_eq]
    cases hrun : run layout config ⟨accepted, true⟩ fs with
    | error e => rfl
    | ok pass =>
      obtain ⟨targets, -, -, rfl⟩ := run_eq_ok_iff.mp hrun
      exact after_of_dryRun rfl config targets fs
  · rw [perform_fst_eq_error_iff, perform_fst_eq_error_iff, herror]
  · intro targets report hs hscheduled hapart hreport hwrites
    obtain ⟨pass, hrun, rfl⟩ := perform_fst_eq_ok_iff.mp hreport
    obtain ⟨listed, hlisted, hexist, rfl⟩ := run_eq_ok_iff.mp hrun
    obtain rfl : listed = targets := Except.ok.inj (hlisted.symm.trans hscheduled)
    have hready := Ready.of_scheduled hs hscheduled hexist hapart
    have htemplates := FileSystem.enters_of_isDirectory hs.linkFree
      (isDirectory_of_scheduled hscheduled)
    refine ⟨_, perform_fst_eq_ok_iff.mpr
      ⟨_, run_eq_ok_iff.mpr ⟨listed, hscheduled, hexist, rfl⟩, rfl⟩, ?_⟩
    have hturn : ∀ before r later, listed = before ++ r :: later →
        Foretells (applyTarget layout config (Options.rehearse ⟨accepted, false⟩) r fs).1
          (applyTarget layout config ⟨accepted, false⟩ r
            (applyAll layout config ⟨accepted, false⟩ before fs).after).1 :=
      fun before r later hsplit => hready.foretells_turn htemplates hsplit rfl hwrites
    exact foretells_applyAll rfl hturn

/-- The rehearsal tells that `a` is applied and why `b` and `c/d` are not. -/
theorem rehearsal_mixed :
    (perform .usual configWithX ⟨.empty, true⟩ mixedFiles).2 = mixedFiles ∧
      ∃ rehearsed, (perform .usual configWithX ⟨.empty, true⟩ mixedFiles).1 = .ok rehearsed ∧
        rehearsed.Foretells
          (applyAll .usual configWithX .plain mixedTargets mixedFiles).report := by
  obtain ⟨hfiles, -, htold⟩ := rehearsal .usual configWithX .empty mixedFiles
  have hrun := prepared_mixedFiles.run_eq configWithX .plain
  have hwrites : writesSucceed .usual configWithX .plain mixedTargets mixedFiles = true := by
    refine writesSucceed_of_failures (fun failure hmem r e heq => ?_) rfl
    rw [report_mixedFiles.2, heq] at hmem
    simp at hmem
  exact ⟨hfiles, htold mixedTargets _ prepared_mixedFiles.sound prepared_mixedFiles.scheduled_eq
    prepared_mixedFiles.apart (perform_fst_eq_ok_iff.mpr ⟨_, hrun, rfl⟩) hwrites⟩

/-! ## A path that leads up -/

/-- Two templates, one with a name that is read as the path `x/../y`.  The target `y` was edited,
but the way from the directory of snapshots to its snapshot leads through the directory `x`, which
is missing until the target `x/+` is applied. -/
def strayFiles : FileSystem where
  root :=
    [(Layout.defaultConfigDir, .directory
      [(Layout.snapshotsName, .directory [(['y'], .file (Utf8.encode "base".toList))]),
        (Layout.templatesName, .directory
          [(['x'], .directory [(['+'], .file (Utf8.encode "new".toList))]),
            (['x', '\\', '.', '.', '\\', 'y'], .file (Utf8.encode "other".toList))])]),
      (['x'], .directory [(['+'], .file (Utf8.encode "old".toList))]),
      (['y'], .file (Utf8.encode "mine".toList))]
  workingDirectory := []

/-- The target that is applied, and the one with a path that leads up. -/
def strayTargets : List Path :=
  [Path.ofText ['x', '/', '+'], Path.ofText ['x', '/', '.', '.', '/', 'y']]

/-- The files are fit for a pass over the two targets in which all writes succeed. -/
theorem fit_strayFiles :
    strayFiles.Sound ∧ strayFiles.isDirectory Layout.usual.templatesDir.text = true ∧
      strayFiles.listFiles Layout.usual.templatesDir = .ok strayTargets ∧
      (strayTargets.Pairwise fun a b => Text.atMost a.text b.text = true) ∧
      Layout.usual.Apart strayFiles.workingDirectory strayTargets ∧
      (∀ r ∈ strayTargets, strayFiles.isFile (Layout.usual.target r).text = true) ∧
      writesSucceed .usual [] ⟨.empty, false⟩ strayTargets strayFiles = true ∧
      (applyAll .usual [] ⟨.empty, true⟩ strayTargets strayFiles).report.failures ≠
        (applyAll .usual [] ⟨.empty, false⟩ strayTargets strayFiles).report.failures := by
  decide +kernel

/-- Not every failure is told by the rehearsal. -/
theorem rehearsal_stray :
    ¬∀ (layout : Layout) (config : Tree) (accepted : AcceptSet) (fs : FileSystem)
      (targets : List Path) (rehearsed report : Report), fs.Sound →
      scheduled layout fs = .ok targets → layout.Apart fs.workingDirectory targets →
      (perform layout config ⟨accepted, true⟩ fs).1 = .ok rehearsed →
      (perform layout config ⟨accepted, false⟩ fs).1 = .ok report →
      writesSucceed layout config ⟨accepted, false⟩ targets fs = true →
      rehearsed.failures = report.failures := by
  intro htold
  obtain ⟨hsound, hdir, hlisted, hsorted, hapart, hexist, hwrites, hne⟩ := fit_strayFiles
  have hscheduled : scheduled .usual strayFiles = .ok strayTargets :=
    scheduled_eq_ok_iff.mpr ⟨hdir, strayTargets, hlisted, List.mergeSort_of_pairwise hsorted⟩
  have hrun : ∀ options, run .usual [] options strayFiles =
      .ok (applyAll .usual [] options strayTargets strayFiles) :=
    fun options => run_eq_ok_iff.mpr ⟨strayTargets, hscheduled, hexist, rfl⟩
  -- The rehearsal misses the template, while the pass finds that the target was edited.
  exact hne (htold .usual [] .empty strayFiles strayTargets _ _ hsound hscheduled hapart
    (perform_fst_eq_ok_iff.mpr ⟨_, hrun _, rfl⟩) (perform_fst_eq_ok_iff.mpr ⟨_, hrun _, rfl⟩)
    hwrites)

end LayeredConfig.Apply
