import LayeredConfig.Proofs.Apply.Isolation

/-!
# What a pass writes

A pass that writes leaves the rendered text in every target that it reports as applied and in the
snapshot of that target, and it writes nowhere else but to targets of which a write failed.  Main
statements:

* `Ready.applied` — an applied target was judged to be written, and after the pass the target and
  its snapshot hold what it was rendered to;
* `AtTurn.unwritten` — the turn of a target that is reported as edited or as unresolved writes
  nothing;
* `writes_of_run` — **what is written, and that nothing else is**.
-/

namespace LayeredConfig.Apply

open FileSystem (Sound)

variable {fs : FileSystem} {layout : Layout} {config : Tree} {options : Options}
  {r : Path} {before targets : List Path} {pass : Pass}

theorem renderTarget_eq_ok_iff {content : Text} :
    renderTarget fs layout config r = .ok content ↔
      ∃ template, fs.readText (layout.template r).text = .ok template ∧
        (Template.render config template).complete = true ∧
        (Template.render config template).text = content := by
  unfold renderTarget
  cases fs.readText (layout.template r).text with
  | error e => simp
  | ok template =>
    by_cases hcomplete : (Template.render config template).complete = true
    · simp [hcomplete]
    · simp [hcomplete]

/-! ## Applied targets -/

/-- An applied target was judged to be written by the files before the pass, and after the pass
both the target and its snapshot hold what is to be written. -/
theorem Ready.applied (h : Ready layout targets fs) (hdry : options.dryRun = false)
    {applied : Applied}
    (hmem : applied ∈ (applyAll layout config options targets fs).report.applied) :
    applied.file ∈ targets ∧ applied.file.Plain ∧ ∃ plan,
      judge fs layout config (options.accepted.contains applied.file) applied.file = .ok plan ∧
      applied = appliedEntry options applied.file plan ∧
      (applyAll layout config options targets fs).after.fileAt?
        (layout.targetPlace fs.workingDirectory applied.file) =
          some (Utf8.encode plan.content) ∧
      (applyAll layout config options targets fs).after.fileAt?
        (layout.snapshotPlace fs.workingDirectory applied.file) =
          some (Utf8.encode plan.content) := by
  obtain ⟨before, r, later, hsplit, hok⟩ := mem_applied_iff.mp hmem
  have hturn := h.atTurn hsplit config options
  obtain ⟨plan, hjudge, rfl, ⟨hdry', -⟩ | ⟨-, htarget, hsnapshot⟩⟩ :=
    applyTarget_ok hturn.ready hturn.mem hok
  · simp [hdry] at hdry'
  · have hready := hturn.ready
    have hbefore : ∀ r ∈ rendered layout fs before, r ∈ targets :=
      fun r hr => hturn.before_mem r (mem_of_rendered hr)
    have htemplate := template_of_judge hready.sound hjudge
    rw [hturn.touched.workingDirectory, h.template_eq hturn.touched hbefore hturn.mem] at htemplate
    rw [hturn.touched.workingDirectory, ← hturn.after_eq _ (by simp [Layout.places])]
      at htarget hsnapshot
    rw [hturn.judge_eq h htemplate] at hjudge
    exact ⟨hturn.mem, h.plain r hturn.mem htemplate, plan, hjudge, rfl, htarget, hsnapshot⟩

/-! ## Targets that are left alone -/

/-- The kinds of failures that are found before anything is written. -/
inductive Failure.FoundByReading : Failure → Prop
  | drift (r : Path) (changes : Diff.Script) : FoundByReading (.drift r changes)
  | unresolved (r : Path) (names : List Text) : FoundByReading (.unresolved r names)

/-- The turn of a target that is reported as edited or as unresolved writes nothing. -/
theorem AtTurn.unwritten (hturn : AtTurn layout config options targets fs before r)
    {failure : Failure} (hkind : failure.FoundByReading)
    (hfail : (applyTarget layout config options r
      (applyAll layout config options before fs).after).1 = .error failure) :
    (applyTarget layout config options r (applyAll layout config options before fs).after).2 =
      (applyAll layout config options before fs).after := by
  rcases (applyTarget_error hturn.ready hturn.mem hfail).2 with
    ⟨-, hsame⟩ | ⟨plan, -, hjudge, -, -⟩
  · exact hsame
  · obtain ⟨e, rfl⟩ := applyTarget_error_of_ok hjudge hfail
    cases hkind

/-- A place keeps its file if every target that it belongs to is reported as edited or as
unresolved. -/
theorem Ready.unwritten (h : Ready layout targets fs) {l : Location}
    (hl : ∀ r ∈ targets, l = layout.targetPlace fs.workingDirectory r ∨
        l = layout.snapshotPlace fs.workingDirectory r →
      ∃ failure ∈ (applyAll layout config options targets fs).report.failures,
        failure.target = r ∧ failure.FoundByReading) :
    (applyAll layout config options targets fs).after.fileAt? l = fs.fileAt? l := by
  by_cases howned : ∃ r ∈ targets, l = layout.targetPlace fs.workingDirectory r ∨
      l = layout.snapshotPlace fs.workingDirectory r
  · obtain ⟨r, hr, hplace⟩ := howned
    obtain ⟨failure, hmem, htarget, hkind⟩ := hl r hr hplace
    obtain ⟨before, r', later, hsplit, hfail⟩ := mem_failures_iff.mp hmem
    have hturn := h.atTurn hsplit config options
    obtain rfl : r' = r :=
      ((applyTarget_names layout config options r' _).2 failure hfail).symm.trans htarget
    have hplaces : l ∈ layout.places fs.workingDirectory r' := by
      rcases hplace with rfl | rfl <;> simp [Layout.places]
    rw [hturn.after_eq l hplaces, hturn.unwritten hkind hfail, hturn.place_eq h hplaces]
  · refine (touched_applyAll config options h fun _ hr => hr).fileAt?_eq fun r hr hw => ?_
    exact howned ⟨r, mem_of_rendered hr, hw.2⟩

/-! ## The whole pass -/

/-- **What a pass writes, and nothing else.** -/
theorem writes_of_run (hs : fs.Sound) (hscheduled : scheduled layout fs = .ok targets)
    (hapart : layout.Apart fs.workingDirectory targets) (hdry : options.dryRun = false)
    (hrun : run layout config options fs = .ok pass) :
    (∀ applied ∈ pass.report.applied, ∃ template,
      fs.readText (layout.template applied.file).text = .ok template ∧
      let rendered := Template.render config template
      rendered.complete = true ∧
      pass.after.readBytes (layout.target applied.file).text = .ok (Utf8.encode rendered.text) ∧
      pass.after.readBytes (layout.snapshot applied.file).text = .ok (Utf8.encode rendered.text) ∧
      applied.checksum = Sha256.checksum (Utf8.encode rendered.text)) ∧
    ∀ l, (∀ r ∈ targets, l = layout.targetPlace fs.workingDirectory r ∨
        l = layout.snapshotPlace fs.workingDirectory r →
      (∃ changes, Failure.drift r changes ∈ pass.report.failures) ∨
        ∃ names, Failure.unresolved r names ∈ pass.report.failures) →
      pass.after.fileAt? l = fs.fileAt? l := by
  obtain ⟨listed, hlisted, hexist, rfl⟩ := run_eq_ok_iff.mp hrun
  obtain rfl : listed = targets := Except.ok.inj (hlisted.symm.trans hscheduled)
  have hready := Ready.of_scheduled hs hscheduled hexist hapart
  have hpass := touched_applyAll config options hready fun _ hr => hr
  have hafter := hready.touched hpass fun r hr => mem_of_rendered hr
  constructor
  · intro applied hmem
    obtain ⟨hr, hplain, plan, hjudge, hentry, htarget, hsnapshot⟩ := hready.applied hdry hmem
    obtain ⟨template, hread, hcomplete, hcontent⟩ :=
      renderTarget_eq_ok_iff.mp (judge_eq_ok_iff.mp hjudge).2
    have hchecksum : applied.checksum = Sha256.checksum (Utf8.encode plan.content) :=
      congrArg Applied.checksum hentry
    rw [← hpass.workingDirectory] at htarget hsnapshot
    rw [← hcontent] at htarget hsnapshot hchecksum
    refine ⟨template, hread, hcomplete, ?_, ?_, hchecksum⟩
    · exact hafter.readBytes_target hr htarget
    · exact (readBytes_snapshot_iff hafter.sound hafter.enters hplain).mpr hsnapshot
  · intro l hl
    refine hready.unwritten fun r hr hplace => ?_
    rcases hl r hr hplace with ⟨changes, hmem⟩ | ⟨names, hmem⟩
    · exact ⟨_, hmem, rfl, .drift r changes⟩
    · exact ⟨_, hmem, rfl, .unresolved r names⟩

/-- The target `a` and its new snapshot get the rendered text, and the edited target `b` is left
alone. -/
theorem writes_of_run_mixed :
    ∃ pass, run .usual configWithX .plain mixedFiles = .ok pass ∧
      pass.after.readBytes (Layout.usual.target (Path.ofText ['a'])).text =
        .ok (Utf8.encode ['1']) ∧
      pass.after.readBytes (Layout.usual.snapshot (Path.ofText ['a'])).text =
        .ok (Utf8.encode ['1']) ∧
      pass.after.fileAt? (Layout.usual.targetPlace [] (Path.ofText ['b'])) =
        mixedFiles.fileAt? (Layout.usual.targetPlace [] (Path.ofText ['b'])) := by
  have hrun := prepared_mixedFiles.run_eq configWithX .plain
  obtain ⟨hwritten, hkept⟩ :=
    writes_of_run prepared_mixedFiles.sound prepared_mixedFiles.scheduled_eq
      prepared_mixedFiles.apart rfl hrun
  obtain ⟨happlied, hfailures⟩ := report_mixedFiles
  obtain ⟨applied, hmem, hfile⟩ := List.mem_map.mp (happlied ▸ List.mem_singleton_self _)
  obtain ⟨template, htemplate, -, htarget, hsnapshot, -⟩ := hwritten applied hmem
  rw [hfile] at htemplate htarget hsnapshot
  obtain rfl : template = Template.tokenText ['x'] :=
    Except.ok.inj (htemplate.symm.trans (by decide +kernel))
  refine ⟨_, hrun, htarget, hsnapshot, hkept _ fun r hr hplace => ?_⟩
  have hb : ∀ r ∈ mixedTargets, Layout.usual.targetPlace [] (Path.ofText ['b']) =
      Layout.usual.targetPlace [] r ∨ Layout.usual.targetPlace [] (Path.ofText ['b']) =
        Layout.usual.snapshotPlace [] r → r = Path.ofText ['b'] := by decide +kernel
  obtain rfl := hb r hr hplace
  exact Or.inl ⟨_, hfailures ▸ List.mem_cons_self⟩

end LayeredConfig.Apply
