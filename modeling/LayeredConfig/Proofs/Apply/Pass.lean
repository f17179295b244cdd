import LayeredConfig.Proofs.Apply.Turn

/-!
# A pass over many targets

A pass is a sequence of turns, and the files at the turn of a target are those after a pass over
the targets before it.  What the turns of other targets can do to the files is `Touched`: targets
and snapshots of theirs may be new or have other content, and directories of their snapshots may
be new; everything else is as it was.  Main statements:

* `mem_failures_iff`, `mem_applied_iff` — each entry of a report comes from a turn;
* `touched_applyTarget` — what one turn does;
* `applyTarget_error`, `applyTarget_ok` — how a turn fails, and how it succeeds;
* `touched_applyAll` — **what a whole pass does**, by induction on the targets;
* `Ready.of_scheduled` — what is known when the first turn begins, and remains known;
* `Prepared.run_eq` — on given files, a pass is run by evaluation.
-/

namespace LayeredConfig.Apply

open FileSystem (Sound Enters Becomes Blocked Keeps OnWay)

variable {fs fs' fs'' : FileSystem} {layout : Layout} {config : Tree} {options : Options}
  {r r' : Path} {l : Location} {files done done' targets : List Path}

/-- The options of a pass that writes and accepts nothing. -/
def Options.plain : Options := ⟨AcceptSet.empty, false⟩

/-! ## Turns in order -/

theorem after_cons (r : Path) (files : List Path) (fs : FileSystem) :
    (applyAll layout config options (r :: files) fs).after =
      (applyAll layout config options files (applyTarget layout config options r fs).2).after := rfl

theorem after_append (before later : List Path) (fs : FileSystem) :
    (applyAll layout config options (before ++ later) fs).after =
      (applyAll layout config options later
        (applyAll layout config options before fs).after).after := by
  induction before generalizing fs with
  | nil => rfl
  | cons r before ih => rw [List.cons_append, after_cons, after_cons, ih]

/-- The files after a pass, seen from the turn of one target. -/
theorem after_append_cons (before : List Path) (r : Path) (later : List Path) (fs : FileSystem) :
    (applyAll layout config options (before ++ r :: later) fs).after =
      (applyAll layout config options later (applyTarget layout config options r
        (applyAll layout config options before fs).after).2).after := by
  rw [after_append, after_cons]

theorem report_cons (r : Path) (files : List Path) (fs : FileSystem) :
    (applyAll layout config options (r :: files) fs).report =
      let turn := applyTarget layout config options r fs
      (applyAll layout config options files turn.2).report.prepend turn.1 := rfl

theorem mem_failures_prepend {outcome : Except Failure Applied} {report : Report}
    {failure : Failure} :
    failure ∈ (report.prepend outcome).failures ↔
      outcome = .error failure ∨ failure ∈ report.failures := by
  cases outcome with
  | ok applied => simp [Report.prepend]
  | error found => simp [Report.prepend, eq_comm]

theorem mem_applied_prepend {outcome : Except Failure Applied} {report : Report}
    {applied : Applied} :
    applied ∈ (report.prepend outcome).applied ↔
      outcome = .ok applied ∨ applied ∈ report.applied := by
  cases outcome with
  | ok found => simp [Report.prepend, eq_comm]
  | error failure => simp [Report.prepend]

/-- A member of a list, with what is before it, is the first one or in the rest. -/
theorem exists_split_cons {first : Path} {rest : List Path} {P : List Path → Path → Prop} :
    (∃ before r later, first :: rest = before ++ r :: later ∧ P before r) ↔
      P [] first ∨ ∃ before r later, rest = before ++ r :: later ∧ P (first :: before) r := by
  constructor
  · intro hsplit
    obtain ⟨before, r, later, heq, h⟩ := hsplit
    cases before with
    | nil =>
      obtain ⟨rfl, rfl⟩ := List.cons.inj heq
      exact Or.inl h
    | cons b before =>
      obtain ⟨rfl, rfl⟩ := List.cons.inj heq
      exact Or.inr ⟨before, r, later, rfl, h⟩
  · intro hsplit
    rcases hsplit with h | ⟨before, r, later, rfl, h⟩
    · exact ⟨[], first, rest, rfl, h⟩
    · exact ⟨first :: before, r, later, rfl, h⟩

theorem mem_failures_iff {failure : Failure} :
    failure ∈ (applyAll layout config options files fs).report.failures ↔
      ∃ before r later, files = before ++ r :: later ∧
        (applyTarget layout config options r
          (applyAll layout config options before fs).after).1 = .error failure := by
  induction files generalizing fs with
  | nil => simp [applyAll]
  | cons first rest ih =>
    rw [report_cons, mem_failures_prepend, ih, exists_split_cons]
    rfl

theorem mem_applied_iff {applied : Applied} :
    applied ∈ (applyAll layout config options files fs).report.applied ↔
      ∃ before r later, files = before ++ r :: later ∧
        (applyTarget layout config options r
          (applyAll layout config options before fs).after).1 = .ok applied := by
  induction files generalizing fs with
  | nil => simp [applyAll]
  | cons first rest ih =>
    rw [report_cons, mem_applied_prepend, ih, exists_split_cons]
    rfl

/-! ## What turns do to the files -/

/-- A place where the turn of a target may have put a file. -/
def Written (layout : Layout) (wd : Location) (r : Path) (l : Location) : Prop :=
  r.Plain ∧ (l = layout.targetPlace wd r ∨ l = layout.snapshotPlace wd r)

/-- A place where the turn of a target may have made a directory. -/
def Made (layout : Layout) (wd : Location) (r : Path) (l : Location) : Prop :=
  r.Plain ∧ OnWay (layout.configPlace wd) (Layout.snapshotsName :: r.names).dropLast l

/-- What the turns of some targets may have done to the files. -/
structure Touched (layout : Layout) (done : List Path) (fs fs' : FileSystem) : Prop where
  sound : fs'.Sound
  workingDirectory : fs'.workingDirectory = fs.workingDirectory
  face : ∀ l, fs'.faceAt? l = fs.faceAt? l ∨
    (fs.faceAt? l ≠ some .directory ∧ (fs'.fileAt? l).isSome ∧
      ∃ r ∈ done, Written layout fs.workingDirectory r l) ∨
    (fs.faceAt? l = none ∧ fs'.faceAt? l = some .directory ∧
      ∃ r ∈ done, Made layout fs.workingDirectory r l)

namespace Touched

theorem refl (hs : fs.Sound) (done : List Path) : Touched layout done fs fs :=
  ⟨hs, rfl, fun _ => Or.inl rfl⟩

theorem keeps (h : Touched layout done fs fs') : Keeps fs fs' := by
  refine ⟨h.workingDirectory, fun l hl => ?_, fun l hl => ?_⟩
  · rcases h.face l with heq | ⟨hne, -, -⟩ | ⟨hnone, -, -⟩
    · rw [heq, hl]
    · exact absurd hl hne
    · simp [hnone] at hl
  · rcases h.face l with heq | ⟨-, hfile, -⟩ | ⟨-, hdir, -⟩
    · rwa [heq]
    · intro hnone
      simp [FileSystem.fileAt?, hnone] at hfile
    · simp [hdir]

theorem mono (h : Touched layout done fs fs') (hsub : ∀ r ∈ done, r ∈ done') :
    Touched layout done' fs fs' := by
  refine ⟨h.sound, h.workingDirectory, fun l => ?_⟩
  rcases h.face l with heq | ⟨hne, hfile, r, hr, hw⟩ | ⟨hnone, hdir, r, hr, hm⟩
  · exact Or.inl heq
  · exact Or.inr (Or.inl ⟨hne, hfile, r, hsub r hr, hw⟩)
  · exact Or.inr (Or.inr ⟨hnone, hdir, r, hsub r hr, hm⟩)

/-- What was done first and not undone later was done. -/
theorem trans (h : Touched layout done fs fs') (h' : Touched layout done fs' fs'') :
    Touched layout done fs fs'' := by
  refine ⟨h'.sound, h'.workingDirectory.trans h.workingDirectory, fun l => ?_⟩
  have hlater := h'.face l
  rw [h.workingDirectory] at hlater
  rcases h.face l with heq | ⟨hne, hfile, hw⟩ | ⟨hnone, hdir, hm⟩
  · rw [heq] at hlater
    exact hlater
  · rcases hlater with heq' | ⟨-, hfile', hw'⟩ | ⟨hnone', -, -⟩
    · exact Or.inr (Or.inl ⟨hne, by rwa [FileSystem.fileAt?_congr heq'], hw⟩)
    · exact Or.inr (Or.inl ⟨hne, hfile', hw'⟩)
    · simp [FileSystem.fileAt?, hnone'] at hfile
  · rcases hlater with heq' | ⟨hne', -, -⟩ | ⟨hnone', -, -⟩
    · exact Or.inr (Or.inr ⟨hnone, by rw [heq', hdir], hm⟩)
    · exact absurd hdir hne'
    · simp [hdir] at hnone'

/-- A file is as it was unless it is one of the files written. -/
theorem fileAt?_eq (h : Touched layout done fs fs')
    (hnot : ∀ r ∈ done, ¬Written layout fs.workingDirectory r l) :
    fs'.fileAt? l = fs.fileAt? l := by
  rcases h.face l with heq | ⟨-, -, r, hr, hw⟩ | ⟨hnone, hdir, -⟩
  · exact FileSystem.fileAt?_congr heq
  · exact absurd hw (hnot r hr)
  · simp [FileSystem.fileAt?, hnone, hdir, Face.content?]

/-- A file stays a file. -/
theorem isSome_fileAt? (h : Touched layout done fs fs') (hfile : (fs.fileAt? l).isSome) :
    (fs'.fileAt? l).isSome := by
  rcases h.face l with heq | ⟨-, hfile', -⟩ | ⟨hnone, -, -⟩
  · rwa [FileSystem.fileAt?_congr heq]
  · exact hfile'
  · simp [FileSystem.fileAt?, hnone] at hfile

end Touched

/-! ## Targets that are apart -/

theorem eq_of_written {wd : Location} (hapart : layout.Apart wd targets) (hr : r ∈ targets)
    (hr' : r' ∈ targets) (hl : l ∈ layout.places wd r) (hw : Written layout wd r' l) : r' = r := by
  refine hapart.eq_of_mem hr' hr ?_ hl
  rcases hw.2 with rfl | rfl <;> simp [Layout.places]

theorem not_written_template {wd : Location} (hapart : layout.Apart wd targets) (hr : r ∈ targets)
    (hr' : r' ∈ targets) : ¬Written layout wd r' (layout.templatePlace wd r) := by
  intro hw
  obtain rfl := eq_of_written hapart hr hr' (by simp [Layout.places]) hw
  have hnodup := hapart.nodup_places hr
  simp only [Layout.places, List.nodup_cons, List.mem_cons, List.not_mem_nil, or_false,
    not_or] at hnodup
  rcases hw.2 with heq | heq
  · exact hnodup.1.1 heq
  · exact hnodup.1.2 heq

/-- What is known while the turns of targets that are apart go on: the targets exist, and those
with a template to read are spelled plainly. -/
structure Ready (layout : Layout) (targets : List Path) (fs : FileSystem) : Prop where
  sound : fs.Sound
  enters : fs.Enters layout.configDir.text
  apart : layout.Apart fs.workingDirectory targets
  target : ∀ r ∈ targets, ∃ old, fs.readBytes (layout.target r).text = .ok old
  plain : ∀ r ∈ targets, (fs.fileAt? (layout.templatePlace fs.workingDirectory r)).isSome → r.Plain

namespace Ready

theorem isSome_target (h : Ready layout targets fs) (hr : r ∈ targets) :
    (fs.fileAt? (layout.targetPlace fs.workingDirectory r)).isSome := by
  obtain ⟨old, hold⟩ := h.target r hr
  rw [fileAt?_of_readBytes_target h.sound hold]
  rfl

/-- A target is read at its place. -/
theorem readBytes_target (h : Ready layout targets fs) (hr : r ∈ targets) {bytes : Bytes}
    (hfile : fs.fileAt? (layout.targetPlace fs.workingDirectory r) = some bytes) :
    fs.readBytes (layout.target r).text = .ok bytes := by
  obtain ⟨old, hold⟩ := h.target r hr
  have hsame := (fileAt?_of_readBytes_target h.sound hold).symm.trans hfile
  exact Option.some.inj hsame ▸ hold

theorem template_eq (h : Ready layout targets fs) (ht : Touched layout done fs fs')
    (hdone : ∀ r ∈ done, r ∈ targets) (hr : r ∈ targets) :
    fs'.fileAt? (layout.templatePlace fs.workingDirectory r) =
      fs.fileAt? (layout.templatePlace fs.workingDirectory r) :=
  ht.fileAt?_eq fun _ hr' => not_written_template h.apart hr (hdone _ hr')

/-- Target and snapshot of a target whose turn was not among the turns are as they were. -/
theorem place_eq (h : Ready layout targets fs) (ht : Touched layout done fs fs')
    (hdone : ∀ r ∈ done, r ∈ targets) (hr : r ∈ targets) (hnot : r ∉ done)
    (hl : l ∈ layout.places fs.workingDirectory r) : fs'.fileAt? l = fs.fileAt? l := by
  refine ht.fileAt?_eq fun r' hr' hw => hnot ?_
  exact eq_of_written h.apart hr (hdone r' hr') hl hw ▸ hr'

theorem touched (h : Ready layout targets fs) (ht : Touched layout done fs fs')
    (hdone : ∀ r ∈ done, r ∈ targets) : Ready layout targets fs' where
  sound := ht.sound
  enters := h.enters.mono ht.keeps
  apart := ht.workingDirectory ▸ h.apart
  target := by
    intro r hr
    obtain ⟨old, hold⟩ := h.target r hr
    obtain ⟨hreach, hfile⟩ := (FileSystem.readBytes_eq_ok_iff h.sound.linkFree).mp hold
    obtain ⟨new, hnew⟩ := Option.isSome_iff_exists.mp (ht.isSome_fileAt? (by rw [hfile]; rfl))
    refine ⟨new, (FileSystem.readBytes_eq_ok_iff ht.sound.linkFree).mpr
      ⟨hreach.mono ht.keeps, ?_⟩⟩
    rw [ht.workingDirectory, hnew]
  plain := by
    intro r hr hfile
    rw [ht.workingDirectory, h.template_eq ht hdone hr] at hfile
    exact h.plain r hr hfile

theorem renderTarget_eq (h : Ready layout targets fs) (ht : Touched layout done fs fs')
    (hdone : ∀ r ∈ done, r ∈ targets) (hr : r ∈ targets)
    (htemplate : (fs.fileAt? (layout.templatePlace fs.workingDirectory r)).isSome)
    (config : Tree) : renderTarget fs' layout config r = renderTarget fs layout config r := by
  obtain ⟨template, hfile⟩ := Option.isSome_iff_exists.mp htemplate
  have hplain := h.plain r hr htemplate
  have hfile' := (h.template_eq ht hdone hr).trans hfile
  rw [← ht.workingDirectory] at hfile'
  rw [Apply.renderTarget_eq h.sound h.enters hplain hfile,
    Apply.renderTarget_eq ht.sound (h.touched ht hdone).enters hplain hfile']

end Ready

/-! ## One turn -/

/-- The targets that have a template to read, the only ones whose turn can write anything. -/
def rendered (layout : Layout) (fs : FileSystem) (files : List Path) : List Path :=
  files.filter fun r => (fs.fileAt? (layout.templatePlace fs.workingDirectory r)).isSome

theorem mem_rendered_iff :
    r ∈ rendered layout fs files ↔
      r ∈ files ∧ (fs.fileAt? (layout.templatePlace fs.workingDirectory r)).isSome := by
  simp [rendered]

theorem mem_of_rendered (h : r ∈ rendered layout fs files) : r ∈ files :=
  (mem_rendered_iff.mp h).1

theorem template_of_renderTarget (hs : fs.Sound) {content : Text}
    (hrender : renderTarget fs layout config r = .ok content) :
    (fs.fileAt? (layout.templatePlace fs.workingDirectory r)).isSome := by
  unfold renderTarget FileSystem.readText at hrender
  cases hread : fs.readBytes (layout.template r).text with
  | error e => simp [hread] at hrender
  | ok content =>
    rw [Layout.templatePlace, ((FileSystem.readBytes_eq_ok_iff hs.linkFree).mp hread).2]
    rfl

theorem template_of_judge (hs : fs.Sound) {accepted : Bool} {plan : Plan}
    (hjudge : judge fs layout config accepted r = .ok plan) :
    (fs.fileAt? (layout.templatePlace fs.workingDirectory r)).isSome :=
  template_of_renderTarget hs (judge_eq_ok_iff.mp hjudge).2

theorem touched_target {old : Bytes} (hs : fs.Sound) (hplain : r.Plain)
    (hold : fs.readBytes (layout.target r).text = .ok old) (content : Bytes) :
    Touched layout [r] fs (fs.put (layout.targetPlace fs.workingDirectory r) (.file content)) := by
  have hput := becomes_target hs hold content
  have hface := FileSystem.fileAt?_eq_some_iff.mp (fileAt?_of_readBytes_target hs hold)
  refine ⟨hput.sound, hput.workingDirectory, fun l => ?_⟩
  by_cases hl : l = layout.targetPlace fs.workingDirectory r
  · refine Or.inr (Or.inl ⟨by simp [hl, hface], ?_, r, by simp, hplain, Or.inl hl⟩)
    rw [FileSystem.fileAt?, hput.face, if_pos hl]
    rfl
  · apply Or.inl
    rw [hput.face, if_neg hl]

theorem touched_snapshot {content : Bytes} (hs : fs.Sound) (hplain : r.Plain)
    (hfree : ¬Blocked fs (layout.configPlace fs.workingDirectory)
      (Layout.snapshotsName :: r.names))
    (h : Becomes fs fs' (FileSystem.withFile (layout.configPlace fs.workingDirectory)
      (Layout.snapshotsName :: r.names) content fs)) : Touched layout [r] fs fs' := by
  refine ⟨h.sound, h.workingDirectory, fun l => ?_⟩
  have hface := h.face l
  rcases FileSystem.withFile_cases hs.linkFree hfree content l with
    ⟨hl, hfile⟩ | hsame | ⟨hway, hnone, hdir⟩
  · refine Or.inr (Or.inl ⟨by rw [hl]; exact (not_or.mp hfree).1, ?_, r, by simp, hplain,
      Or.inr ?_⟩)
    · rw [FileSystem.fileAt?, hface, hfile]
      rfl
    · rw [hl, Layout.snapshotPlace_eq layout _ hplain]
  · exact Or.inl (hface.trans hsame)
  · exact Or.inr (Or.inr ⟨hnone, hface.trans hdir, r, by simp, hplain, hway⟩)

/-- What a turn does is seen at the target, at its snapshot and on the way to the snapshot. -/
theorem touched_applyTarget (config : Tree) (options : Options) (h : Ready layout targets fs)
    (hr : r ∈ targets) :
    Touched layout (rendered layout fs [r]) fs (applyTarget layout config options r fs).2 := by
  cases hjudge : judge fs layout config (options.accepted.contains r) r with
  | error failure =>
    rw [applyTarget_of_error hjudge]
    exact Touched.refl h.sound _
  | ok plan =>
    cases hdry : options.dryRun with
    | true =>
      rw [applyTarget_of_dryRun hjudge hdry]
      exact Touched.refl h.sound _
    | false =>
      have htemplate := template_of_judge h.sound hjudge
      have hplain := h.plain r hr htemplate
      obtain ⟨old, hold⟩ := h.target r hr
      have hsub : ∀ r' ∈ [r], r' ∈ rendered layout fs [r] :=
        fun r' hr' => mem_rendered_iff.mpr ⟨hr', List.mem_singleton.mp hr' ▸ htemplate⟩
      have htarget := touched_target h.sound hplain hold (Utf8.encode plan.content)
      by_cases hblocked : Blocked fs (layout.configPlace fs.workingDirectory)
          (Layout.snapshotsName :: r.names)
      · obtain ⟨e, he⟩ :=
          applyTarget_blocked h.sound h.enters hplain hold hjudge hdry hblocked
        rw [he]
        exact htarget.mono hsub
      · obtain ⟨fs', hfs', hbecomes⟩ :=
          applyTarget_free h.sound h.enters hplain hold hjudge hdry hblocked
        rw [hfs']
        have hfree := mt (blocked_target_iff h.sound hold (Utf8.encode plan.content)).mp hblocked
        exact (htarget.trans (touched_snapshot htarget.sound hplain hfree
          ⟨hbecomes.sound, hbecomes.workingDirectory, hbecomes.face⟩)).mono hsub

/-! ## How a turn ends -/

/-- How a turn fails: before anything is written, or when the target has been written. -/
theorem applyTarget_error (h : Ready layout targets fs) (hr : r ∈ targets) {failure : Failure}
    (hfail : (applyTarget layout config options r fs).1 = .error failure) :
    failure.target = r ∧
      ((judge fs layout config (options.accepted.contains r) r = .error failure ∧
          (applyTarget layout config options r fs).2 = fs) ∨
        ∃ plan, options.dryRun = false ∧
          judge fs layout config (options.accepted.contains r) r = .ok plan ∧
          Blocked fs (layout.configPlace fs.workingDirectory) (Layout.snapshotsName :: r.names) ∧
          (applyTarget layout config options r fs).2 =
            fs.put (layout.targetPlace fs.workingDirectory r)
              (.file (Utf8.encode plan.content))) := by
  cases hjudge : judge fs layout config (options.accepted.contains r) r with
  | error found =>
    have hturn := applyTarget_of_error hjudge
    rw [hturn] at hfail ⊢
    obtain rfl : found = failure := Except.error.inj hfail
    exact ⟨judge_error_target hjudge, Or.inl ⟨rfl, rfl⟩⟩
  | ok plan =>
    cases hdry : options.dryRun with
    | true =>
      rw [applyTarget_of_dryRun hjudge hdry] at hfail
      simp at hfail
    | false =>
      have hplain := h.plain r hr (template_of_judge h.sound hjudge)
      obtain ⟨old, hold⟩ := h.target r hr
      by_cases hblocked : Blocked fs (layout.configPlace fs.workingDirectory)
          (Layout.snapshotsName :: r.names)
      · obtain ⟨e, he⟩ := applyTarget_blocked h.sound h.enters hplain hold hjudge hdry hblocked
        rw [he] at hfail ⊢
        refine ⟨Except.error.inj hfail ▸ rfl, Or.inr ⟨plan, rfl, rfl, hblocked, rfl⟩⟩
      · obtain ⟨fs', hfs', -⟩ := applyTarget_free h.sound h.enters hplain hold hjudge hdry hblocked
        rw [hfs'] at hfail
        simp at hfail

/-- How a turn succeeds: with nothing written in a rehearsal, and otherwise with the rendered text
in both the target and its snapshot. -/
theorem applyTarget_ok (h : Ready layout targets fs) (hr : r ∈ targets) {applied : Applied}
    (hok : (applyTarget layout config options r fs).1 = .ok applied) :
    ∃ plan, judge fs layout config (options.accepted.contains r) r = .ok plan ∧
      applied = appliedEntry options r plan ∧
      ((options.dryRun = true ∧ (applyTarget layout config options r fs).2 = fs) ∨
        (options.dryRun = false ∧
          (applyTarget layout config options r fs).2.fileAt?
            (layout.targetPlace fs.workingDirectory r) = some (Utf8.encode plan.content) ∧
          (applyTarget layout config options r fs).2.fileAt?
            (layout.snapshotPlace fs.workingDirectory r) = some (Utf8.encode plan.content))) := by
  cases hjudge : judge fs layout config (options.accepted.contains r) r with
  | error failure =>
    rw [applyTarget_of_error hjudge] at hok
    simp at hok
  | ok plan =>
    refine ⟨plan, rfl, ?_⟩
    cases hdry : options.dryRun with
    | true =>
      rw [applyTarget_of_dryRun hjudge hdry] at hok ⊢
      exact ⟨(Except.ok.inj hok).symm, Or.inl ⟨rfl, rfl⟩⟩
    | false =>
      have hplain := h.plain r hr (template_of_judge h.sound hjudge)
      obtain ⟨old, hold⟩ := h.target r hr
      by_cases hblocked : Blocked fs (layout.configPlace fs.workingDirectory)
          (Layout.snapshotsName :: r.names)
      · obtain ⟨e, he⟩ := applyTarget_blocked h.sound h.enters hplain hold hjudge hdry hblocked
        rw [he] at hok
        simp at hok
      · obtain ⟨fs', hfs', hbecomes⟩ :=
          applyTarget_free h.sound h.enters hplain hold hjudge hdry hblocked
        rw [hfs'] at hok ⊢
        refine ⟨(Except.ok.inj hok).symm, Or.inr ⟨rfl, ?_, ?_⟩⟩
        · rw [FileSystem.fileAt?_eq_some_iff, hbecomes.face, FileSystem.withFile,
            FileSystem.withDirectories]
          split_ifs with hsnapshot hway
          · rfl
          · -- The target is a file, and no file is on the way to a snapshot that is written.
            refine absurd (Or.inr ⟨_, hway, ?_⟩) hblocked
            rw [fileAt?_of_readBytes_target h.sound hold]
            rfl
          · rw [(becomes_target h.sound hold _).face, if_pos rfl]
        · rw [FileSystem.fileAt?_eq_some_iff, hbecomes.face, FileSystem.withFile,
            if_pos (Layout.snapshotPlace_eq layout _ hplain)]

/-- A turn that writes no snapshot leaves it alone. -/
theorem applyTarget_snapshot (config : Tree) (options : Options) (h : Ready layout targets fs)
    (hr : r ∈ targets)
    (hnot : ∀ applied, (applyTarget layout config options r fs).1 = .ok applied →
      options.dryRun = true) :
    (applyTarget layout config options r fs).2.fileAt?
        (layout.snapshotPlace fs.workingDirectory r) =
      fs.fileAt? (layout.snapshotPlace fs.workingDirectory r) := by
  cases hturn : (applyTarget layout config options r fs).1 with
  | error failure =>
    rcases (applyTarget_error h hr hturn).2 with ⟨-, hsame⟩ | ⟨plan, -, -, -, hput⟩
    · rw [hsame]
    · obtain ⟨old, hold⟩ := h.target r hr
      have hnodup := h.apart.nodup_places hr
      simp only [Layout.places, List.nodup_cons, List.mem_cons, List.not_mem_nil,
        or_false] at hnodup
      rw [hput]
      refine FileSystem.fileAt?_congr ?_
      rw [(becomes_target h.sound hold _).face, if_neg fun heq => hnodup.2.1 heq.symm]
  | ok applied =>
    obtain ⟨plan, -, -, ⟨-, hsame⟩ | ⟨hdry, -, -⟩⟩ := applyTarget_ok h hr hturn
    · rw [hsame]
    · simp [hnot applied hturn] at hdry

/-! ## The whole pass -/

/-- What a pass does is seen at its targets, at their snapshots and on the way to these. -/
theorem touched_applyAll (config : Tree) (options : Options) (h : Ready layout targets fs)
    (hfiles : ∀ r ∈ files, r ∈ targets) :
    Touched layout (rendered layout fs files) fs
      (applyAll layout config options files fs).after := by
  induction files generalizing fs with
  | nil => exact Touched.refl h.sound _
  | cons r rest ih =>
    have hr : r ∈ targets := hfiles r List.mem_cons_self
    have hfirst := touched_applyTarget config options h hr
    have hone : ∀ r' ∈ rendered layout fs [r], r' ∈ targets :=
      fun r' hr' => List.mem_singleton.mp (mem_of_rendered hr') ▸ hr
    have hrest := ih (h.touched hfirst hone) fun r' hr' => hfiles r' (List.mem_cons_of_mem _ hr')
    rw [after_cons]
    refine (hfirst.mono fun r' hr' => ?_).trans (hrest.mono fun r' hr' => ?_)
    · obtain ⟨hmem, htemplate⟩ := mem_rendered_iff.mp hr'
      exact mem_rendered_iff.mpr
        ⟨List.mem_singleton.mp hmem ▸ List.mem_cons_self, htemplate⟩
    · obtain ⟨hmem, htemplate⟩ := mem_rendered_iff.mp hr'
      rw [hfirst.workingDirectory,
        h.template_eq hfirst hone (hfiles r' (List.mem_cons_of_mem _ hmem))] at htemplate
      exact mem_rendered_iff.mpr ⟨List.mem_cons_of_mem _ hmem, htemplate⟩

/-- The turn of one target in a pass: what is known then, and that its files stay as the turn
leaves them. -/
structure AtTurn (layout : Layout) (config : Tree) (options : Options) (targets : List Path)
    (fs : FileSystem) (before : List Path) (r : Path) : Prop where
  mem : r ∈ targets
  before_mem : ∀ r' ∈ before, r' ∈ targets
  not_before : r ∉ before
  touched : Touched layout (rendered layout fs before) fs
    (applyAll layout config options before fs).after
  ready : Ready layout targets (applyAll layout config options before fs).after
  after_eq : ∀ l ∈ layout.places fs.workingDirectory r,
    (applyAll layout config options targets fs).after.fileAt? l =
      (applyTarget layout config options r
        (applyAll layout config options before fs).after).2.fileAt? l

theorem Ready.atTurn (h : Ready layout targets fs) {before later : List Path}
    (hsplit : targets = before ++ r :: later) (config : Tree) (options : Options) :
    AtTurn layout config options targets fs before r := by
  have hmem : ∀ r', r' ∈ targets ↔ r' ∈ before ∨ r' = r ∨ r' ∈ later := by simp [hsplit]
  have hbefore : ∀ r' ∈ before, r' ∈ targets := fun r' h => (hmem r').mpr (Or.inl h)
  have hr : r ∈ targets := (hmem r).mpr (Or.inr (Or.inl rfl))
  have hlater : ∀ r' ∈ later, r' ∈ targets := fun r' h => (hmem r').mpr (Or.inr (Or.inr h))
  have hnodup := h.apart.nodup
  rw [hsplit, List.nodup_append, List.nodup_cons] at hnodup
  have ht := touched_applyAll config options h hbefore
  have hready := h.touched ht fun r' h => hbefore r' (mem_of_rendered h)
  have hturn := touched_applyTarget config options hready hr
  have hready' := hready.touched hturn
    fun r' h => List.mem_singleton.mp (mem_of_rendered h) ▸ hr
  have hrest := touched_applyAll config options hready' hlater
  refine ⟨hr, hbefore, fun h => hnodup.2.2 r h r List.mem_cons_self rfl, ht, hready, ?_⟩
  intro l hl
  rw [hsplit, after_append_cons]
  exact hready'.place_eq hrest (fun r' h => hlater r' (mem_of_rendered h)) hr
    (fun h => hnodup.2.1.1 (mem_of_rendered h))
    ((hturn.workingDirectory.trans ht.workingDirectory) ▸ hl)

/-- At the turn of a target its files are as they were before the pass. -/
theorem AtTurn.place_eq {before : List Path} (h : Ready layout targets fs)
    (hturn : AtTurn layout config options targets fs before r)
    (hl : l ∈ layout.places fs.workingDirectory r) :
    (applyAll layout config options before fs).after.fileAt? l = fs.fileAt? l :=
  h.place_eq hturn.touched (fun r' hr' => hturn.before_mem r' (mem_of_rendered hr'))
    hturn.mem (fun hr => hturn.not_before (mem_of_rendered hr)) hl

/-! ## Running a pass -/

theorem check_eq_ok_iff :
    check layout fs targets = .ok () ↔
      ∀ r ∈ targets, fs.isFile (layout.target r).text = true := by
  have hnil : missing layout fs targets = [] ↔
      ∀ r ∈ targets, fs.isFile (layout.target r).text = true := by
    simp [missing, List.filter_eq_nil_iff]
  rw [← hnil]
  unfold check
  cases missing layout fs targets with
  | nil => simp
  | cons first rest => simp

theorem run_eq_ok_iff {pass : Pass} :
    run layout config options fs = .ok pass ↔
      ∃ targets, scheduled layout fs = .ok targets ∧
        (∀ r ∈ targets, fs.isFile (layout.target r).text = true) ∧
        applyAll layout config options targets fs = pass := by
  simp only [← check_eq_ok_iff]
  unfold run
  cases scheduled layout fs with
  | error e => simp
  | ok targets =>
    cases hcheck : check layout fs targets with
    | error e => simp [hcheck]
    | ok _ => simp [hcheck]

theorem Ready.of_scheduled (hs : fs.Sound) (h : scheduled layout fs = .ok targets)
    (htargets : ∀ r ∈ targets, fs.isFile (layout.target r).text = true)
    (hapart : layout.Apart fs.workingDirectory targets) : Ready layout targets fs where
  sound := hs
  enters := enters_of_scheduled hs h
  apart := hapart
  target := fun r hr => FileSystem.isFile_iff.mp (htargets r hr)
  plain := fun _ hr hfile => plain_of_template hs h hapart hr hfile

/-- Whether files are ready for a pass over some targets, in terms that can be evaluated. -/
structure Prepared (layout : Layout) (fs : FileSystem) (targets : List Path) : Prop where
  sound : fs.Sound
  lacksBackslash : DirEntry.lacksBackslash (.directory fs.root) = true
  directory : fs.isDirectory layout.templatesDir.text = true
  listed : fs.listFiles layout.templatesDir = .ok targets
  sorted : targets.Pairwise fun a b => Text.atMost a.text b.text = true
  apart : layout.Apart fs.workingDirectory targets
  present : ∀ r ∈ targets, fs.isFile (layout.target r).text = true

instance (layout : Layout) (fs : FileSystem) (targets : List Path) :
    Decidable (Prepared layout fs targets) :=
  decidable_of_iff
    (fs.Sound ∧ DirEntry.lacksBackslash (.directory fs.root) = true ∧
      fs.isDirectory layout.templatesDir.text = true ∧
      fs.listFiles layout.templatesDir = .ok targets ∧
      (targets.Pairwise fun a b => Text.atMost a.text b.text = true) ∧
      layout.Apart fs.workingDirectory targets ∧
      ∀ r ∈ targets, fs.isFile (layout.target r).text = true)
    ⟨fun ⟨h1, h2, h3, h4, h5, h6, h7⟩ => ⟨h1, h2, h3, h4, h5, h6, h7⟩,
      fun ⟨h1, h2, h3, h4, h5, h6, h7⟩ => ⟨h1, h2, h3, h4, h5, h6, h7⟩⟩

namespace Prepared

variable (h : Prepared layout fs targets)

include h

theorem noBackslash : fs.NoBackslash :=
  FileSystem.noBackslash_of_lacksBackslash h.lacksBackslash

/-- Templates that are listed in order need no sorting. -/
theorem scheduled_eq : scheduled layout fs = .ok targets :=
  scheduled_eq_ok_iff.mpr ⟨h.directory, targets, h.listed, List.mergeSort_of_pairwise h.sorted⟩

theorem run_eq (config : Tree) (options : Options) :
    run layout config options fs = .ok (applyAll layout config options targets fs) :=
  run_eq_ok_iff.mpr ⟨targets, h.scheduled_eq, h.present, rfl⟩

end Prepared

end LayeredConfig.Apply
