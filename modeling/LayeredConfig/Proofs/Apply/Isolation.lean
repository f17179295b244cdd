import LayeredConfig.Proofs.Apply.Pass

/-!
# The turns of other targets

What becomes of a target in a pass is decided by the files before the pass, whatever becomes of the
targets before it and after it.  Main statements:

* `Ready.judge_eq`, `Ready.blocked_iff` — the turns of other targets change neither the judgement
  of a target nor whether its snapshot is blocked;
* `AtTurn.outcome` — **how the turn of a target ends**, by the files before the pass;
* `entries_of_report` — every target has one entry in the report, and the order of the targets is
  kept.

At the end are files with a target of each outcome, on which the results about whole passes are
tried.
-/

namespace LayeredConfig.Apply

open FileSystem (Blocked OnWay)

variable {fs fs' : FileSystem} {layout : Layout} {config : Tree} {options : Options}
  {r r' : Path} {files before done targets : List Path} {plan : Plan}

/-! ## The turns of other targets -/

/-- Templates are files, so the path of none goes on where another one ends. -/
theorem names_eq_of_isPrefix (hr : r.Plain) (hr' : r'.Plain)
    (htemplate : (fs.fileAt? (layout.templatePlace fs.workingDirectory r)).isSome)
    (htemplate' : (fs.fileAt? (layout.templatePlace fs.workingDirectory r')).isSome)
    (hpre : r.names <+: r'.names) : r.names = r'.names := by
  by_contra hne
  rw [Layout.templatePlace_eq layout _ hr] at htemplate
  rw [Layout.templatePlace_eq layout _ hr'] at htemplate'
  obtain ⟨content, hfile⟩ := Option.isSome_iff_exists.mp htemplate
  obtain ⟨content', hfile'⟩ := Option.isSome_iff_exists.mp htemplate'
  have hprefix : layout.configPlace fs.workingDirectory ++ Layout.templatesName :: r.names <+:
      layout.configPlace fs.workingDirectory ++ Layout.templatesName :: r'.names :=
    (List.prefix_append_right_inj _).mpr (List.cons_prefix_cons.mpr ⟨rfl, hpre⟩)
  have hthere : fs.faceAt? (layout.configPlace fs.workingDirectory ++
      Layout.templatesName :: r'.names) ≠ none := by
    rw [FileSystem.fileAt?_eq_some_iff.mp hfile']
    simp
  have hdir := FileSystem.faceAt?_of_prefix hprefix
    (fun heq => hne (List.cons.inj (List.append_cancel_left heq)).2) hthere
  rw [FileSystem.fileAt?_eq_some_iff.mp hfile] at hdir
  simp at hdir

theorem prefix_of_onWay {here names names' : Location} {sub : Text} (hne : names' ≠ [])
    (h : OnWay here (sub :: names').dropLast (here ++ sub :: names)) :
    names <+: names' ∧ names ≠ names' := by
  have hpre := (List.prefix_append_right_inj here).mp h.2.2
  rw [List.dropLast_cons_of_ne_nil hne] at hpre
  have hpre' := (List.cons_prefix_cons.mp hpre).2
  refine ⟨hpre'.trans (List.dropLast_prefix names'), ?_⟩
  intro heq
  subst heq
  have hlen := hpre'.length_le
  have hpos := List.length_pos_iff.mpr hne
  rw [List.length_dropLast] at hlen
  omega

namespace Ready

theorem judge_eq (h : Ready layout targets fs)
    (ht : Touched layout (rendered layout fs done) fs fs') (hdone : ∀ r ∈ done, r ∈ targets)
    (hr : r ∈ targets) (hnot : r ∉ done)
    (htemplate : (fs.fileAt? (layout.templatePlace fs.workingDirectory r)).isSome)
    (config : Tree) (accepted : Bool) :
    judge fs' layout config accepted r = judge fs layout config accepted r := by
  have hdone' : ∀ r ∈ rendered layout fs done, r ∈ targets :=
    fun r hr => hdone r (mem_of_rendered hr)
  have hnot' : r ∉ rendered layout fs done := fun hmem => hnot (mem_of_rendered hmem)
  have hready := h.touched ht hdone'
  obtain ⟨old, hold⟩ := h.target r hr
  obtain ⟨template, hfile⟩ := Option.isSome_iff_exists.mp htemplate
  have hold' := FileSystem.readBytes_of_keeps h.sound.linkFree ht.sound.linkFree ht.keeps hold
    (h.place_eq ht hdone' hr hnot' (by simp [Layout.places, Layout.targetPlace]))
  exact judge_congr h.sound ht.sound h.enters hready.enters ht.workingDirectory
    (h.plain r hr htemplate) hold hold' hfile ((h.template_eq ht hdone' hr).trans hfile)
    (h.place_eq ht hdone' hr hnot' (by simp [Layout.places])) accepted

/-- Only directories and files of other snapshots could come to be in the way, and as the
templates are all files these are somewhere else. -/
theorem blocked_iff (h : Ready layout targets fs)
    (ht : Touched layout (rendered layout fs done) fs fs') (hdone : ∀ r ∈ done, r ∈ targets)
    (hplain : r.Plain)
    (htemplate : (fs.fileAt? (layout.templatePlace fs.workingDirectory r)).isSome) :
    Blocked fs' (layout.configPlace fs.workingDirectory) (Layout.snapshotsName :: r.names) ↔
      Blocked fs (layout.configPlace fs.workingDirectory) (Layout.snapshotsName :: r.names) := by
  constructor
  · intro hblocked
    rcases hblocked with hdir | ⟨l, hway, hfile⟩
    · rcases ht.face _ with heq | ⟨-, hfile, -⟩ | ⟨-, -, r', hr', hplain', hway⟩
      · exact Or.inl (heq ▸ hdir)
      · simp [FileSystem.fileAt?, hdir, Face.content?] at hfile
      · obtain ⟨hpre, hne⟩ := prefix_of_onWay r'.names_ne_nil hway
        exact absurd
          (names_eq_of_isPrefix hplain hplain' htemplate (mem_rendered_iff.mp hr').2 hpre)
          hne
    · rcases ht.face l with heq | ⟨-, -, r', hr', hplain', htarget | hsnapshot⟩ | ⟨-, hdir, -⟩
      · exact Or.inr ⟨l, hway, by rwa [FileSystem.fileAt?_congr heq] at hfile⟩
      · exact Or.inr ⟨l, hway, htarget ▸ h.isSome_target (hdone r' (mem_of_rendered hr'))⟩
      · rw [hsnapshot, Layout.snapshotPlace_eq layout _ hplain'] at hway
        obtain ⟨hpre, hne⟩ := prefix_of_onWay r.names_ne_nil hway
        exact absurd
          (names_eq_of_isPrefix hplain' hplain (mem_rendered_iff.mp hr').2 htemplate hpre)
          hne
      · simp [FileSystem.fileAt?, hdir, Face.content?] at hfile
  · intro hblocked
    rcases hblocked with hdir | ⟨l, hway, hfile⟩
    · exact Or.inl (ht.keeps.directory _ hdir)
    · exact Or.inr ⟨l, hway, ht.isSome_fileAt? hfile⟩

end Ready

/-! ## How a turn ends -/

/-- Whether the snapshot of a target can not be written when it has to be. -/
structure WriteFails (layout : Layout) (options : Options) (fs : FileSystem) (r : Path) :
    Prop where
  dryRun : options.dryRun = false
  blocked : Blocked fs (layout.configPlace fs.workingDirectory) (Layout.snapshotsName :: r.names)

theorem applyTarget_of_writeFails (h : Ready layout targets fs) (hr : r ∈ targets)
    (hjudge : judge fs layout config (options.accepted.contains r) r = .ok plan)
    (hfails : WriteFails layout options fs r) :
    ∃ e, (applyTarget layout config options r fs).1 = .error (.access r e) := by
  obtain ⟨old, hold⟩ := h.target r hr
  have hplain := h.plain r hr (template_of_judge h.sound hjudge)
  obtain ⟨e, he⟩ := applyTarget_blocked h.sound h.enters hplain hold hjudge hfails.dryRun
    hfails.blocked
  exact ⟨e, by rw [he]⟩

theorem applyTarget_of_not_writeFails (h : Ready layout targets fs) (hr : r ∈ targets)
    (hjudge : judge fs layout config (options.accepted.contains r) r = .ok plan)
    (hwrites : ¬WriteFails layout options fs r) :
    (applyTarget layout config options r fs).1 = .ok (appliedEntry options r plan) := by
  cases hdry : options.dryRun with
  | true => rw [applyTarget_of_dryRun hjudge hdry]
  | false =>
    obtain ⟨old, hold⟩ := h.target r hr
    have hplain := h.plain r hr (template_of_judge h.sound hjudge)
    obtain ⟨fs', hfs', -⟩ := applyTarget_free h.sound h.enters hplain hold hjudge hdry
      fun hblocked => hwrites ⟨hdry, hblocked⟩
    rw [hfs']

namespace AtTurn

theorem judge_eq (hturn : AtTurn layout config options targets fs before r)
    (h : Ready layout targets fs)
    (htemplate : (fs.fileAt? (layout.templatePlace fs.workingDirectory r)).isSome)
    (accepted : Bool) :
    judge (applyAll layout config options before fs).after layout config accepted r =
      judge fs layout config accepted r :=
  h.judge_eq hturn.touched hturn.before_mem hturn.mem hturn.not_before htemplate config accepted

theorem writeFails_iff (hturn : AtTurn layout config options targets fs before r)
    (h : Ready layout targets fs)
    (htemplate : (fs.fileAt? (layout.templatePlace fs.workingDirectory r)).isSome) :
    WriteFails layout options (applyAll layout config options before fs).after r ↔
      WriteFails layout options fs r := by
  have hwd := hturn.touched.workingDirectory
  have hblocked :=
    h.blocked_iff hturn.touched hturn.before_mem (h.plain r hturn.mem htemplate) htemplate
  constructor
  · intro hfails
    exact ⟨hfails.dryRun, hblocked.mp (hwd ▸ hfails.blocked)⟩
  · intro hfails
    refine ⟨hfails.dryRun, ?_⟩
    rw [hwd]
    exact hblocked.mpr hfails.blocked

/-- How the turn of a target ends, by the files before the pass. -/
theorem outcome (hturn : AtTurn layout config options targets fs before r)
    (h : Ready layout targets fs)
    (htemplate : (fs.fileAt? (layout.templatePlace fs.workingDirectory r)).isSome) :
    (∀ failure, judge fs layout config (options.accepted.contains r) r = .error failure →
      (applyTarget layout config options r (applyAll layout config options before fs).after).1 =
        .error failure) ∧
    ∀ plan, judge fs layout config (options.accepted.contains r) r = .ok plan →
      (WriteFails layout options fs r → ∃ e,
        (applyTarget layout config options r (applyAll layout config options before fs).after).1 =
          .error (.access r e)) ∧
      (¬WriteFails layout options fs r →
        (applyTarget layout config options r (applyAll layout config options before fs).after).1 =
          .ok (appliedEntry options r plan)) := by
  have hjudge := hturn.judge_eq h htemplate (options.accepted.contains r)
  refine ⟨fun failure hfail => ?_, fun plan hok => ⟨fun hfails => ?_, fun hwrites => ?_⟩⟩
  · rw [applyTarget_of_error (hjudge.trans hfail)]
  · exact applyTarget_of_writeFails hturn.ready hturn.mem (hjudge.trans hok)
      ((hturn.writeFails_iff h htemplate).mpr hfails)
  · exact applyTarget_of_not_writeFails hturn.ready hturn.mem (hjudge.trans hok)
      fun hfails => hwrites ((hturn.writeFails_iff h htemplate).mp hfails)

end AtTurn

/-! ## The entries of a report -/

/-- A turn that fails although the target is judged to be written fails by a write. -/
theorem applyTarget_error_of_ok {failure : Failure}
    (hjudge : judge fs layout config (options.accepted.contains r) r = .ok plan)
    (hfail : (applyTarget layout config options r fs).1 = .error failure) :
    ∃ e, failure = .access r e := by
  simp only [applyTarget, hjudge] at hfail
  split_ifs at hfail
  split at hfail
  · exact ⟨_, (Except.error.inj hfail).symm⟩
  · simp at hfail

/-- The entry of a target names it. -/
theorem applyTarget_names (layout : Layout) (config : Tree) (options : Options) (r : Path)
    (fs : FileSystem) :
    (∀ applied, (applyTarget layout config options r fs).1 = .ok applied → applied.file = r) ∧
      ∀ failure, (applyTarget layout config options r fs).1 = .error failure →
        failure.target = r := by
  cases hjudge : judge fs layout config (options.accepted.contains r) r with
  | error found =>
    rw [applyTarget_of_error hjudge]
    exact ⟨by simp, fun failure hfail => Except.error.inj hfail ▸ judge_error_target hjudge⟩
  | ok plan =>
    constructor
    · intro applied hok
      simp only [applyTarget, hjudge] at hok
      split_ifs at hok
      · exact Except.ok.inj hok ▸ rfl
      · split at hok
        · simp at hok
        · exact Except.ok.inj hok ▸ rfl
    · intro failure hfail
      obtain ⟨e, rfl⟩ := applyTarget_error_of_ok hjudge hfail
      rfl

/-- Every target has one entry, either an applied one or a failure, and both lists are in the order
of the targets. -/
theorem entries_of_report (layout : Layout) (config : Tree) (options : Options)
    (files : List Path) (fs : FileSystem) :
    let report := (applyAll layout config options files fs).report
    (report.applied.map Applied.file ++ report.failures.map Failure.target).Perm files ∧
      (report.applied.map Applied.file).Sublist files ∧
      (report.failures.map Failure.target).Sublist files := by
  induction files generalizing fs with
  | nil => exact ⟨List.Perm.refl _, List.Sublist.slnil, List.Sublist.slnil⟩
  | cons r rest ih =>
    obtain ⟨hperm, happlied, hfailures⟩ := ih (applyTarget layout config options r fs).2
    obtain ⟨hfile, htarget⟩ := applyTarget_names layout config options r fs
    rw [report_cons]
    cases hturn : (applyTarget layout config options r fs).1 with
    | ok applied =>
      simp only [Report.prepend, hturn, List.map_cons, List.cons_append, hfile applied hturn]
      exact ⟨hperm.cons r, happlied.cons_cons r, hfailures.cons r⟩
    | error failure =>
      simp only [Report.prepend, hturn, List.map_cons, htarget failure hturn]
      exact ⟨List.perm_middle.trans (hperm.cons r), happlied.cons r, hfailures.cons_cons r⟩

/-- The report of a pass in which every turn succeeds. -/
theorem report_of_ok {entry : Path → Applied}
    (h : ∀ before r later, files = before ++ r :: later →
      (applyTarget layout config options r (applyAll layout config options before fs).after).1 =
        .ok (entry r)) :
    (applyAll layout config options files fs).report = ⟨files.map entry, [], options.dryRun⟩ := by
  induction files generalizing fs with
  | nil => rfl
  | cons first rest ih =>
    have hfirst : (applyTarget layout config options first fs).1 = .ok (entry first) :=
      h [] first rest rfl
    have hrest : (applyAll layout config options rest
        (applyTarget layout config options first fs).2).report =
          ⟨rest.map entry, [], options.dryRun⟩ :=
      ih fun before r later heq => h (first :: before) r later (congrArg (first :: ·) heq)
    rw [report_cons]
    simp only [hrest, hfirst, Report.prepend, List.map_cons]

/-! ## Targets with different outcomes -/

/-- Three templates with their targets: the target `a` has no snapshot, `b` was edited, and the
template of `c/d` has a name of its own. -/
def mixedFiles : FileSystem where
  root :=
    [(Layout.defaultConfigDir, .directory
      [(Layout.snapshotsName, .directory [(['b'], .file (Utf8.encode "base".toList))]),
        (Layout.templatesName, .directory
          [(['a'], .file (Utf8.encode (Template.tokenText ['x']))),
            (['b'], .file (Utf8.encode "new".toList)),
            (['c'], .directory [(['d'], .file (Utf8.encode (Template.tokenText ['y'])))])])]),
      (['a'], .file (Utf8.encode "old".toList)),
      (['b'], .file (Utf8.encode "mine".toList)),
      (['c'], .directory [(['d'], .file (Utf8.encode "old".toList))])]
  workingDirectory := []

/-- The targets of the three templates. -/
def mixedTargets : List Path :=
  [Path.ofText ['a'], Path.ofText ['b'], Path.ofText ['c', '/', 'd']]

/-- A configuration with a value for `x` and none for `y`. -/
def configWithX : Tree :=
  [(['x'], .branch [(Tree.valueKey, .scalar ['1'])])]

theorem prepared_mixedFiles : Prepared .usual mixedFiles mixedTargets := by decide +kernel

/-- With a value for `x` only, `a` is applied. -/
theorem report_mixedFiles :
    let report := (applyAll .usual configWithX .plain mixedTargets mixedFiles).report
    report.applied.map Applied.file = [Path.ofText ['a']] ∧
      report.failures =
        [.drift (Path.ofText ['b']) (Diff.compare "base".toList "mine".toList),
          .unresolved (Path.ofText ['c', '/', 'd']) [['y']]] := by
  decide +kernel

end LayeredConfig.Apply
