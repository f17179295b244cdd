import LayeredConfig.Proofs.Apply.Isolation

/-!
# The verdict on a target

What becomes of a target depends on what its template, the target itself and its snapshot hold when
the pass begins, on the configuration and on whether the target is accepted, and on nothing else.
`verdict` is the table of the cases in the order in which they are tried.  Main statements:

* `judge_eq_verdict` — the judgement of a target is its verdict;
* `report_of_verdicts` — **every scheduled target has exactly one entry in the report, in the order
  of the octets of the paths, and its verdict says which**; only a target that is to be written can
  still fail, where its snapshot can not be written.
-/

namespace LayeredConfig.Apply

open FileSystem (Sound NoBackslash)

variable {fs : FileSystem} {layout : Layout} {config : Tree} {options : Options}
  {r : Path} {targets : List Path} {pass : Pass}

/-- How a target compares with its snapshot, if there is one. -/
def stateOf (target : Bytes) : (snapshot : Option Bytes) → TargetState
  | none => .noSnapshot
  | some snapshot => if target = snapshot then .unchanged else .drifted

/-- The conflict of a target with a snapshot that holds something else. -/
def conflict? (r : Path) (target : Bytes) : (snapshot : Option Bytes) → Option Failure
  | none => none
  | some snapshot =>
    if target = snapshot then none
    else some (.drift r (Diff.compare (Utf8.decodeLossy snapshot) (Utf8.decodeLossy target)))

/-- The verdict on a target by what its template, the target itself and its snapshot hold: a
conflict that is not accepted comes before everything else, then the template has to be text, and
then every name in it has to be expanded. -/
def verdict (layout : Layout) (config : Tree) (accepted : Bool) (r : Path)
    (template target : Bytes) (snapshot : Option Bytes) : Except Failure Plan :=
  match if accepted then none else conflict? r target snapshot, Utf8.decode? template with
  | some failure, _ => .error failure
  | none, none => .error (.access r (.access (layout.template r).text .invalidText))
  | none, some text =>
    let rendered := Template.render config text
    if rendered.complete then .ok ⟨stateOf target snapshot, rendered.text⟩
    else .error (.unresolved r rendered.missing)

/-- The comparison with the snapshot, by the content of both. -/
theorem compareSnapshot_eq_conflict? (hs : fs.Sound) (hC : fs.Enters layout.configDir.text)
    (hr : r.Plain) {old : Bytes} (hold : fs.readBytes (layout.target r).text = .ok old)
    (accepted : Bool) :
    compareSnapshot fs layout accepted r =
      match if accepted then none
          else conflict? r old (fs.fileAt? (layout.snapshotPlace fs.workingDirectory r)) with
      | some failure => .error failure
      | none => .ok (stateOf old (fs.fileAt? (layout.snapshotPlace fs.workingDirectory r))) := by
  rw [compareSnapshot_eq hs hC hr hold]
  cases fs.fileAt? (layout.snapshotPlace fs.workingDirectory r) with
  | none => cases accepted <;> rfl
  | some snapshot =>
    by_cases hsame : old = snapshot
    · cases accepted <;> simp [conflict?, stateOf, hsame]
    · cases accepted <;> simp [conflict?, stateOf, hsame]

/-- The judgement of a target is its verdict. -/
theorem judge_eq_verdict (hs : fs.Sound) (hC : fs.Enters layout.configDir.text) (hr : r.Plain)
    {template old : Bytes}
    (htemplate : fs.fileAt? (layout.templatePlace fs.workingDirectory r) = some template)
    (hold : fs.readBytes (layout.target r).text = .ok old) (config : Tree) (accepted : Bool) :
    judge fs layout config accepted r =
      verdict layout config accepted r template old
        (fs.fileAt? (layout.snapshotPlace fs.workingDirectory r)) := by
  rw [judge, compareSnapshot_eq_conflict? hs hC hr hold, renderTarget_eq hs hC hr htemplate,
    verdict]
  cases (if accepted then none
    else conflict? r old (fs.fileAt? (layout.snapshotPlace fs.workingDirectory r))) with
  | some failure => rfl
  | none =>
    cases Utf8.decode? template with
    | none => rfl
    | some text =>
      by_cases hcomplete : (Template.render config text).complete = true
      · simp only [hcomplete, if_true]
      · simp only [hcomplete, if_false, Bool.false_eq_true]

/-- **The decision table.**  Every scheduled target has one entry in the report, applied targets
and failures are both in the order of the paths, and the entry of a target is the one that the
contents of its own files before the pass ask for. -/
theorem report_of_verdicts (hs : fs.Sound) (hb : fs.NoBackslash)
    (hscheduled : scheduled layout fs = .ok targets)
    (hapart : layout.Apart fs.workingDirectory targets)
    (hrun : run layout config options fs = .ok pass) :
    targets.Pairwise (fun a b => Utf8.encode a.text < Utf8.encode b.text) ∧
    (pass.report.applied.map Applied.file ++
      pass.report.failures.map Failure.target).Perm targets ∧
    (pass.report.applied.map Applied.file).Sublist targets ∧
    (pass.report.failures.map Failure.target).Sublist targets ∧
    ∀ r ∈ targets, ∃ template target,
      fs.fileAt? (layout.templatePlace fs.workingDirectory r) = some template ∧
      fs.fileAt? (layout.targetPlace fs.workingDirectory r) = some target ∧
      let found := verdict layout config (options.accepted.contains r) r template target
        (fs.fileAt? (layout.snapshotPlace fs.workingDirectory r))
      (∀ failure, found = .error failure → failure ∈ pass.report.failures) ∧
      ∀ plan, found = .ok plan →
        (¬WriteFails layout options fs r →
          appliedEntry options r plan ∈ pass.report.applied) ∧
        (WriteFails layout options fs r →
          ∃ e, Failure.access r e ∈ pass.report.failures) := by
  obtain ⟨listed, hlisted, hexist, rfl⟩ := run_eq_ok_iff.mp hrun
  obtain rfl : listed = targets := Except.ok.inj (hlisted.symm.trans hscheduled)
  have hready := Ready.of_scheduled hs hscheduled hexist hapart
  obtain ⟨hperm, happlied, hfailures⟩ := entries_of_report layout config options listed fs
  refine ⟨?_, hperm, happlied, hfailures, fun r hr => ?_⟩
  · refine (pairwise_scheduled hscheduled).imp₂ (fun a b hle hne => ?_) hapart.nodup
    exact Utf8.encode_lt_encode.mpr (lt_of_le_of_ne hle fun heq => hne (Path.ext_text heq))
  · obtain ⟨before, later, hsplit⟩ := List.append_of_mem hr
    have hturn := hready.atTurn hsplit config options
    obtain ⟨hplain, htemplate⟩ := plain_of_noBackslash hs hb hscheduled hr
    obtain ⟨template, htext⟩ := Option.isSome_iff_exists.mp htemplate
    obtain ⟨target, hread⟩ := hready.target r hr
    have hjudge := judge_eq_verdict hs hready.enters hplain htext hread config
      (options.accepted.contains r)
    obtain ⟨herror, hok⟩ := hturn.outcome hready htemplate
    refine ⟨template, target, htext, fileAt?_of_readBytes_target hs hread, ?_, ?_⟩
    · intro failure hfound
      exact mem_failures_iff.mpr
        ⟨before, r, later, hsplit, herror failure (hjudge.trans hfound)⟩
    · intro plan hfound
      obtain ⟨hfails, hwrites⟩ := hok plan (hjudge.trans hfound)
      refine ⟨fun h => ?_, fun h => ?_⟩
      · exact mem_applied_iff.mpr ⟨before, r, later, hsplit, hwrites h⟩
      · obtain ⟨e, he⟩ := hfails h
        exact ⟨e, mem_failures_iff.mpr ⟨before, r, later, hsplit, he⟩⟩

/-- One target of each kind. -/
theorem report_of_verdicts_mixed :
    ∃ pass, run .usual configWithX .plain mixedFiles = .ok pass ∧
      (pass.report.applied.map Applied.file ++
        pass.report.failures.map Failure.target).Perm mixedTargets ∧
      appliedEntry .plain (Path.ofText ['a']) ⟨.noSnapshot, ['1']⟩ ∈ pass.report.applied ∧
      Failure.drift (Path.ofText ['b'])
        (Diff.compare "base".toList "mine".toList) ∈ pass.report.failures ∧
      Failure.unresolved (Path.ofText ['c', '/', 'd']) [['y']] ∈ pass.report.failures := by
  have hrun := prepared_mixedFiles.run_eq configWithX .plain
  obtain ⟨-, hperm, -, -, hentries⟩ :=
    report_of_verdicts prepared_mixedFiles.sound prepared_mixedFiles.noBackslash
      prepared_mixedFiles.scheduled_eq prepared_mixedFiles.apart hrun
  refine ⟨_, hrun, hperm, ?_, ?_, ?_⟩
  · obtain ⟨template, target, htemplate, htarget, -, hok⟩ :=
      hentries (Path.ofText ['a']) (by decide)
    obtain rfl : template = Utf8.encode (Template.tokenText ['x']) :=
      Option.some.inj (htemplate.symm.trans (by decide +kernel))
    obtain rfl : target = Utf8.encode "old".toList :=
      Option.some.inj (htarget.symm.trans (by decide +kernel))
    obtain ⟨hwrites, hfails⟩ := hok ⟨.noSnapshot, ['1']⟩ (by decide +kernel)
    refine hwrites fun hblocked => ?_
    obtain ⟨e, he⟩ := hfails hblocked
    rw [report_mixedFiles.2] at he
    simp at he
  · obtain ⟨template, target, -, htarget, herror, -⟩ := hentries (Path.ofText ['b']) (by decide)
    obtain rfl : target = Utf8.encode "mine".toList :=
      Option.some.inj (htarget.symm.trans (by decide +kernel))
    exact herror _ rfl
  · obtain ⟨template, target, htemplate, -, herror, -⟩ :=
      hentries (Path.ofText ['c', '/', 'd']) (by decide)
    obtain rfl : template = Utf8.encode (Template.tokenText ['y']) :=
      Option.some.inj (htemplate.symm.trans (by decide +kernel))
    exact herror _ rfl

end LayeredConfig.Apply
