import LayeredConfig.Proofs.Apply.Isolation
import LayeredConfig.Proofs.Diff.NormalForm
import LayeredConfig.Proofs.Text.Decoding

/-!
# What a reported drift shows

A target counts as edited when its bytes are not those of its snapshot, but what is reported is the
difference of two texts, to which both are decoded with a replacement for all that is no text.
Different bytes can decode to the same text, and then an edit is reported that nothing shows.  Main
statements:

* `compareSnapshot_eq_drift_iff`, `applyTarget_eq_drift_iff` — when the turn of a target ends with
  a drift, and with which changes;
* `drift_changes` — **a drift shows a change exactly if the decoded texts differ**, which they do if
  target and snapshot are both text;
* `drift_unseen` — a drift that shows no change.
-/

namespace LayeredConfig.Apply

variable {fs : FileSystem} {layout : Layout} {config : Tree} {options : Options}
  {accepted : Bool} {r r' : Path} {changes : Diff.Script} {pass : Pass}

/-! ## Where a drift comes from -/

theorem compareSnapshot_eq_drift_iff :
    compareSnapshot fs layout accepted r = .error (.drift r' changes) ↔
      accepted = false ∧ r' = r ∧ ∃ snapshot target,
        fs.readBytes (layout.snapshot r).text = .ok snapshot ∧
        fs.readBytes (layout.target r).text = .ok target ∧ target ≠ snapshot ∧
        changes = Diff.compare (Utf8.decodeLossy snapshot) (Utf8.decodeLossy target) := by
  constructor
  · intro h
    unfold compareSnapshot at h
    split at h
    · simp at h
    · split at h
      · simp at h
      · simp at h
      · next target snapshot htarget hsnapshot =>
        split_ifs at h with hne haccepted
        obtain ⟨rfl, rfl⟩ := Failure.drift.inj (Except.error.inj h)
        exact ⟨by simpa using haccepted, rfl, snapshot, target, hsnapshot, htarget, hne, rfl⟩
  · intro h
    obtain ⟨rfl, rfl, snapshot, target, hsnapshot, htarget, hne, rfl⟩ := h
    have hfile : fs.isFile (layout.snapshot r').text = true :=
      FileSystem.isFile_iff.mpr ⟨snapshot, hsnapshot⟩
    simp [compareSnapshot, hfile, hsnapshot, htarget, hne]

/-- Only the comparison with the snapshot finds a drift. -/
theorem applyTarget_eq_drift_iff :
    (applyTarget layout config options r fs).1 = .error (.drift r' changes) ↔
      compareSnapshot fs layout (options.accepted.contains r) r = .error (.drift r' changes) := by
  cases hcompare : compareSnapshot fs layout (options.accepted.contains r) r with
  | error failure =>
    have hjudge : judge fs layout config (options.accepted.contains r) r = .error failure := by
      rw [judge, hcompare]
    rw [applyTarget_of_error hjudge, Except.error.injEq, Except.error.injEq]
  | ok state =>
    refine iff_of_false (fun hfail => ?_) (by simp)
    cases hrender : renderTarget fs layout config r with
    | error failure =>
      have hjudge : judge fs layout config (options.accepted.contains r) r = .error failure := by
        rw [judge, hcompare, hrender]
      rw [applyTarget_of_error hjudge] at hfail
      have hdrift := isDrift_of_renderTarget hrender
      rw [Except.error.inj hfail] at hdrift
      simp [Failure.isDrift] at hdrift
    | ok content =>
      have hjudge : judge fs layout config (options.accepted.contains r) r =
          .ok ⟨state, content⟩ := judge_eq_ok_iff.mpr ⟨hcompare, hrender⟩
      obtain ⟨e, he⟩ := applyTarget_error_of_ok hjudge hfail
      simp at he

/-! ## The changes of a drift -/

/-- **A drift shows a change exactly if the decoded texts differ.**  What is compared is what
snapshot and target hold when the turn of the target comes, and their bytes are different; if both
are text, there is a change to show. -/
theorem drift_changes (hrun : run layout config options fs = .ok pass)
    (hdrift : Failure.drift r changes ∈ pass.report.failures) :
    ∃ before later snapshot target,
      scheduled layout fs = .ok (before ++ r :: later) ∧
      let now := (applyAll layout config options before fs).after
      now.readBytes (layout.snapshot r).text = .ok snapshot ∧
      now.readBytes (layout.target r).text = .ok target ∧ target ≠ snapshot ∧
      (changes.unchanged = true ↔ Utf8.decodeLossy snapshot = Utf8.decodeLossy target) ∧
      ((Utf8.decode? snapshot).isSome → (Utf8.decode? target).isSome →
        changes.unchanged = false) := by
  obtain ⟨targets, hscheduled, -, rfl⟩ := run_eq_ok_iff.mp hrun
  obtain ⟨before, turn, later, rfl, hfail⟩ := mem_failures_iff.mp hdrift
  obtain ⟨-, rfl, snapshot, target, hsnapshot, htarget, hne, rfl⟩ :=
    compareSnapshot_eq_drift_iff.mp (applyTarget_eq_drift_iff.mp hfail)
  refine ⟨before, later, snapshot, target, hscheduled, hsnapshot, htarget, hne,
    Diff.unchanged_compare_iff, fun hsome hsome' => ?_⟩
  rw [Bool.eq_false_iff, ne_eq, Diff.unchanged_compare_iff]
  exact fun hsame => hne (Utf8.eq_of_decodeLossy_eq hsome hsome' hsame).symm

/-- The edited target among others shows what was edited. -/
theorem drift_changes_mixed :
    ∃ before later snapshot target,
      scheduled .usual mixedFiles = .ok (before ++ Path.ofText ['b'] :: later) ∧
      let now := (applyAll .usual configWithX .plain before mixedFiles).after
      let changes := Diff.compare "base".toList "mine".toList
      now.readBytes (Layout.usual.snapshot (Path.ofText ['b'])).text = .ok snapshot ∧
      now.readBytes (Layout.usual.target (Path.ofText ['b'])).text = .ok target ∧
      target ≠ snapshot ∧
      (changes.unchanged = true ↔ Utf8.decodeLossy snapshot = Utf8.decodeLossy target) ∧
      ((Utf8.decode? snapshot).isSome → (Utf8.decode? target).isSome →
        changes.unchanged = false) := by
  refine drift_changes (prepared_mixedFiles.run_eq configWithX .plain) ?_
  rw [report_mixedFiles.2]
  exact List.mem_cons_self

/-- A template `a` that was applied to a target holding the replacement character, and the target
after an edit to a byte that is no text. -/
def unseenFiles : FileSystem where
  root :=
    [(Layout.defaultConfigDir, .directory
      [(Layout.snapshotsName, .directory [(['a'], .file (Utf8.encode [Char.ofNat 0xFFFD]))]),
        (Layout.templatesName, .directory [(['a'], .file (Utf8.encode [Char.ofNat 0xFFFD]))])]),
      (['a'], .file [0xFF])]
  workingDirectory := []

/-- The edit is found, but both sides decode to the replacement character. -/
theorem applyAll_unseenFiles :
    Prepared .usual unseenFiles [Path.ofText ['a']] ∧
      (applyAll .usual [] .plain [Path.ofText ['a']] unseenFiles).report.failures =
        [.drift (Path.ofText ['a']) [.keep [Char.ofNat 0xFFFD]]] := by
  decide +kernel

/-- Not every drift shows a change. -/
theorem drift_unseen :
    ¬∀ (layout : Layout) (config : Tree) (options : Options) (fs : FileSystem) (pass : Pass),
      run layout config options fs = .ok pass →
      ∀ r changes, Failure.drift r changes ∈ pass.report.failures →
        changes.unchanged = false := by
  intro hshown
  obtain ⟨hprepared, hfailures⟩ := applyAll_unseenFiles
  have hmem : Failure.drift (Path.ofText ['a']) [.keep [Char.ofNat 0xFFFD]] ∈
      (applyAll .usual [] .plain [Path.ofText ['a']] unseenFiles).report.failures := by
    rw [hfailures]
    exact List.mem_cons_self
  have hfalse := hshown .usual [] .plain unseenFiles _ (hprepared.run_eq [] .plain) _ _ hmem
  exact absurd hfalse (by decide)

end LayeredConfig.Apply
