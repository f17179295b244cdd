import LayeredConfig.Proofs.Apply.Places
import LayeredConfig.Proofs.FileSystem.Replace

/-!
# The turn of one target

What happens when it is the turn of a target that exists and is spelled plainly.  Main statements:

* `compareSnapshot_eq`, `renderTarget_eq`, `judge_congr` — the judgement depends on the contents of
  template, target and snapshot alone;
* `applyTarget_free` — what is judged to be written is written, target and snapshot, unless the
  snapshot is blocked;
* `applyTarget_blocked` — **if it is blocked the target is overwritten all the same**, and the
  target is reported as failed.
-/

namespace LayeredConfig.Apply

open FileSystem (Sound Enters Becomes Blocked withFile)

variable {fs fs' : FileSystem} {layout : Layout} {config : Tree} {options : Options}
  {accepted : Bool} {r : Path} {old : Bytes} {plan : Plan}

/-! ## The three files of a target -/

theorem readBytes_template_iff (hs : fs.Sound) (hC : fs.Enters layout.configDir.text)
    (hr : r.Plain) {content : Bytes} :
    fs.readBytes (layout.template r).text = .ok content ↔
      fs.fileAt? (layout.templatePlace fs.workingDirectory r) = some content := by
  rw [Layout.template_text layout hr, Layout.templatePlace_eq layout _ hr]
  exact FileSystem.readBytes_below_iff (by simp)
    (Layout.properName_of_mem_cons Layout.properName_templatesName hr) hs.linkFree hC

theorem readBytes_snapshot_iff (hs : fs.Sound) (hC : fs.Enters layout.configDir.text)
    (hr : r.Plain) {content : Bytes} :
    fs.readBytes (layout.snapshot r).text = .ok content ↔
      fs.fileAt? (layout.snapshotPlace fs.workingDirectory r) = some content := by
  rw [Layout.snapshot_text layout hr, Layout.snapshotPlace_eq layout _ hr]
  exact FileSystem.readBytes_below_iff (by simp)
    (Layout.properName_of_mem_cons Layout.properName_snapshotsName hr) hs.linkFree hC

theorem fileAt?_of_readBytes_target (hs : fs.Sound)
    (h : fs.readBytes (layout.target r).text = .ok old) :
    fs.fileAt? (layout.targetPlace fs.workingDirectory r) = some old :=
  ((FileSystem.readBytes_eq_ok_iff hs.linkFree).mp h).2

/-! ## The judgement -/

theorem judge_eq_ok_iff :
    judge fs layout config accepted r = .ok plan ↔
      compareSnapshot fs layout accepted r = .ok plan.state ∧
        renderTarget fs layout config r = .ok plan.content := by
  obtain ⟨state, content⟩ := plan
  unfold judge
  cases compareSnapshot fs layout accepted r with
  | error failure => simp
  | ok found =>
    cases renderTarget fs layout config r with
    | error failure => simp
    | ok rendered => simp

theorem compareSnapshot_error_target {failure : Failure}
    (h : compareSnapshot fs layout accepted r = .error failure) : failure.target = r := by
  unfold compareSnapshot at h
  split at h
  · simp at h
  · split at h
    · exact Except.error.inj h ▸ rfl
    · exact Except.error.inj h ▸ rfl
    · split_ifs at h
      exact Except.error.inj h ▸ rfl

theorem renderTarget_error_target {failure : Failure}
    (h : renderTarget fs layout config r = .error failure) : failure.target = r := by
  unfold renderTarget at h
  split at h
  · exact Except.error.inj h ▸ rfl
  · simp only at h
    split_ifs at h
    exact Except.error.inj h ▸ rfl

theorem isDrift_of_renderTarget {failure : Failure}
    (h : renderTarget fs layout config r = .error failure) : failure.isDrift = false := by
  unfold renderTarget at h
  split at h
  · exact Except.error.inj h ▸ rfl
  · simp only at h
    split_ifs at h
    exact Except.error.inj h ▸ rfl

theorem judge_error_target {failure : Failure}
    (h : judge fs layout config accepted r = .error failure) : failure.target = r := by
  unfold judge at h
  cases hcompare : compareSnapshot fs layout accepted r with
  | error found =>
    obtain rfl : found = failure := by simpa [hcompare] using h
    exact compareSnapshot_error_target hcompare
  | ok state =>
    cases hrender : renderTarget fs layout config r with
    | error found =>
      obtain rfl : found = failure := by simpa [hcompare, hrender] using h
      exact renderTarget_error_target hrender
    | ok content => simp [hcompare, hrender] at h

/-- How a target compares with its snapshot, by what both hold. -/
theorem compareSnapshot_eq (hs : fs.Sound) (hC : fs.Enters layout.configDir.text) (hr : r.Plain)
    (hold : fs.readBytes (layout.target r).text = .ok old) (accepted : Bool) :
    compareSnapshot fs layout accepted r =
      match fs.fileAt? (layout.snapshotPlace fs.workingDirectory r) with
      | none => .ok .noSnapshot
      | some snapshot =>
        if old = snapshot then .ok .unchanged
        else if accepted then .ok .drifted
        else
          .error (.drift r (Diff.compare (Utf8.decodeLossy snapshot) (Utf8.decodeLossy old))) := by
  unfold compareSnapshot
  cases hsnapshot : fs.fileAt? (layout.snapshotPlace fs.workingDirectory r) with
  | none =>
    have hnot : fs.isFile (layout.snapshot r).text = false := by
      rw [Bool.eq_false_iff, ne_eq, FileSystem.isFile_iff]
      intro hfile
      obtain ⟨content, hread⟩ := hfile
      rw [readBytes_snapshot_iff hs hC hr, hsnapshot] at hread
      simp at hread
    simp [hnot]
  | some snapshot =>
    have hread := (readBytes_snapshot_iff hs hC hr).mpr hsnapshot
    have hfile : fs.isFile (layout.snapshot r).text = true :=
      FileSystem.isFile_iff.mpr ⟨snapshot, hread⟩
    simp [hfile, hold, hread]

/-- What a target is rendered to, by what its template holds. -/
theorem renderTarget_eq (hs : fs.Sound) (hC : fs.Enters layout.configDir.text) (hr : r.Plain)
    {template : Bytes}
    (htemplate : fs.fileAt? (layout.templatePlace fs.workingDirectory r) = some template)
    (config : Tree) :
    renderTarget fs layout config r =
      match Utf8.decode? template with
      | none => .error (.access r (.access (layout.template r).text .invalidText))
      | some text =>
        if (Template.render config text).complete then .ok (Template.render config text).text
        else .error (.unresolved r (Template.render config text).missing) := by
  have hread := (readBytes_template_iff hs hC hr).mpr htemplate
  unfold renderTarget FileSystem.readText
  simp only [hread]
  cases hdecode : Utf8.decode? template with
  | none => simp only
  | some text => simp only

/-- The judgement of a target depends on what its template, the target and its snapshot hold. -/
theorem judge_congr (hs : fs.Sound) (hs' : fs'.Sound) (hC : fs.Enters layout.configDir.text)
    (hC' : fs'.Enters layout.configDir.text)
    (hwd : fs'.workingDirectory = fs.workingDirectory) (hr : r.Plain)
    (hold : fs.readBytes (layout.target r).text = .ok old)
    (hold' : fs'.readBytes (layout.target r).text = .ok old) {template : Bytes}
    (htemplate : fs.fileAt? (layout.templatePlace fs.workingDirectory r) = some template)
    (htemplate' : fs'.fileAt? (layout.templatePlace fs.workingDirectory r) = some template)
    (hsnapshot : fs'.fileAt? (layout.snapshotPlace fs.workingDirectory r) =
      fs.fileAt? (layout.snapshotPlace fs.workingDirectory r)) (accepted : Bool) :
    judge fs' layout config accepted r = judge fs layout config accepted r := by
  unfold judge
  rw [compareSnapshot_eq hs hC hr hold, compareSnapshot_eq hs' hC' hr hold',
    renderTarget_eq hs hC hr htemplate, renderTarget_eq hs' hC' hr (by rw [hwd]; exact htemplate'),
    hwd, hsnapshot]

/-! ## The turn -/

theorem applyTarget_of_error {failure : Failure}
    (h : judge fs layout config (options.accepted.contains r) r = .error failure) :
    applyTarget layout config options r fs = (.error failure, fs) := by
  simp only [applyTarget, h]

theorem applyTarget_of_dryRun
    (h : judge fs layout config (options.accepted.contains r) r = .ok plan)
    (hdry : options.dryRun = true) :
    applyTarget layout config options r fs = (.ok (appliedEntry options r plan), fs) := by
  simp only [applyTarget, h, hdry, if_true]

/-- The target is always written, and the snapshot decides what becomes of the turn. -/
theorem applyTarget_of_ok (hs : fs.Sound)
    (h : judge fs layout config (options.accepted.contains r) r = .ok plan)
    (hdry : options.dryRun = false) (hold : fs.readBytes (layout.target r).text = .ok old) :
    applyTarget layout config options r fs =
      match (fs.put (layout.targetPlace fs.workingDirectory r)
          (.file (Utf8.encode plan.content))).replace (layout.snapshot r)
          (Utf8.encode plan.content) with
      | (.error e, fs) => (.error (.access r e), fs)
      | (.ok (), fs) => (.ok (appliedEntry options r plan), fs) := by
  have htarget := FileSystem.replace_of_file hs hold (Utf8.encode plan.content)
  have hwrite : writeTarget layout r plan.content fs =
      (fs.put (layout.targetPlace fs.workingDirectory r)
        (.file (Utf8.encode plan.content))).replace (layout.snapshot r)
        (Utf8.encode plan.content) := by
    simp only [writeTarget, FileSystem.replaceText, htarget, Layout.targetPlace]
  rw [← hwrite]
  unfold applyTarget
  cases hresult : writeTarget layout r plan.content fs with
  | mk written fs' =>
    cases written with
    | error e => simp only [h, hdry, hresult, Bool.false_eq_true, if_false]
    | ok => simp only [h, hdry, hresult, Bool.false_eq_true, if_false]

section Write

variable (hs : fs.Sound) (hold : fs.readBytes (layout.target r).text = .ok old) (content : Bytes)

include hs hold

theorem becomes_target :
    Becomes fs (fs.put (layout.targetPlace fs.workingDirectory r) (.file content)) fun l =>
      if l = layout.targetPlace fs.workingDirectory r then some (.file content)
      else fs.faceAt? l :=
  FileSystem.becomes_put hs
    (FileSystem.fits_of_file hs.regular (fileAt?_of_readBytes_target hs hold))
    (DirEntry.fresh_file content)

theorem keeps_target :
    FileSystem.Keeps fs (fs.put (layout.targetPlace fs.workingDirectory r) (.file content)) :=
  FileSystem.keeps_put hs
    (FileSystem.fits_of_file hs.regular (fileAt?_of_readBytes_target hs hold))
    (DirEntry.fresh_file content)

/-- Overwriting a target blocks no snapshot and frees none. -/
theorem blocked_target_iff {here ns : Location} :
    Blocked (fs.put (layout.targetPlace fs.workingDirectory r) (.file content)) here ns ↔
      Blocked fs here ns := by
  have hput := becomes_target hs hold content
  have hface := FileSystem.fileAt?_eq_some_iff.mp (fileAt?_of_readBytes_target hs hold)
  refine FileSystem.blocked_congr (fun l => ?_) (fun l => ?_)
  · rw [hput.face]
    split_ifs with hl
    · simp [hl, hface]
    · rfl
  · rw [FileSystem.fileAt?, hput.face]
    split_ifs with hl
    · simp [hl, FileSystem.fileAt?, hface, Face.content?]
    · rfl

end Write

section Outcome

variable (hs : fs.Sound) (hC : fs.Enters layout.configDir.text) (hr : r.Plain)
  (hold : fs.readBytes (layout.target r).text = .ok old)
  (hjudge : judge fs layout config (options.accepted.contains r) r = .ok plan)
  (hdry : options.dryRun = false)

include hs hC hr hold hjudge hdry

/-- When the snapshot is blocked, the target has been overwritten before this is found out. -/
theorem applyTarget_blocked
    (hblocked : Blocked fs (layout.configPlace fs.workingDirectory)
      (Layout.snapshotsName :: r.names)) :
    ∃ e, applyTarget layout config options r fs =
      (.error (.access r e), fs.put (layout.targetPlace fs.workingDirectory r)
        (.file (Utf8.encode plan.content))) := by
  have hput := becomes_target hs hold (Utf8.encode plan.content)
  obtain ⟨e, he⟩ := FileSystem.replace_below_blocked
    (hC.mono (keeps_target hs hold (Utf8.encode plan.content))) hput.sound (by simp)
    (Layout.properName_of_mem_cons Layout.properName_snapshotsName hr)
    (Layout.snapshot_text layout hr) (Utf8.encode plan.content)
    ((blocked_target_iff hs hold _).mpr hblocked)
  exact ⟨e, by rw [applyTarget_of_ok hs hjudge hdry hold, he]⟩

/-- Otherwise target and snapshot hold the rendered text, and only directories of the snapshot
are new beside them. -/
theorem applyTarget_free
    (hfree : ¬Blocked fs (layout.configPlace fs.workingDirectory)
      (Layout.snapshotsName :: r.names)) :
    ∃ fs', applyTarget layout config options r fs = (.ok (appliedEntry options r plan), fs') ∧
      Becomes fs fs' (withFile (layout.configPlace fs.workingDirectory)
        (Layout.snapshotsName :: r.names) (Utf8.encode plan.content)
        (fs.put (layout.targetPlace fs.workingDirectory r)
          (.file (Utf8.encode plan.content)))) := by
  have hput := becomes_target hs hold (Utf8.encode plan.content)
  obtain ⟨fs', hreplace, hfs'⟩ := FileSystem.replace_below
    (hC.mono (keeps_target hs hold (Utf8.encode plan.content))) hput.sound (by simp)
    (Layout.properName_of_mem_cons Layout.properName_snapshotsName hr)
    (Layout.snapshot_text layout hr) (Utf8.encode plan.content)
    (fun hblocked => hfree ((blocked_target_iff hs hold _).mp hblocked))
  exact ⟨fs', by rw [applyTarget_of_ok hs hjudge hdry hold, hreplace], hput.trans hfs'⟩

end Outcome

end LayeredConfig.Apply
