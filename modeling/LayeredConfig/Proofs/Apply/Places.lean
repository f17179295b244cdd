import LayeredConfig.Apply.Pass
import LayeredConfig.Proofs.FileSystem.Listing
import Mathlib.Data.List.Nodup
import Mathlib.Data.List.Pairwise

/-!
# The places of a target, its template and its snapshot

A relative path leads from the directory of templates, from the directory of snapshots and from the
root of the targets to three places.  Targets are apart if no two of all these places are the same;
the results about whole passes are about targets that are apart.  Main statements:

* `Apart.eq_of_mem` — a place that belongs to two targets belongs to one;
* `mem_scheduled_iff`, `pairwise_scheduled` — the scheduled targets are the relative paths of the
  files below the directory of templates, in order;
* `scheduled_congr` — what these files hold does not matter for it;
* `plain_of_template` — **if the targets are apart, only a target that is spelled plainly can have
  a template to read**, since the template of any other one would be that of a plain one too, or
  the snapshot.
-/

namespace LayeredConfig

namespace Layout

variable {layout : Layout} {wd : Location} {r : Path}

/-- The layout when nothing is said about it. -/
def usual : Layout := ⟨Path.ofText defaultConfigDir, Path.ofText ['.']⟩

/-- The place of the configuration directory. -/
def configPlace (layout : Layout) (wd : Location) : Location :=
  FileSystem.placeOf wd layout.configDir.text

/-- The place of the template of a target. -/
def templatePlace (layout : Layout) (wd : Location) (r : Path) : Location :=
  FileSystem.placeOf wd (layout.template r).text

/-- The place of the snapshot of a target. -/
def snapshotPlace (layout : Layout) (wd : Location) (r : Path) : Location :=
  FileSystem.placeOf wd (layout.snapshot r).text

/-- The place of a target. -/
def targetPlace (layout : Layout) (wd : Location) (r : Path) : Location :=
  FileSystem.placeOf wd (layout.target r).text

/-- The places that belong to a target. -/
def places (layout : Layout) (wd : Location) (r : Path) : List Location :=
  [layout.templatePlace wd r, layout.targetPlace wd r, layout.snapshotPlace wd r]

/-- Whether templates, targets and snapshots are all at different places. -/
def Apart (layout : Layout) (wd : Location) (targets : List Path) : Prop :=
  (targets.flatMap (layout.places wd)).Nodup

instance (layout : Layout) (wd : Location) (targets : List Path) :
    Decidable (layout.Apart wd targets) :=
  inferInstanceAs (Decidable (List.Nodup _))

namespace Apart

variable {targets : List Path} {r r' : Path}

theorem nodup_places (h : layout.Apart wd targets) (hr : r ∈ targets) :
    (layout.places wd r).Nodup :=
  (List.nodup_flatMap.mp h).1 r hr

theorem eq_of_mem (h : layout.Apart wd targets) (hr : r ∈ targets) (hr' : r' ∈ targets)
    {l : Location} (hl : l ∈ layout.places wd r) (hl' : l ∈ layout.places wd r') : r = r' := by
  have : Std.Symm (Function.onFun List.Disjoint (layout.places wd)) :=
    ⟨fun _ _ hdisjoint _ h1 h2 => hdisjoint h2 h1⟩
  by_contra hne
  exact (List.nodup_flatMap.mp h).2.forall hr hr' hne hl hl'

theorem nodup (h : layout.Apart wd targets) : targets.Nodup := by
  apply (List.nodup_flatMap.mp h).2.imp
  intro r r' hdisjoint heq
  subst heq
  exact hdisjoint (a := layout.templatePlace wd r) (by simp [places]) (by simp [places])

end Apart

/-! ## Below the configuration directory -/

/-- The files of a plain target in a directory directly below the configuration directory. -/
theorem join_join_text {sub : Text} (hsplit : Text.splitAt '/' sub = [sub])
    (hsub : ProperName sub) (hb : '\\' ∉ sub) (hr : r.Plain) (base : Path) :
    ((base.join sub).join r.text).text = base.below (sub :: r.names) := by
  have hproper : ∀ name ∈ Text.splitAt '/' sub, ProperName name := by
    rw [hsplit]
    simpa using hsub
  have hjoin := Path.join_eq_below base hb hproper
  rw [hsplit] at hjoin
  have htrunk := Path.trunk_of_text_eq_below (by simp) (by simpa using hsub) hjoin
  rw [hr.join_eq_below, Path.below, htrunk, List.append_assoc]
  rfl

theorem splitAt_templatesName : Text.splitAt '/' templatesName = [templatesName] := by decide

theorem splitAt_snapshotsName : Text.splitAt '/' snapshotsName = [snapshotsName] := by decide

theorem properName_templatesName : ProperName templatesName := by decide

theorem properName_snapshotsName : ProperName snapshotsName := by decide

theorem template_text (layout : Layout) (hr : r.Plain) :
    (layout.template r).text = layout.configDir.below (templatesName :: r.names) :=
  join_join_text splitAt_templatesName properName_templatesName (by decide) hr _

theorem snapshot_text (layout : Layout) (hr : r.Plain) :
    (layout.snapshot r).text = layout.configDir.below (snapshotsName :: r.names) :=
  join_join_text splitAt_snapshotsName properName_snapshotsName (by decide) hr _

theorem target_text (layout : Layout) (hr : r.Plain) :
    (layout.target r).text = layout.targetRoot.below r.names :=
  hr.join_eq_below _

theorem properName_of_mem_cons {sub : Text} (hsub : ProperName sub) (hr : r.Plain) :
    ∀ name ∈ sub :: r.names, ProperName name := by
  intro name hname
  rcases List.mem_cons.mp hname with rfl | hname
  · exact hsub
  · exact hr name hname

theorem templatesDir_text (layout : Layout) :
    layout.templatesDir.text = layout.configDir.below [templatesName] := by
  have hjoin : layout.templatesDir.text =
      layout.configDir.below (Text.splitAt '/' templatesName) :=
    Path.join_eq_below layout.configDir (by decide) (by decide)
  rwa [splitAt_templatesName] at hjoin

theorem templatesDir_place (layout : Layout) (wd : Location) :
    FileSystem.placeOf wd layout.templatesDir.text = layout.configPlace wd ++ [templatesName] := by
  rw [templatesDir_text, Path.placeOf_below (by simp) (by simpa using properName_templatesName),
    configPlace]

theorem snapshotsDir_text (layout : Layout) :
    layout.snapshotsDir.text = layout.configDir.below [snapshotsName] := by
  have hjoin : layout.snapshotsDir.text =
      layout.configDir.below (Text.splitAt '/' snapshotsName) :=
    Path.join_eq_below layout.configDir (by decide) (by decide)
  rwa [splitAt_snapshotsName] at hjoin

theorem templatePlace_eq (layout : Layout) (wd : Location) (hr : r.Plain) :
    layout.templatePlace wd r = layout.configPlace wd ++ templatesName :: r.names := by
  rw [templatePlace, template_text layout hr,
    Path.placeOf_below (by simp) (properName_of_mem_cons properName_templatesName hr), configPlace]

theorem snapshotPlace_eq (layout : Layout) (wd : Location) (hr : r.Plain) :
    layout.snapshotPlace wd r = layout.configPlace wd ++ snapshotsName :: r.names := by
  rw [snapshotPlace, snapshot_text layout hr,
    Path.placeOf_below (by simp) (properName_of_mem_cons properName_snapshotsName hr), configPlace]

theorem targetPlace_eq (layout : Layout) (wd : Location) (hr : r.Plain) :
    layout.targetPlace wd r = FileSystem.placeOf wd layout.targetRoot.text ++ r.names := by
  rw [targetPlace, target_text layout hr, Path.placeOf_below r.names_ne_nil hr]

/-- The places of any target, as the steps of its path from the two directories. -/
theorem templatePlace_eq_foldl (layout : Layout) (wd : Location) (r : Path) :
    layout.templatePlace wd r =
      (Step.ofPath r.text).foldl Step.next (layout.configPlace wd ++ [templatesName]) := by
  rw [templatePlace, template, Path.placeOf_join wd _ r.no_backslash, templatesDir_place]

theorem snapshotPlace_eq_foldl (layout : Layout) (wd : Location) (r : Path) :
    layout.snapshotPlace wd r =
      (Step.ofPath r.text).foldl Step.next (layout.configPlace wd ++ [snapshotsName]) := by
  rw [snapshotPlace, snapshot, Path.placeOf_join wd _ r.no_backslash, snapshotsDir_text,
    Path.placeOf_below (by simp) (by simpa using properName_snapshotsName), configPlace]

end Layout

/-! ## The scheduled targets -/

namespace Apply

open FileSystem (relativePath)

variable {layout : Layout} {fs : FileSystem} {targets : List Path} {r : Path}

theorem scheduled_eq_ok_iff :
    scheduled layout fs = .ok targets ↔
      fs.isDirectory layout.templatesDir.text = true ∧
        ∃ files, fs.listFiles layout.templatesDir = .ok files ∧
          files.mergeSort (fun a b => Text.atMost a.text b.text) = targets := by
  unfold scheduled templates
  cases fs.isDirectory layout.templatesDir.text with
  | false => simp
  | true =>
    rw [Bool.not_true, if_neg Bool.false_ne_true, Except.mapError_eq_ok_iff, Except.map_eq_ok_iff]
    simp

theorem isDirectory_of_scheduled (h : scheduled layout fs = .ok targets) :
    fs.isDirectory layout.templatesDir.text = true :=
  (scheduled_eq_ok_iff.mp h).1

/-- The directory of templates is one. -/
theorem face_of_scheduled (hs : fs.Sound) (h : scheduled layout fs = .ok targets) :
    fs.faceAt? (layout.configPlace fs.workingDirectory ++ [Layout.templatesName]) =
      some .directory := by
  rw [← Layout.templatesDir_place]
  exact ((FileSystem.isDirectory_iff hs.linkFree).mp (isDirectory_of_scheduled h)).2

theorem enters_of_scheduled (hs : fs.Sound) (h : scheduled layout fs = .ok targets) :
    fs.Enters layout.configDir.text := by
  have hdir := ((FileSystem.isDirectory_iff hs.linkFree).mp (isDirectory_of_scheduled h)).1
  rw [Layout.templatesDir_text] at hdir
  exact FileSystem.enters_of_reaches_below (by simp)
    (by simpa using Layout.properName_templatesName) hdir

/-- The scheduled targets are in the order of their paths. -/
theorem pairwise_scheduled (h : scheduled layout fs = .ok targets) :
    targets.Pairwise fun a b => a.text ≤ b.text := by
  obtain ⟨-, files, -, rfl⟩ := scheduled_eq_ok_iff.mp h
  have hsorted : (files.mergeSort fun a b => Text.atMost a.text b.text).Pairwise
      fun a b => Text.atMost a.text b.text = true :=
    List.pairwise_mergeSort
      (fun a b c => by simpa only [Text.atMost_iff_le] using le_trans)
      (fun a b => by simpa only [Bool.or_eq_true, Text.atMost_iff_le] using le_total a.text b.text)
      files
  exact hsorted.imp fun hle => (Text.atMost_iff_le _ _).mp hle

/-- The scheduled targets are the files below the directory of templates. -/
theorem entries_of_scheduled (hs : fs.Sound) (h : scheduled layout fs = .ok targets) :
    ∃ entries, fs.at? (layout.configPlace fs.workingDirectory ++ [Layout.templatesName]) =
        some (.directory entries) ∧
      ((DirEntry.filesOf entries).map relativePath).mergeSort
        (fun a b => Text.atMost a.text b.text) = targets := by
  obtain ⟨hdir, files, hfiles, rfl⟩ := scheduled_eq_ok_iff.mp h
  obtain ⟨entries, hat⟩ := FileSystem.faceAt?_eq_directory_iff.mp (face_of_scheduled hs h)
  refine ⟨entries, hat, ?_⟩
  rw [← Layout.templatesDir_place] at hat
  obtain rfl := Except.ok.inj ((FileSystem.listFiles_eq_ok hs hdir hat).symm.trans hfiles)
  rfl

/-- The same targets are scheduled where the same places below the directory of templates are
files, whatever these files hold. -/
theorem scheduled_congr {fs' : FileSystem} (hs : fs.Sound) (hs' : fs'.Sound)
    (hkeeps : FileSystem.Keeps fs fs') (h : scheduled layout fs = .ok targets)
    (hsame : ∀ names,
      (fs'.fileAt? (layout.configPlace fs.workingDirectory ++
        Layout.templatesName :: names)).isSome =
      (fs.fileAt? (layout.configPlace fs.workingDirectory ++
        Layout.templatesName :: names)).isSome) :
    scheduled layout fs' = .ok targets := by
  have hdir : fs'.isDirectory layout.templatesDir.text = true := by
    obtain ⟨hreach, hface⟩ :=
      (FileSystem.isDirectory_iff hs.linkFree).mp (isDirectory_of_scheduled h)
    refine (FileSystem.isDirectory_iff hs'.linkFree).mpr ⟨hreach.mono hkeeps, ?_⟩
    rw [hkeeps.workingDirectory]
    exact hkeeps.directory _ hface
  obtain ⟨entries, hat, hsorted⟩ := entries_of_scheduled hs h
  obtain ⟨entries', hat'⟩ :=
    FileSystem.faceAt?_eq_directory_iff.mp ((FileSystem.isDirectory_iff hs'.linkFree).mp hdir).2
  have hlist := FileSystem.listFiles_eq_ok hs' hdir hat'
  rw [Layout.templatesDir_place, hkeeps.workingDirectory] at hat'
  have hperm := FileSystem.perm_filesOf hs hs' hat hat' (by simpa using hsame)
  have h' := scheduled_eq_ok_iff.mpr ⟨hdir, _, hlist, rfl⟩
  rw [h']
  -- Both lists are in order and have the same members, so they are one list.
  refine congrArg Except.ok (List.Perm.eq_of_pairwise (fun a b _ _ hab hba => ?_)
    (pairwise_scheduled h') (pairwise_scheduled h) ?_)
  · exact Path.ext_text (le_antisymm hab hba)
  · rw [← hsorted]
    exact (List.mergeSort_perm _ _).trans
      ((hperm.map relativePath).trans (List.mergeSort_perm _ _).symm)

/-- The scheduled targets are the relative paths of the files below the directory of templates. -/
theorem mem_scheduled_iff (hs : fs.Sound) (h : scheduled layout fs = .ok targets) :
    r ∈ targets ↔ ∃ names, r = relativePath names ∧
      (fs.fileAt? (layout.configPlace fs.workingDirectory ++
        Layout.templatesName :: names)).isSome := by
  obtain ⟨hdir, files, hfiles, rfl⟩ := scheduled_eq_ok_iff.mp h
  rw [List.mem_mergeSort, FileSystem.mem_listFiles_iff hs hfiles hdir, Layout.templatesDir_place]
  simp only [List.append_assoc, List.singleton_append]

/-- If targets are apart, one with a template to read is spelled plainly. -/
theorem plain_of_template (hs : fs.Sound) (h : scheduled layout fs = .ok targets)
    (hapart : layout.Apart fs.workingDirectory targets) (hr : r ∈ targets)
    (hfile : (fs.fileAt? (layout.templatePlace fs.workingDirectory r)).isSome) : r.Plain := by
  rcases Step.foldl_next_cases (layout.configPlace fs.workingDirectory) (Step.ofPath r.text) with
    hsame | ⟨names, hnames, hmem⟩
  · -- The path leaves the directory of templates, so template and snapshot are the same.
    have hnodup := hapart.nodup_places hr
    rw [Layout.places, Layout.templatePlace_eq_foldl, Layout.snapshotPlace_eq_foldl,
      hsame Layout.templatesName Layout.snapshotsName] at hnodup
    simp at hnodup
  · -- The path names a place below it, where the listing finds it by a plain path.
    have hplace := Layout.templatePlace_eq_foldl layout fs.workingDirectory r
    rw [hnames] at hplace
    have hproper : ∀ name ∈ names, ProperName name :=
      fun name hname => (Step.mem_ofPath (hmem name hname)).2
    have hb : ∀ name ∈ names, '\\' ∉ name := by
      intro name hname hslash
      apply r.no_backslash
      rw [Path.text_eq_join r]
      exact Text.mem_join (Step.mem_ofPath (hmem name hname)).1 hslash
    have hne : names ≠ [] := by
      intro heq
      subst heq
      rw [hplace, FileSystem.fileAt?, face_of_scheduled hs h] at hfile
      simp [Face.content?] at hfile
    have hplain : (relativePath names).Plain := by
      rw [Path.Plain, FileSystem.names_relativePath hne hproper hb]
      exact hproper
    have hlisted : relativePath names ∈ targets :=
      (mem_scheduled_iff hs h).mpr ⟨names, rfl, hplace ▸ hfile⟩
    have hsame := Layout.templatePlace_eq layout fs.workingDirectory hplain
    rw [FileSystem.names_relativePath hne hproper hb, ← hplace] at hsame
    have heq := hapart.eq_of_mem hr hlisted (l := layout.templatePlace fs.workingDirectory r)
      (by simp [Layout.places]) (by simp [Layout.places, hsame])
    exact heq ▸ hplain

/-! ## Names without backslashes -/

/-- Without backslashes in names, a scheduled target is spelled plainly and has a template. -/
theorem plain_of_noBackslash (hs : fs.Sound) (hb : fs.NoBackslash)
    (h : scheduled layout fs = .ok targets) (hr : r ∈ targets) :
    r.Plain ∧ (fs.fileAt? (layout.templatePlace fs.workingDirectory r)).isSome := by
  obtain ⟨names, rfl, hfile⟩ := (mem_scheduled_iff hs h).mp hr
  have hdir := face_of_scheduled hs h
  have hbelow : fs.FileBelow (layout.configPlace fs.workingDirectory ++ [Layout.templatesName])
      names := by
    rwa [FileSystem.FileBelow, List.append_assoc]
  have hplain := hbelow.plain hs hb hdir
  rw [Layout.templatePlace_eq layout _ hplain, hbelow.names_relativePath hs hb hdir]
  exact ⟨hplain, hfile⟩

/-- Without backslashes in names, different files have different relative paths. -/
theorem nodup_scheduled (hs : fs.Sound) (hb : fs.NoBackslash)
    (h : scheduled layout fs = .ok targets) : targets.Nodup := by
  obtain ⟨entries, hat, rfl⟩ := entries_of_scheduled hs h
  exact (List.mergeSort_perm _ _).nodup_iff.mpr (FileSystem.nodup_relativePaths hs hb hat)

/-- Whether no scheduled target is a file below the configuration directory. -/
def TargetsOutside (layout : Layout) (fs : FileSystem) : Prop :=
  ∀ targets, scheduled layout fs = .ok targets → ∀ r ∈ targets, ∀ rest : Location, rest ≠ [] →
    layout.targetPlace fs.workingDirectory r ≠ layout.configPlace fs.workingDirectory ++ rest

/-- Without backslashes in names, targets outside the configuration directory are apart. -/
theorem apart_of_noBackslash (hs : fs.Sound) (hb : fs.NoBackslash)
    (h : scheduled layout fs = .ok targets) (hout : TargetsOutside layout fs) :
    layout.Apart fs.workingDirectory targets := by
  have hplain := fun r hr => (plain_of_noBackslash (r := r) hs hb h hr).1
  have hsub : Layout.templatesName ≠ Layout.snapshotsName := by decide
  have htarget := hout targets h
  refine List.nodup_flatMap.mpr ⟨fun r hr => ?_, (nodup_scheduled hs hb h).pairwise_of_forall_ne ?_⟩
  · have hout := htarget r hr
    simp only [Layout.places, Layout.templatePlace_eq layout _ (hplain r hr),
      Layout.snapshotPlace_eq layout _ (hplain r hr)]
    simp [(hout _ (List.cons_ne_nil _ _)).symm, hout _ (List.cons_ne_nil _ _), hsub]
  · intro r hr r' hr' hne l hl hl'
    have hnames : r.names ≠ r'.names := fun heq => hne (Path.eq_of_names_eq heq)
    have hout := htarget r hr
    have hout' := htarget r' hr'
    simp only [Layout.places, Layout.templatePlace_eq layout _ (hplain r hr),
      Layout.snapshotPlace_eq layout _ (hplain r hr), List.mem_cons, List.not_mem_nil,
      or_false] at hl
    simp only [Layout.places, Layout.templatePlace_eq layout _ (hplain r' hr'),
      Layout.snapshotPlace_eq layout _ (hplain r' hr'), List.mem_cons, List.not_mem_nil,
      or_false] at hl'
    rcases hl with rfl | rfl | rfl
    · rcases hl' with heq | heq | heq
      · exact hnames (List.cons.inj (List.append_cancel_left heq)).2
      · exact hout' _ (List.cons_ne_nil _ _) heq.symm
      · exact hsub (List.cons.inj (List.append_cancel_left heq)).1
    · rcases hl' with heq | heq | heq
      · exact hout _ (List.cons_ne_nil _ _) heq
      · rw [Layout.targetPlace_eq layout _ (hplain r hr),
          Layout.targetPlace_eq layout _ (hplain r' hr')] at heq
        exact hnames (List.append_cancel_left heq)
      · exact hout _ (List.cons_ne_nil _ _) heq
    · rcases hl' with heq | heq | heq
      · exact hsub (List.cons.inj (List.append_cancel_left heq)).1.symm
      · exact hout' _ (List.cons_ne_nil _ _) heq.symm
      · exact hnames (List.cons.inj (List.append_cancel_left heq)).2

end Apply

end LayeredConfig
