import LayeredConfig.Proofs.FileSystem.Directories

/-!
# Replacing a file is all or nothing

The new content is staged under a fresh name beside the file, renamed, and taken away again if the
renaming fails; nothing of this is seen afterwards but the file.  Main statements:

* `replace_of_directory` — once the directory is there, the file is put in its place, or, where a
  directory stands, nothing changes;
* `replace_of_file` — **a file that exists can be replaced**, and no other place changes;
* `replace_below`, `replace_below_blocked` — the exact outcome for names below a directory: the
  file and its missing directories are new, or the file system is exactly as before;
* `replace_all_or_nothing` — **the outcome for a relative path**: either its new content is read
  back and nothing else has changed but for missing directories, or nothing has changed at all.
-/

namespace LayeredConfig.FileSystem

variable {fs fs' : FileSystem} {dir : Location} {ns init : Location} {name : Text} {base : Path}
  {content : Bytes}

/-! ## Fresh names -/

theorem le_foldl_max (texts : List Text) (n : Nat) :
    n ≤ texts.foldl (fun n text => max n text.length) n ∧
      ∀ text ∈ texts, text.length ≤ texts.foldl (fun n text => max n text.length) n := by
  induction texts generalizing n with
  | nil => simp
  | cons first rest ih =>
    obtain ⟨h1, h2⟩ := ih (max n first.length)
    refine ⟨le_trans (le_max_left _ _) h1, ?_⟩
    intro text htext
    rcases List.mem_cons.mp htext with rfl | htext
    · exact le_trans (le_max_right _ _) h1
    · exact h2 text htext

theorem freshName_spec (entries : Directory) :
    ∃ k, freshName entries = ['.', 'o', 'v', 'e', 'r', 'm', 'o', 'd', 'e', 'l', '-'] ++
        List.replicate k 'x' ++ ['.', 't', 'm', 'p'] ∧
      ∀ name ∈ Entries.keys entries, name.length ≤ k := by
  refine ⟨_, ?_, (le_foldl_max (Entries.keys entries) 0).2⟩
  unfold freshName
  rfl

theorem get?_freshName (entries : Directory) : Entries.get? (freshName entries) entries = none := by
  rw [Entries.get?_eq_none_iff]
  intro hmem
  obtain ⟨k, hfresh, hle⟩ := freshName_spec entries
  have hlen := hle _ hmem
  rw [hfresh] at hlen
  simp only [List.length_append, List.length_replicate, List.length_cons] at hlen
  omega

theorem properName_freshName (entries : Directory) : ProperName (freshName entries) := by
  obtain ⟨k, hfresh, -⟩ := freshName_spec entries
  rw [hfresh]
  exact ⟨by simp, by simp, by simp, by simp⟩

/-! ## Staging and renaming -/

theorem stage_eq_ok (hlf : fs.LinkFree) {directory : Text} (h : fs.isDirectory directory = true)
    (content : Bytes) :
    ∃ fresh, ProperName fresh ∧
      fs.faceAt? (placeOf fs.workingDirectory directory ++ [fresh]) = none ∧
      fs.stage directory content =
        .ok (placeOf fs.workingDirectory directory ++ [fresh],
          fs.put (placeOf fs.workingDirectory directory ++ [fresh]) (.file content)) := by
  obtain ⟨hreach, hdir⟩ := (isDirectory_iff hlf).mp h
  obtain ⟨entries, hat⟩ := faceAt?_eq_directory_iff.mp hdir
  refine ⟨freshName entries, properName_freshName entries, ?_, ?_⟩
  · rw [faceAt?, at?_concat hat, get?_freshName, Option.map_none]
  · rw [stage, (locate_eq_ok_iff hlf).mpr ⟨hreach, rfl⟩]
    simp only [hat]

/-- A path whose last piece is a name, read in a directory that its other pieces lead to. -/
structure EntryIn (fs : FileSystem) (path : Text) (pieces : List Text) (dir : Location)
    (name : Text) : Prop where
  split : Text.splitAt '/' path = pieces ++ [name]
  proper : ProperName name
  isOpen : Open fs (start fs.workingDirectory path) (pieces.filterMap Step.ofPiece?)
  place : (pieces.filterMap Step.ofPiece?).foldl Step.next (start fs.workingDirectory path) = dir
  directory : fs.faceAt? dir = some .directory

namespace EntryIn

variable {path : Text} {pieces : List Text}

theorem mono (hk : Keeps fs fs') (h : EntryIn fs path pieces dir name) :
    EntryIn fs' path pieces dir name where
  split := h.split
  proper := h.proper
  isOpen := hk.workingDirectory ▸ h.isOpen.mono hk
  place := hk.workingDirectory ▸ h.place
  directory := hk.directory _ h.directory

theorem isDirectory_staging (h : EntryIn fs path pieces dir name) (hlf : fs.LinkFree) :
    fs.isDirectory (stagingDirectory path) = true ∧
      placeOf fs.workingDirectory (stagingDirectory path) = dir := by
  obtain ⟨hne, hstart, j, k, heq⟩ := stagingDirectory_spec h.proper h.split fs.workingDirectory
  have hplace := congrArg (List.foldl Step.next (start fs.workingDirectory path)) heq
  rw [List.foldl_append, List.foldl_append, foldl_next_stay, foldl_next_stay, foldl_toEntry,
    ← hstart] at hplace
  have hstaging : placeOf fs.workingDirectory (stagingDirectory path) = dir := by
    rw [placeOf, ← hplace, hstart, h.place]
  have hway : Open fs (start fs.workingDirectory path)
      (pieces.filterMap Step.ofPiece? ++ List.replicate j .stay) :=
    open_append.mpr ⟨h.isOpen, open_replicate_stay (by rw [h.place, h.directory]) j⟩
  rw [heq, open_append, ← hstart] at hway
  exact ⟨(isDirectory_iff hlf).mpr ⟨⟨hne, hway.1⟩, by rw [hstaging, h.directory]⟩, hstaging⟩

theorem ofPath_eq (h : EntryIn fs path pieces dir name) :
    Step.ofPath path = pieces.filterMap Step.ofPiece? ++ [.down name] := by
  rw [Step.ofPath, h.split, List.filterMap_append, List.filterMap_cons,
    Step.ofPiece?_of_proper h.proper, List.filterMap_nil]

theorem placeOf_eq (h : EntryIn fs path pieces dir name) :
    placeOf fs.workingDirectory path = dir ++ [name] := by
  rw [placeOf, h.ofPath_eq, List.foldl_append, h.place]
  rfl

theorem getLast?_ne (h : EntryIn fs path pieces dir name) : path.getLast? ≠ some '/' := by
  rw [← Text.join_splitAt '/' path, h.split, Text.getLast?_join _ _ h.proper.1]
  exact fun hslash => h.proper.2.2.2 (List.mem_of_getLast? hslash)

theorem ne_nil (h : EntryIn fs path pieces dir name) : path ≠ [] := by
  intro heq
  subst heq
  have hmem : name ∈ Text.splitAt '/' [] := by
    rw [h.split]
    simp
  exact h.proper.1 (by simpa [Text.splitAt] using hmem)

theorem renamePlace_eq (h : EntryIn fs path pieces dir name) (hlf : fs.LinkFree) :
    fs.renamePlace path = .ok (dir ++ [name]) := by
  have hfollow : fs.follow true path (pieces.filterMap Step.ofPiece? ++ [.stay]) =
      .ok (.found dir) := by
    refine (follow_eq_found_iff hlf).mpr ⟨h.ne_nil, open_append.mpr ⟨h.isOpen, ?_⟩, ?_⟩
    · rw [h.place, open_stay_iff, h.directory]
    · rw [List.foldl_append, h.place]
      rfl
  unfold renamePlace
  simp only [h.ofPath_eq, List.dropLast_concat, hfollow, List.getLast?_concat, if_neg h.getLast?_ne]

end EntryIn

theorem rename_eq {path : Text} {source place : Location}
    (hplace : fs.renamePlace path = .ok place) (hsource : fs.at? source = some (.file content)) :
    fs.rename source path =
      if fs.faceAt? place = some .directory then .error .isADirectory
      else .ok ((fs.erase source).put place (.file content)) := by
  unfold rename
  rw [hplace]
  split_ifs with hdir
  · obtain ⟨entries, hat⟩ := faceAt?_eq_directory_iff.mp hdir
    simp only [hat]
  · simp only []
    split
    · next hat => exact absurd (faceAt?_eq_directory_iff.mpr ⟨_, hat⟩) hdir
    · next hat _ =>
      rw [hsource] at hat
      obtain rfl := Option.some.inj hat
      rfl
    · next hat _ => simp [hsource] at hat

/-! ## Replacing -/

/-- Once the directory of a path is there, its file is put in its place unless a directory stands
there. -/
theorem replace_of_directory {path : Path} {pieces : List Text} (hs : fs'.Sound)
    (hmade : fs.createDirectories (stagingDirectory path.text) = (.ok (), fs'))
    (h : EntryIn fs' path.text pieces dir name) (content : Bytes) :
    fs.replace path content =
      if fs'.faceAt? (dir ++ [name]) = some .directory then
        (.error (.access path.text .isADirectory), fs')
      else (.ok (), fs'.put (dir ++ [name]) (.file content)) := by
  obtain ⟨hstaging, hplace⟩ := h.isDirectory_staging hs.linkFree
  obtain ⟨fresh, hfresh, hnone, hstage⟩ := stage_eq_ok hs.linkFree hstaging content
  rw [hplace] at hnone hstage
  have hfits : fs'.Fits (dir ++ [fresh]) := ⟨dir, fresh, rfl, hfresh, h.directory, by simp [hnone]⟩
  have hput := becomes_put hs hfits (DirEntry.fresh_file content)
  have hentry := h.mono (keeps_put hs hfits (DirEntry.fresh_file content))
  have hsource : (fs'.put (dir ++ [fresh]) (.file content)).at? (dir ++ [fresh]) =
      some (.file content) := by
    rw [at?_eq_file_iff, hput.face, if_pos rfl]
    rfl
  have hrename := rename_eq (hentry.renamePlace_eq hput.sound.linkFree) hsource
  have hundo := erase_put hs.regular h.directory hnone (.file content)
  -- The staged file is no directory, so a directory at the place was there before.
  have hface : (fs'.put (dir ++ [fresh]) (.file content)).faceAt? (dir ++ [name]) =
      some .directory ↔ fs'.faceAt? (dir ++ [name]) = some .directory := by
    rw [hput.face]
    split_ifs with heq
    · rw [heq, hnone]
      simp [DirEntry.face]
    · rfl
  unfold replace
  simp only [hmade, hstage, hrename, hface, hundo]
  split_ifs <;> rfl

/-- The path of a file ends in a name in a directory. -/
theorem exists_entryIn (hlf : fs.LinkFree) {path : Text} (h : fs.readBytes path = .ok content) :
    ∃ pieces dir name, EntryIn fs path pieces dir name := by
  obtain ⟨⟨hne, hopen⟩, hfile⟩ := (readBytes_eq_ok_iff hlf).mp h
  have hface := fileAt?_eq_some_iff.mp hfile
  have hnot : fs.faceAt? (placeOf fs.workingDirectory path) ≠ some .directory := by simp [hface]
  obtain ⟨pieces, name, hsplit⟩ :=
    List.eq_nil_or_concat' (Text.splitAt '/' path) |>.resolve_left (Text.splitAt_ne_nil '/' path)
  have hslash : path.getLast? ≠ some '/' := by
    intro hslash
    rw [Step.toEntry, if_pos hslash, open_append, open_stay_iff] at hopen
    exact hnot hopen.2
  have hpath := Text.join_splitAt '/' path
  rw [hsplit] at hpath
  rw [Step.toEntry, if_neg hslash, Step.ofPath, hsplit, List.filterMap_append, open_append] at hopen
  have hplace : placeOf fs.workingDirectory path =
      ([name].filterMap Step.ofPiece?).foldl Step.next ((pieces.filterMap Step.ofPiece?).foldl
        Step.next (start fs.workingDirectory path)) := by
    rw [placeOf, Step.ofPath, hsplit, List.filterMap_append, List.foldl_append]
  obtain ⟨hpieces, hlast⟩ := hopen
  have hempty : name ≠ [] := by
    intro heq
    subst heq
    by_cases hnil : pieces = []
    · rw [hnil] at hpath
      exact hne hpath.symm
    · rw [Text.join_append _ hnil (by simp)] at hpath
      exact hslash (by rw [← hpath]; simp [Text.join])
  have hdot : name ≠ ['.'] := by
    intro heq
    subst heq
    rw [hplace] at hnot
    exact hnot (open_stay_iff.mp hlast)
  have hdots : name ≠ ['.', '.'] := by
    intro heq
    subst heq
    rw [hplace] at hnot
    exact hnot (faceAt?_dropLast hlast.1)
  have hproper : ProperName name :=
    ⟨hempty, hdot, hdots, Text.not_mem_of_mem_splitAt (by rw [hsplit]; simp)⟩
  rw [List.filterMap_cons, Step.ofPiece?_of_proper hproper] at hlast
  exact ⟨pieces, _, name, hsplit, hproper, hpieces, rfl, hlast.1⟩

/-- A file that exists can be replaced. -/
theorem replace_of_file (hs : fs.Sound) {path : Path} {old : Bytes}
    (h : fs.readBytes path.text = .ok old) (content : Bytes) :
    fs.replace path content =
      (.ok (), fs.put (placeOf fs.workingDirectory path.text) (.file content)) := by
  obtain ⟨pieces, dir, name, hentry⟩ := exists_entryIn hs.linkFree h
  have hstaging := (hentry.isDirectory_staging hs.linkFree).1
  have hface := fileAt?_eq_some_iff.mp ((readBytes_eq_ok_iff hs.linkFree).mp h).2
  rw [hentry.placeOf_eq] at hface ⊢
  rw [replace_of_directory hs (createDirectories_of_isDirectory hs.linkFree hstaging) hentry,
    if_neg (by simp [hface])]

/-- A path down names below a directory, in the directory of the last name. -/
theorem entryIn_below (hbase : fs.Enters base.text) (h : ∀ n ∈ init ++ [name], ProperName n)
    (hdir : fs.faceAt? (placeOf fs.workingDirectory base.text ++ init) = some .directory) :
    EntryIn fs (base.below (init ++ [name])) (base.trunk ++ init)
      (placeOf fs.workingDirectory base.text ++ init) name := by
  have hinit : ∀ n ∈ init, ProperName n := fun n hn => h n (List.mem_append_left _ hn)
  have hsteps : (base.trunk ++ init).filterMap Step.ofPiece? =
      Step.ofPath base.text ++ init.map .down := by
    rw [List.filterMap_append, Path.filterMap_trunk, Step.filterMap_of_proper hinit]
  refine ⟨?_, h name (by simp), ?_, ?_, hdir⟩
  · rw [Path.splitAt_below (by simp) h, List.append_assoc]
  · rw [hsteps, Path.start_below (by simp) h]
    refine open_append.mpr ⟨hbase.isOpen, ?_⟩
    cases init with
    | nil => trivial
    | cons first rest =>
      apply (open_down_iff (by simp)).mpr
      rw [← placeOf, hdir]
      simp
  · rw [hsteps, Path.start_below (by simp) h, List.foldl_append, foldl_next_down]
    rfl

/-- Whether a file down some names below a place can not be written: a directory stands there, or
a file on the way to it. -/
def Blocked (fs : FileSystem) (here ns : Location) : Prop :=
  fs.faceAt? (here ++ ns) = some .directory ∨ FileOnWay fs here ns.dropLast

theorem blocked_congr {here : Location}
    (hdir : ∀ l, fs'.faceAt? l = some .directory ↔ fs.faceAt? l = some .directory)
    (hfile : ∀ l, (fs'.fileAt? l).isSome ↔ (fs.fileAt? l).isSome) :
    Blocked fs' here ns ↔ Blocked fs here ns := by
  simp only [Blocked, FileOnWay, hdir, hfile]

/-- Where a file stands already, it can be written. -/
theorem not_blocked_of_file {here : Location} (hne : ns ≠ [])
    (hfile : (fs.fileAt? (here ++ ns)).isSome) : ¬Blocked fs here ns := by
  obtain ⟨content, hcontent⟩ := Option.isSome_iff_exists.mp hfile
  have hface := fileAt?_eq_some_iff.mp hcontent
  intro hblocked
  rcases hblocked with hdir | ⟨l, hway, hfile'⟩
  · simp [hface] at hdir
  · have hthere : fs.faceAt? (here ++ ns) ≠ none := by simp [hface]
    have hdir := faceAt?_of_onWay_dropLast hne hway hthere
    simp [fileAt?, hdir, Face.content?] at hfile'

/-- The faces when a file is written down some names, with the directories on the way. -/
def withFile (here ns : Location) (content : Bytes) (fs : FileSystem) (l : Location) :
    Option Face :=
  if l = here ++ ns then some (.file content) else withDirectories here ns.dropLast fs l

section Below

variable (hbase : fs.Enters base.text) (hs : fs.Sound)

include hbase hs

theorem replace_below_of_directory (h : ∀ n ∈ init ++ [name], ProperName n) {path : Path}
    (hpath : path.text = base.below (init ++ [name])) (content : Bytes)
    (hdir : fs.faceAt? (placeOf fs.workingDirectory base.text ++ init) = some .directory) :
    fs.replace path content =
      if fs.faceAt? (placeOf fs.workingDirectory base.text ++ (init ++ [name])) =
          some .directory then
        (.error (.access path.text .isADirectory), fs)
      else (.ok (), fs.put (placeOf fs.workingDirectory base.text ++ (init ++ [name]))
        (.file content)) := by
  have hentry := entryIn_below hbase h hdir
  rw [← hpath] at hentry
  have hstaging := (hentry.isDirectory_staging hs.linkFree).1
  have hreplace := replace_of_directory hs
    (createDirectories_of_isDirectory hs.linkFree hstaging) hentry content
  rwa [List.append_assoc] at hreplace

/-- A file that is blocked is not written, and nothing changes at all. -/
theorem replace_below_blocked (hne : ns ≠ []) (h : ∀ n ∈ ns, ProperName n) {path : Path}
    (hpath : path.text = base.below ns) (content : Bytes)
    (hblocked : Blocked fs (placeOf fs.workingDirectory base.text) ns) :
    ∃ e, fs.replace path content = (.error e, fs) := by
  obtain ⟨init, last, rfl⟩ := List.eq_nil_or_concat' ns |>.resolve_left hne
  rcases hblocked with hdir | hfile
  · have habove : fs.faceAt? (placeOf fs.workingDirectory base.text ++ init) =
        some .directory := by
      refine faceAt?_of_append (List.cons_ne_nil last []) ?_
      rw [List.append_assoc, hdir]
      simp
    exact ⟨_, by rw [replace_below_of_directory hbase hs h hpath content habove, if_pos hdir]⟩
  · rw [List.dropLast_concat] at hfile
    have hinit : ∀ n ∈ init, ProperName n := fun n hn => h n (List.mem_append_left _ hn)
    have hne' : init ≠ [] := by
      intro heq
      subst heq
      exact hfile.not_directory (by simpa using hbase.directory)
    obtain ⟨reason, hmade⟩ := createDirectories_below_fileOnWay hbase hs hne' hinit hfile
    have hstaging := stagingDirectory_below hne' hinit (h last (by simp)) base
    refine ⟨.access (base.below init) reason, ?_⟩
    unfold replace
    simp only [hpath, hstaging, hmade]

/-- Once there is a directory for it, a file is put there unless a directory has its name. -/
theorem replace_below_made (h : ∀ n ∈ init ++ [name], ProperName n) {path : Path}
    (hpath : path.text = base.below (init ++ [name])) (content : Bytes)
    (hno : ¬FileOnWay fs (placeOf fs.workingDirectory base.text) init) :
    ∃ fs₁, Becomes fs fs₁ (withDirectories (placeOf fs.workingDirectory base.text) init fs) ∧
      fs₁.faceAt? (placeOf fs.workingDirectory base.text ++ init) = some .directory ∧
      fs.replace path content =
        if fs₁.faceAt? (placeOf fs.workingDirectory base.text ++ (init ++ [name])) =
            some .directory then
          (.error (.access path.text .isADirectory), fs₁)
        else (.ok (), fs₁.put (placeOf fs.workingDirectory base.text ++ (init ++ [name]))
          (.file content)) := by
  have hinit : ∀ n ∈ init, ProperName n := fun n hn => h n (List.mem_append_left _ hn)
  by_cases hdir : fs.faceAt? (placeOf fs.workingDirectory base.text ++ init) = some .directory
  · exact ⟨fs, hs.becomes.congr fun l => (withDirectories_of_directory hdir l).symm, hdir,
      replace_below_of_directory hbase hs h hpath content hdir⟩
  · have hne : init ≠ [] := by
      intro heq
      subst heq
      exact hdir (by simpa using hbase.directory)
    obtain ⟨fs₁, hmade, hfs₁⟩ := createDirectories_below hbase hs hne hinit hno
    have hdir₁ : fs₁.faceAt? (placeOf fs.workingDirectory base.text ++ init) =
        some .directory := by
      rw [hfs₁.face, withDirectories_self hne]
    have hbase₁ := hbase.mono hfs₁.keeps_withDirectories
    have hentry := entryIn_below hbase₁ h (by rw [hfs₁.workingDirectory, hdir₁])
    rw [← hpath] at hentry
    rw [← stagingDirectory_below hne hinit (h name (by simp)) base, ← hpath] at hmade
    have hreplace := replace_of_directory hfs₁.sound hmade hentry content
    rw [hfs₁.workingDirectory, List.append_assoc] at hreplace
    exact ⟨fs₁, hfs₁, hdir₁, hreplace⟩

/-- A file that is not blocked is written, and only the missing directories on the way are new
beside it. -/
theorem replace_below (hne : ns ≠ []) (h : ∀ n ∈ ns, ProperName n) {path : Path}
    (hpath : path.text = base.below ns) (content : Bytes)
    (hfree : ¬Blocked fs (placeOf fs.workingDirectory base.text) ns) :
    ∃ fs', fs.replace path content = (.ok (), fs') ∧
      Becomes fs fs' (withFile (placeOf fs.workingDirectory base.text) ns content fs) := by
  obtain ⟨init, last, rfl⟩ := List.eq_nil_or_concat' ns |>.resolve_left hne
  obtain ⟨hnotDir, hno⟩ := not_or.mp hfree
  rw [List.dropLast_concat] at hno
  obtain ⟨fs₁, hfs₁, hdir₁, hreplace⟩ := replace_below_made hbase hs h hpath content hno
  have hsame : fs₁.faceAt? (placeOf fs.workingDirectory base.text ++ (init ++ [last])) =
      fs.faceAt? (placeOf fs.workingDirectory base.text ++ (init ++ [last])) := by
    rw [hfs₁.face, withDirectories_next]
  have hfits : fs₁.Fits (placeOf fs.workingDirectory base.text ++ (init ++ [last])) :=
    ⟨_, last, (List.append_assoc ..).symm, h last (by simp), hdir₁,
      by rw [hsame]; exact hnotDir⟩
  rw [if_neg (by rw [hsame]; exact hnotDir)] at hreplace
  refine ⟨_, hreplace,
    (hfs₁.trans (becomes_put hfs₁.sound hfits (DirEntry.fresh_file content))).congr fun l => ?_⟩
  rw [withFile, List.dropLast_concat, hfs₁.face]
  rfl

end Below

/-! ## Relative paths -/

/-- Where a file is not blocked, writing it shows at its own place and at the directories that were
missing on the way to it. -/
theorem withFile_cases {here : Location} (hlf : fs.LinkFree) (hfree : ¬Blocked fs here ns)
    (content : Bytes) (l : Location) :
    l = here ++ ns ∧ withFile here ns content fs l = some (.file content) ∨
      withFile here ns content fs l = fs.faceAt? l ∨
      OnWay here ns.dropLast l ∧ fs.faceAt? l = none ∧
        withFile here ns content fs l = some .directory := by
  unfold withFile withDirectories
  split_ifs with hl hway
  · exact Or.inl ⟨hl, rfl⟩
  · rcases faceAt?_cases hlf l with hnone | ⟨old, hfile⟩ | hdir
    · exact Or.inr (Or.inr ⟨hway, hnone, rfl⟩)
    · refine absurd (Or.inr ⟨l, hway, ?_⟩) hfree
      rw [fileAt?_eq_some_iff.mpr hfile]
      rfl
    · exact Or.inr (Or.inl hdir.symm)
  · exact Or.inr (Or.inl rfl)

/-- Whether a file system is another one with a file put down some names from a place: every other
entry is what it was, files with their content, and beside the file only the directories that were
missing on the way to it are new. -/
structure Installed (fs fs' : FileSystem) (here ns : Location) (content : Bytes) : Prop where
  file : fs'.faceAt? (here ++ ns) = some (.file content)
  kept : ∀ l ≠ here ++ ns, fs.faceAt? l ≠ none → fs'.faceAt? l = fs.faceAt? l
  added : ∀ l ≠ here ++ ns, fs.faceAt? l = none →
    fs'.faceAt? l = if OnWay here ns.dropLast l then some .directory else none

section WithFile

variable {here : Location} (hlf : fs.LinkFree) (hfree : ¬Blocked fs here ns)
  (h : Becomes fs fs' (withFile here ns content fs))

include hlf hfree h

theorem Becomes.keeps_withFile : Keeps fs fs' := by
  refine h.keeps (fun l => ?_)
  rcases withFile_cases hlf hfree content l with ⟨rfl, hfile⟩ | hsame | ⟨-, hnone, hdir⟩
  · exact Or.inr ⟨(not_or.mp hfree).1, by simp [hfile]⟩
  · exact Or.inl hsame
  · exact Or.inr ⟨by simp [hnone], by simp [hdir]⟩

theorem Becomes.installed : Installed fs fs' here ns content where
  file := by rw [h.face, withFile, if_pos rfl]
  kept := by
    intro l hl hthere
    rw [h.face]
    rcases withFile_cases hlf hfree content l with ⟨heq, -⟩ | hsame | ⟨-, hnone, -⟩
    · exact absurd heq hl
    · exact hsame
    · exact absurd hnone hthere
  added := by
    intro l hl hnone
    rw [h.face, withFile, if_neg hl, withDirectories, hnone]

end WithFile

/-- A path leads down its names from the working directory, as if from the empty path. -/
theorem text_eq_below_nil (path : Path) : path.text = (Path.ofText []).below path.names :=
  Path.text_eq_join path

theorem enters_nil (hwd : fs.faceAt? fs.workingDirectory = some .directory) : fs.Enters [] where
  isOpen := by
    rw [Step.ofPath_nil]
    trivial
  directory := hwd

/-- **Replacing is all or nothing.**  A file is written unless a directory stands in its place or a
file in the place of a directory above it.  Then its content is read back, and all else is as it was
but for the directories that were missing; otherwise nothing at all has changed. -/
theorem replace_all_or_nothing (hs : fs.Sound)
    (hwd : fs.faceAt? fs.workingDirectory = some .directory) {path : Path} (hplain : path.Plain)
    (content : Bytes) :
    let outcome := fs.replace path content
    (outcome.1 = .ok () ↔ ¬Blocked fs fs.workingDirectory path.names) ∧
      (outcome.1 = .ok () → outcome.2.readBytes path.text = .ok content ∧
        Installed fs outcome.2 fs.workingDirectory path.names content) ∧
      (outcome.1 ≠ .ok () → outcome.2 = fs) := by
  have hbase : fs.Enters (Path.ofText []).text := enters_nil hwd
  have hpath := text_eq_below_nil path
  have hne := path.names_ne_nil
  by_cases hblocked : Blocked fs fs.workingDirectory path.names
  · obtain ⟨e, hreplace⟩ := replace_below_blocked hbase hs hne hplain hpath content hblocked
    rw [hreplace]
    exact ⟨by simp [hblocked], by simp, fun _ => rfl⟩
  · obtain ⟨fs', hreplace, hfs'⟩ := replace_below hbase hs hne hplain hpath content hblocked
    have hinstalled := hfs'.installed hs.linkFree hblocked
    have hbase' := hbase.mono (hfs'.keeps_withFile hs.linkFree hblocked)
    have hread : fs'.readBytes path.text = .ok content := by
      rw [hpath, readBytes_below_iff hne hplain hfs'.sound.linkFree hbase', hfs'.workingDirectory]
      exact fileAt?_eq_some_iff.mpr hinstalled.file
    rw [hreplace]
    exact ⟨by simp [hblocked], fun _ => ⟨hread, hinstalled⟩, fun h => absurd rfl h⟩

/-- A working directory with the file `log` and with the file `hosts` in a directory. -/
def workFiles : FileSystem where
  root := [("work".toList, .directory
    [("etc".toList, .directory [("hosts".toList, .file (Utf8.encode "local".toList))]),
      ("log".toList, .file (Utf8.encode "old".toList))])]
  workingDirectory := ["work".toList]

/-- The file `etc/app/x.conf` is new with the directory that it is in, and a file below the file
`log` can not be written. -/
theorem replace_all_or_nothing_work :
    let inserted := Path.ofText "etc/app/x.conf".toList
    let refused := Path.ofText "log/x.conf".toList
    let content := Utf8.encode "new".toList
    workFiles.Sound ∧ workFiles.faceAt? workFiles.workingDirectory = some .directory ∧
      inserted.Plain ∧ refused.Plain ∧
      (workFiles.replace inserted content).2.readBytes inserted.text = .ok content ∧
      Installed workFiles (workFiles.replace inserted content).2 ["work".toList] inserted.names
        content ∧
      Blocked workFiles ["work".toList] refused.names ∧
      (workFiles.replace refused content).2 = workFiles := by
  intro inserted refused content
  have hs : workFiles.Sound := by decide +kernel
  have hinserted : inserted.Plain := by decide +kernel
  have hrefused : refused.Plain := by decide +kernel
  obtain ⟨-, hdone, -⟩ := replace_all_or_nothing hs rfl hinserted content
  obtain ⟨hiff, -, hundone⟩ := replace_all_or_nothing hs rfl hrefused content
  obtain ⟨hread, hinstalled⟩ := hdone (by decide +kernel)
  have hfails : (workFiles.replace refused content).1 ≠ .ok () := by decide +kernel
  exact ⟨hs, rfl, hinserted, hrefused, hread, hinstalled, not_not.mp (mt hiff.mpr hfails),
    hundone hfails⟩

end LayeredConfig.FileSystem
