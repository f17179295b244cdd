import LayeredConfig.FileSystem.Read
import LayeredConfig.Proofs.FileSystem.Faces

/-!
# Ways without links

Where there are no links, a path leads to the place that its steps name, and it does so exactly
when the way is open: every step is taken from a directory, and what a step down names is there.
Main statements:

* `follow_eq_found_iff` — a path leads to an entry exactly if the way to it is open;
* `isFile_iff`, `isDirectory_iff`, `readBytes_eq_ok_iff` — reading, by the way being open and
  the face of the place that the path names;
* `Open.mono` — a way stays open when directories stay directories and nothing disappears.
-/

namespace LayeredConfig.FileSystem

variable {fs fs' : FileSystem} {here l dir : Location} {s t steps : List Step} {path : Text}

/-! ## Open ways -/

/-- Whether steps can be taken from a place: each from a directory, and down to what is there. -/
def Open (fs : FileSystem) : (here : Location) → List Step → Prop
  | _, [] => True
  | here, step :: rest =>
    fs.faceAt? here = some .directory ∧
      (∀ name, step = .down name → fs.faceAt? (here ++ [name]) ≠ none) ∧
      Open fs (Step.next here step) rest

theorem open_append :
    Open fs here (s ++ t) ↔ Open fs here s ∧ Open fs (s.foldl Step.next here) t := by
  induction s generalizing here with
  | nil => simp [Open]
  | cons step rest ih =>
    simp only [List.cons_append, Open, List.foldl_cons, ih]
    tauto

@[simp] theorem open_stay_iff : Open fs here [.stay] ↔ fs.faceAt? here = some .directory := by
  simp [Open]

theorem open_down_iff {names : Location} (hn : names ≠ []) :
    Open fs here (names.map .down) ↔ fs.faceAt? (here ++ names) ≠ none := by
  induction names generalizing here with
  | nil => exact absurd rfl hn
  | cons name names ih =>
    have hdir : fs.faceAt? (here ++ name :: names) ≠ none → fs.faceAt? here = some .directory :=
      faceAt?_of_append (by simp)
    cases names with
    | nil =>
      simp only [List.map_cons, List.map_nil, Open, and_true]
      constructor
      · exact fun h => h.2 name rfl
      · intro h
        refine ⟨hdir h, ?_⟩
        intro other heq
        obtain rfl := Step.down.inj heq
        exact h
    | cons next rest =>
      rw [List.map_cons, Open, ih (by simp)]
      simp only [Step.next, List.append_assoc, List.singleton_append]
      constructor
      · exact fun h => h.2.2
      · intro h
        refine ⟨hdir h, ?_, h⟩
        intro other heq
        obtain rfl := Step.down.inj heq
        have hname : fs.faceAt? (here ++ [name]) = some .directory :=
          faceAt?_of_append (List.cons_ne_nil next rest) (by simpa using h)
        simp [hname]

theorem foldl_next_down (here names : Location) :
    (names.map Step.down).foldl Step.next here = here ++ names := by
  induction names generalizing here with
  | nil => simp
  | cons name names ih => simp [Step.next, ih]

theorem foldl_next_stay (here : Location) (k : Nat) :
    (List.replicate k Step.stay).foldl Step.next here = here := by
  induction k with
  | zero => rfl
  | succ k ih => rwa [List.replicate_succ, List.foldl_cons, Step.next]

theorem open_replicate_stay (h : fs.faceAt? here = some .directory) (k : Nat) :
    Open fs here (List.replicate k .stay) := by
  induction k with
  | zero => trivial
  | succ k ih => exact ⟨h, by simp, ih⟩

/-- What a file system keeps while it grows: directories stay directories and nothing
disappears. -/
structure Keeps (fs fs' : FileSystem) : Prop where
  workingDirectory : fs'.workingDirectory = fs.workingDirectory
  directory : ∀ l, fs.faceAt? l = some .directory → fs'.faceAt? l = some .directory
  present : ∀ l, fs.faceAt? l ≠ none → fs'.faceAt? l ≠ none

theorem Keeps.refl (fs : FileSystem) : Keeps fs fs := ⟨rfl, fun _ h => h, fun _ h => h⟩

theorem Keeps.trans {fs'' : FileSystem} (h : Keeps fs fs') (h' : Keeps fs' fs'') :
    Keeps fs fs'' :=
  ⟨h'.workingDirectory.trans h.workingDirectory, fun l hl => h'.directory l (h.directory l hl),
    fun l hl => h'.present l (h.present l hl)⟩

theorem Open.mono (hk : Keeps fs fs') (h : Open fs here steps) : Open fs' here steps := by
  induction steps generalizing here with
  | nil => trivial
  | cons step rest ih =>
    obtain ⟨hdir, hdown, hrest⟩ := h
    exact ⟨hk.directory _ hdir, fun name heq => hk.present _ (hdown name heq), ih hrest⟩

/-! ## Walking -/

variable {onLink : Location → Text → List Step → Except OsError Destination} {followLast : Bool}

theorem get?_ne_link (hlf : fs.LinkFree) {entries : Directory}
    (hat : fs.at? here = some (.directory entries)) (name target : Text) :
    Entries.get? name entries ≠ some (.link target) := by
  intro hget
  exact hlf (here ++ [name]) target ((at?_concat hat name).trans hget)

/-- One step on an open way. -/
theorem walkWith_cons (hlf : fs.LinkFree) {step : Step} {rest : List Step}
    (h : Open fs here [step]) :
    walkWith onLink followLast fs.root here (step :: rest) =
      walkWith onLink followLast fs.root (Step.next here step) rest := by
  obtain ⟨hdir, hdown, -⟩ := h
  obtain ⟨entries, hat⟩ := faceAt?_eq_directory_iff.mp hdir
  have hroot : DirEntry.at? here (.directory fs.root) = some (.directory entries) := hat
  cases step with
  | stay => simp only [walkWith, hroot, Step.next]
  | up => simp only [walkWith, hroot, Step.next]
  | down name =>
    have hname := hdown name rfl
    rw [faceAt?, at?_concat hat] at hname
    cases hget : Entries.get? name entries with
    | none => simp [hget] at hname
    | some entry =>
      cases entry with
      | link target => exact absurd hget (get?_ne_link hlf hat name target)
      | file content => simp only [walkWith, hroot, hget, Step.next]
      | directory inner => simp only [walkWith, hroot, hget, Step.next]

theorem walkWith_append (hlf : fs.LinkFree) (h : Open fs here s) (t : List Step) :
    walkWith onLink followLast fs.root here (s ++ t) =
      walkWith onLink followLast fs.root (s.foldl Step.next here) t := by
  induction s generalizing here with
  | nil => rfl
  | cons step rest ih =>
    obtain ⟨hdir, hdown, hrest⟩ := h
    rw [List.cons_append, walkWith_cons hlf ⟨hdir, hdown, trivial⟩, ih hrest, List.foldl_cons]

theorem walkWith_vacant (hdir : fs.faceAt? here = some .directory)
    {name : Text} (hnone : fs.faceAt? (here ++ [name]) = none) :
    walkWith onLink followLast fs.root here [.down name] = .ok (.vacant here name) := by
  obtain ⟨entries, hat⟩ := faceAt?_eq_directory_iff.mp hdir
  have hroot : DirEntry.at? here (.directory fs.root) = some (.directory entries) := hat
  have hget : Entries.get? name entries = none := by
    simpa [faceAt?, at?_concat hat] using hnone
  simp [walkWith, hroot, hget]

theorem walkWith_missing (hdir : fs.faceAt? here = some .directory) {name : Text}
    (hnone : fs.faceAt? (here ++ [name]) = none) (hsteps : steps ≠ []) :
    walkWith onLink followLast fs.root here (.down name :: steps) = .error .notFound := by
  obtain ⟨entries, hat⟩ := faceAt?_eq_directory_iff.mp hdir
  have hroot : DirEntry.at? here (.directory fs.root) = some (.directory entries) := hat
  have hget : Entries.get? name entries = none := by
    simpa [faceAt?, at?_concat hat] using hnone
  simp [walkWith, hroot, hget, hsteps]

theorem walkWith_file {content : Bytes} (hfile : fs.faceAt? here = some (.file content))
    (hsteps : steps ≠ []) :
    walkWith onLink followLast fs.root here steps = .error .notADirectory := by
  obtain ⟨step, rest, rfl⟩ := List.exists_cons_of_ne_nil hsteps
  have hroot : DirEntry.at? here (.directory fs.root) = some (.file content) :=
    at?_eq_file_iff.mpr hfile
  simp [walkWith, hroot]

theorem walkWith_eq_found (hlf : fs.LinkFree)
    (h : walkWith onLink followLast fs.root here steps = .ok (.found l)) :
    Open fs here steps ∧ l = steps.foldl Step.next here := by
  induction steps generalizing here with
  | nil =>
    simp only [walkWith, Except.ok.injEq, Destination.found.injEq] at h
    exact ⟨trivial, h.symm⟩
  | cons step rest ih =>
    have hopen : Open fs here [step] := by
      cases hat : fs.at? here with
      | none =>
        have hroot : DirEntry.at? here (.directory fs.root) = none := hat
        simp [walkWith, hroot] at h
      | some entry =>
        have hroot : DirEntry.at? here (.directory fs.root) = some entry := hat
        cases entry with
        | file content => simp [walkWith, hroot] at h
        | link target => simp [walkWith, hroot] at h
        | directory entries =>
          refine ⟨faceAt?_eq_directory_iff.mpr ⟨entries, hat⟩, ?_, trivial⟩
          intro name heq hnone
          subst heq
          have hget : Entries.get? name entries = none := by
            simpa [faceAt?, at?_concat hat] using hnone
          simp only [walkWith, hroot, hget] at h
          split_ifs at h
          simp at h
    rw [walkWith_cons hlf hopen] at h
    obtain ⟨hrest, hl⟩ := ih h
    exact ⟨⟨hopen.1, hopen.2.1, hrest⟩, hl⟩

theorem walk_eq_walkWith (followLast : Bool) (root : Directory) (links : Nat) :
    ∃ onLink, walk followLast root links = walkWith onLink followLast root := by
  cases links with
  | zero => exact ⟨_, rfl⟩
  | succ links => exact ⟨_, rfl⟩

/-! ## What a path leads to -/

theorem follow_eq_found_iff (hlf : fs.LinkFree) :
    fs.follow followLast path steps = .ok (.found l) ↔
      path ≠ [] ∧ Open fs (start fs.workingDirectory path) steps ∧
        l = steps.foldl Step.next (start fs.workingDirectory path) := by
  obtain ⟨onLink, hwalk⟩ := walk_eq_walkWith followLast fs.root mostLinks
  unfold follow
  split_ifs with hpath
  · simp [hpath]
  · rw [hwalk]
    constructor
    · exact fun h => ⟨hpath, walkWith_eq_found hlf h⟩
    · intro hway
      obtain ⟨-, hopen, rfl⟩ := hway
      have hnil : walkWith onLink followLast fs.root _ (steps ++ []) = _ :=
        walkWith_append hlf hopen []
      rwa [List.append_nil] at hnil

/-- Whether a path leads to an entry. -/
def Reaches (fs : FileSystem) (path : Text) : Prop :=
  path ≠ [] ∧ Open fs (start fs.workingDirectory path) (Step.toEntry path)

theorem foldl_toEntry (here : Location) (path : Text) :
    (Step.toEntry path).foldl Step.next here = (Step.ofPath path).foldl Step.next here := by
  unfold Step.toEntry
  split_ifs
  · rw [List.foldl_append]
    rfl
  · rfl

theorem locate_eq_ok_iff (hlf : fs.LinkFree) :
    fs.locate path = .ok l ↔ fs.Reaches path ∧ l = placeOf fs.workingDirectory path := by
  have hfound : fs.follow true path (Step.toEntry path) = .ok (.found l) ↔ _ :=
    follow_eq_found_iff hlf
  rw [foldl_toEntry] at hfound
  unfold locate
  constructor
  · intro h
    cases hf : fs.follow true path (Step.toEntry path) with
    | error reason => simp [hf] at h
    | ok destination =>
      cases destination with
      | vacant directory name => simp [hf] at h
      | found location =>
        obtain rfl : location = l := by simpa [hf] using h
        obtain ⟨hpath, hopen, hl⟩ := hfound.mp hf
        exact ⟨⟨hpath, hopen⟩, hl⟩
  · intro hreaches
    obtain ⟨⟨hpath, hopen⟩, hl⟩ := hreaches
    rw [hfound.mpr ⟨hpath, hopen, hl⟩]

theorem entry_eq_ok_iff (hlf : fs.LinkFree) {entry : DirEntry} :
    fs.entry path = .ok entry ↔
      fs.Reaches path ∧ fs.at? (placeOf fs.workingDirectory path) = some entry := by
  unfold FileSystem.entry
  constructor
  · intro h
    cases hl : fs.locate path with
    | error reason => simp [hl] at h
    | ok location =>
      obtain ⟨hreach, rfl⟩ := (locate_eq_ok_iff hlf).mp hl
      cases hat : fs.at? (placeOf fs.workingDirectory path) with
      | none => simp [hl, hat] at h
      | some found =>
        obtain rfl : found = entry := by simpa [hl, hat] using h
        exact ⟨hreach, rfl⟩
  · intro hthere
    obtain ⟨hreach, hat⟩ := hthere
    rw [(locate_eq_ok_iff hlf).mpr ⟨hreach, rfl⟩]
    simp only [hat]

theorem isDirectory_iff (hlf : fs.LinkFree) :
    fs.isDirectory path = true ↔
      fs.Reaches path ∧ fs.faceAt? (placeOf fs.workingDirectory path) = some .directory := by
  rw [faceAt?_eq_directory_iff]
  unfold isDirectory
  constructor
  · intro h
    cases he : fs.entry path with
    | error reason => simp [he] at h
    | ok entry =>
      obtain ⟨hreach, hat⟩ := (entry_eq_ok_iff hlf).mp he
      cases entry with
      | directory entries => exact ⟨hreach, entries, hat⟩
      | file content => simp [he, DirEntry.isDirectory] at h
      | link target => simp [he, DirEntry.isDirectory] at h
  · intro hthere
    obtain ⟨hreach, entries, hat⟩ := hthere
    rw [(entry_eq_ok_iff hlf).mpr ⟨hreach, hat⟩]
    rfl

theorem readBytes_eq_ok_iff (hlf : fs.LinkFree) {content : Bytes} :
    fs.readBytes path = .ok content ↔
      fs.Reaches path ∧ fs.fileAt? (placeOf fs.workingDirectory path) = some content := by
  rw [fileAt?_eq_some_iff, ← at?_eq_file_iff, ← entry_eq_ok_iff hlf]
  unfold readBytes
  cases fs.entry path with
  | error reason => simp
  | ok entry => cases entry <;> simp

theorem isFile_iff :
    fs.isFile path = true ↔ ∃ content, fs.readBytes path = .ok content := by
  unfold isFile readBytes
  cases fs.entry path with
  | error reason => simp
  | ok entry => cases entry <;> simp [DirEntry.isFile]

theorem Reaches.mono (hk : Keeps fs fs') (h : fs.Reaches path) : fs'.Reaches path := by
  refine ⟨h.1, ?_⟩
  rw [hk.workingDirectory]
  exact h.2.mono hk

/-- Where the ways stay open, a file is read that has kept its content. -/
theorem readBytes_of_keeps (hlf : fs.LinkFree) (hlf' : fs'.LinkFree) (hk : Keeps fs fs')
    {content : Bytes} (h : fs.readBytes path = .ok content)
    (hsame : fs'.fileAt? (placeOf fs.workingDirectory path) =
      fs.fileAt? (placeOf fs.workingDirectory path)) : fs'.readBytes path = .ok content := by
  obtain ⟨hreach, hfile⟩ := (readBytes_eq_ok_iff hlf).mp h
  refine (readBytes_eq_ok_iff hlf').mpr ⟨hreach.mono hk, ?_⟩
  rw [hk.workingDirectory, hsame, hfile]

end LayeredConfig.FileSystem
