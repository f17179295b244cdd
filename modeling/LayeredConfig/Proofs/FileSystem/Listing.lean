import LayeredConfig.FileSystem.Read
import LayeredConfig.Proofs.Collect
import LayeredConfig.Proofs.FileSystem.Filling
import LayeredConfig.Proofs.FileSystem.Paths
import Mathlib.Data.List.Nodup

/-!
# Listing without links

Where there are no links, listing the files below a directory finds each file once, under the names
that lead down to it.  Main statements:

* `mem_files_iff`, `nodup_files` — the places of the files below an entry, each once;
* `filesAt_eq` — **the walk visits exactly these places**, in this order;
* `listFiles_eq_ok` — the listing of a directory that a path leads to;
* `FileBelow.names_relativePath`, `nodup_relativePaths` — without backslashes in names, a file below
  a directory is known by its relative path.
-/

namespace LayeredConfig

namespace DirEntry

mutual

/-- The places of the files at and below an entry, in the order in which they are visited. -/
def files : DirEntry → List Location
  | file _ => [[]]
  | link _ => []
  | directory entries => filesOf entries

/-- The places of the files among entries and below them. -/
def filesOf : List (Text × DirEntry) → List Location
  | [] => []
  | (name, entry) :: rest => (files entry).map (name :: ·) ++ filesOf rest

end

theorem head_mem_keys_of_mem_filesOf {name : Text} {names : Location} :
    ∀ {entries : List (Text × DirEntry)}, name :: names ∈ filesOf entries →
      name ∈ Entries.keys entries
  | [], h => by simp [filesOf] at h
  | (key, entry) :: rest, h => by
    rw [filesOf] at h
    rcases List.mem_append.mp h with h | h
    · obtain ⟨l, -, hl⟩ := List.mem_map.mp h
      obtain rfl : key = name := (List.cons.inj hl).1
      simp [Entries.keys]
    · exact List.mem_cons_of_mem _ (head_mem_keys_of_mem_filesOf h)

theorem nil_not_mem_filesOf : ∀ entries : List (Text × DirEntry), [] ∉ filesOf entries
  | [] => by simp [filesOf]
  | (key, entry) :: rest => by
    rw [filesOf, List.mem_append, not_or]
    exact ⟨by simp, nil_not_mem_filesOf rest⟩

mutual

theorem mem_files_iff : ∀ (entry : DirEntry) (l : Location), entry.Regular →
    (l ∈ files entry ↔ ∃ content, at? l entry = some (file content))
  | file content, l, _ => by
    cases l with
    | nil => simp [files]
    | cons name names => simp [files, at?]
  | link target, l, _ => by
    cases l with
    | nil => simp [files]
    | cons name names => simp [files, at?]
  | directory entries, l, h => by
    obtain ⟨hi, hbelow⟩ := regular_directory_iff.mp h
    rw [files]
    cases l with
    | nil => simp [nil_not_mem_filesOf]
    | cons name names =>
      rw [mem_filesOf_iff entries name names hi fun e he => (hbelow e he).2]
      simp only [at?_cons, Option.bind_eq_some_iff]
      exact ⟨fun ⟨entry, hget, content, hat⟩ => ⟨content, entry, hget, hat⟩,
        fun ⟨content, entry, hget, hat⟩ => ⟨entry, hget, content, hat⟩⟩

theorem mem_filesOf_iff : ∀ (entries : List (Text × DirEntry)) (name : Text) (names : Location),
    Entries.Increasing entries → (∀ e ∈ entries, e.2.Regular) →
    (name :: names ∈ filesOf entries ↔
      ∃ entry, Entries.get? name entries = some entry ∧
        ∃ content, at? names entry = some (file content))
  | [], name, names, _, _ => by simp [filesOf, Entries.get?]
  | (key, entry) :: rest, name, names, hi, hbelow => by
    have hrest := mem_filesOf_iff rest name names hi.2
      fun e he => hbelow e (List.mem_cons_of_mem _ he)
    have hentry := mem_files_iff entry names (hbelow (key, entry) List.mem_cons_self)
    rw [filesOf, List.mem_append, hrest, Entries.get?_cons]
    by_cases hkey : key = name
    · subst hkey
      have hnone : Entries.get? key rest = none := Entries.get?_eq_none_of_lt hi.1
      simp [hnone, hentry]
    · simp [hkey]

end

mutual

theorem nodup_files : ∀ {entry : DirEntry}, entry.Regular → (files entry).Nodup
  | file content, _ => by simp [files]
  | link target, _ => by simp [files]
  | directory entries, h => by
    obtain ⟨hi, hbelow⟩ := regular_directory_iff.mp h
    exact nodup_filesOf hi fun e he => (hbelow e he).2

theorem nodup_filesOf : ∀ {entries : List (Text × DirEntry)}, Entries.Increasing entries →
    (∀ e ∈ entries, e.2.Regular) → (filesOf entries).Nodup
  | [], _, _ => by simp [filesOf]
  | (key, entry) :: rest, hi, hbelow => by
    rw [filesOf]
    refine List.nodup_append.mpr ⟨?_, ?_, ?_⟩
    · exact List.Nodup.map (List.cons_injective (a := key))
        (nodup_files (hbelow (key, entry) List.mem_cons_self))
    · exact nodup_filesOf hi.2 fun e he => hbelow e (List.mem_cons_of_mem _ he)
    · intro l hl m hm heq
      subst heq
      obtain ⟨names, -, rfl⟩ := List.mem_map.mp hl
      have hmem := head_mem_keys_of_mem_filesOf hm
      have hnone : Entries.get? key rest = none := Entries.get?_eq_none_of_lt hi.1
      exact Entries.get?_eq_none_iff.mp hnone hmem

end

mutual

/-- Whether all names below an entry are without backslashes, as a computation. -/
def lacksBackslash : DirEntry → Bool
  | file _ => true
  | link _ => true
  | directory entries => lackBackslash entries

/-- Whether names and all names below them are without backslashes. -/
def lackBackslash : List (Text × DirEntry) → Bool
  | [] => true
  | (name, entry) :: rest => decide ('\\' ∉ name) && lacksBackslash entry && lackBackslash rest

end

theorem lackBackslash_iff (entries : List (Text × DirEntry)) :
    lackBackslash entries = true ↔
      ∀ e ∈ entries, '\\' ∉ e.1 ∧ lacksBackslash e.2 = true := by
  induction entries with
  | nil => simp [lackBackslash]
  | cons first rest ih =>
    obtain ⟨name, entry⟩ := first
    simp [lackBackslash, ih, and_assoc]

theorem not_mem_of_lacksBackslash {entry : DirEntry} (h : lacksBackslash entry = true)
    {l : Location} (hat : at? l entry ≠ none) : ∀ name ∈ l, '\\' ∉ name := by
  induction l generalizing entry with
  | nil => simp
  | cons first rest ih =>
    cases entry with
    | file content => simp [at?] at hat
    | link target => simp [at?] at hat
    | directory entries =>
      rw [at?_cons] at hat
      cases hget : Entries.get? first entries with
      | none => simp [hget] at hat
      | some inner =>
        have hfirst := (lackBackslash_iff entries).mp h _ (Entries.mem_of_get? hget)
        rw [hget, Option.bind_some] at hat
        intro name hname
        rcases List.mem_cons.mp hname with rfl | hname
        · exact hfirst.1
        · exact ih hfirst.2 hat name hname

end DirEntry

namespace FileSystem

open DirEntry (files filesOf)

variable {onLink : List Visited → (shown relative : Text) → Except FileError (List Text)}

mutual

theorem filesAt_eq : ∀ {entry : DirEntry} (above : List Visited) (location : Location)
    (shown relative : Text), entry.LinkFree → entry.Regular →
    filesAt onLink above location shown relative entry =
      .ok ((files entry).map (List.foldl entryRelative relative))
  | .file content, above, location, shown, relative, _, _ => rfl
  | .link target, above, location, shown, relative, h, _ =>
    absurd (DirEntry.at?_nil _) (h [] target)
  | .directory entries, above, location, shown, relative, hlf, hreg => by
    obtain ⟨hi, hbelow⟩ := DirEntry.regular_directory_iff.mp hreg
    rw [filesAt, files]
    exact filesBelow_eq _ location shown relative
      (fun e he => hlf.below (Entries.get?_of_mem hi he)) fun e he => (hbelow e he).2

theorem filesBelow_eq : ∀ {entries : List (Text × DirEntry)} (above : List Visited)
    (location : Location) (shown relative : Text), (∀ e ∈ entries, e.2.LinkFree) →
    (∀ e ∈ entries, e.2.Regular) →
    filesBelow onLink above location shown relative entries =
      .ok ((filesOf entries).map (List.foldl entryRelative relative))
  | [], above, location, shown, relative, _, _ => rfl
  | (name, entry) :: rest, above, location, shown, relative, hlf, hreg => by
    have hfirst := filesAt_eq above (location ++ [name]) (entryPath shown name)
      (entryRelative relative name) (hlf (name, entry) List.mem_cons_self)
      (hreg (name, entry) List.mem_cons_self)
    have hrest := filesBelow_eq above location shown relative
      (fun e he => hlf e (List.mem_cons_of_mem _ he))
      (fun e he => hreg e (List.mem_cons_of_mem _ he))
    rw [filesBelow, hfirst, hrest, filesOf, List.map_append, List.map_map]
    rfl

end

/-! ## Relative paths -/

theorem foldl_entryRelative (names : Location) {above : Location}
    (hne : Text.join ['/'] above ≠ []) :
    names.foldl entryRelative (Text.join ['/'] above) = Text.join ['/'] (above ++ names) := by
  induction names generalizing above with
  | nil => simp
  | cons name rest ih =>
    have habove : above ≠ [] := by
      intro heq
      subst heq
      exact hne rfl
    have hjoin : entryRelative (Text.join ['/'] above) name =
        Text.join ['/'] (above ++ [name]) := by
      rw [entryRelative, if_neg hne, Text.join_append _ habove (by simp), Text.join,
        List.append_assoc, List.singleton_append]
    rw [List.foldl_cons, hjoin, ih (by rw [← hjoin, entryRelative, if_neg hne]; simp),
      List.append_assoc, List.singleton_append]

theorem foldl_entryRelative_nil {names : Location} (h : ∀ name ∈ names, name ≠ []) :
    names.foldl entryRelative [] = Text.join ['/'] names := by
  cases names with
  | nil => rfl
  | cons first rest =>
    have hfirst : Text.join ['/'] [first] ≠ [] := h first List.mem_cons_self
    exact foldl_entryRelative rest hfirst

/-! ## The listing -/

variable {fs : FileSystem} {directory : Path} {entries : List (Text × DirEntry)}

/-- The relative path of the file that some names lead down to. -/
def relativePath (names : Location) : Path :=
  Path.ofText (Text.join ['/'] names)

theorem Sound.below {l : Location} {entry : DirEntry} (h : fs.Sound) (hat : fs.at? l = some entry) :
    entry.Regular ∧ entry.LinkFree := by
  constructor
  · intro m found hm
    apply h.regular (l ++ m) found
    rw [DirEntry.at?_append, show DirEntry.at? l _ = _ from hat, Option.bind_some, hm]
  · intro m target hm
    apply h.linkFree (l ++ m) target
    rw [DirEntry.at?_append, show DirEntry.at? l _ = _ from hat, Option.bind_some, hm]

theorem listFiles_eq_ok (h : fs.Sound) (hdir : fs.isDirectory directory.text = true)
    (hat : fs.at? (placeOf fs.workingDirectory directory.text) = some (.directory entries)) :
    fs.listFiles directory = .ok ((filesOf entries).map relativePath) := by
  have hreach := ((isDirectory_iff h.linkFree).mp hdir).1
  obtain ⟨hreg, hlf⟩ := h.below hat
  have hnames : ∀ l ∈ files (.directory entries), ∀ name ∈ l, name ≠ [] := by
    intro l hl name hname
    obtain ⟨content, hfile⟩ := (DirEntry.mem_files_iff _ _ hreg).mp hl
    have hface : fs.faceAt? (placeOf fs.workingDirectory directory.text ++ l) ≠ none := by
      rw [faceAt?, at?_append, hat, Option.bind_some, hfile]
      simp
    exact (properName_of_mem h.regular hface name (List.mem_append_right _ hname)).1
  unfold listFiles
  rw [(locate_eq_ok_iff h.linkFree).mpr ⟨hreach, rfl⟩]
  simp only [hat, filesAt_eq [] _ directory.text [] hlf hreg, Except.map, List.map_map]
  refine congrArg Except.ok (List.map_congr_left fun l hl => ?_)
  rw [Function.comp_apply, foldl_entryRelative_nil (hnames l hl), relativePath]

/-- The files among entries are the files below the place of the entries. -/
theorem mem_filesOf_iff_isSome (h : fs.Sound) {l : Location}
    (hat : fs.at? l = some (.directory entries)) {names : Location} :
    names ∈ filesOf entries ↔ (fs.fileAt? (l ++ names)).isSome := by
  rw [Option.isSome_iff_exists]
  simp only [fileAt?_eq_some_iff, ← at?_eq_file_iff, at?_append, hat, Option.bind_some]
  exact DirEntry.mem_files_iff (.directory entries) names (h.below hat).1

/-- Entries below which the same places are files have the same files, up to their order. -/
theorem perm_filesOf {fs' : FileSystem} {entries' : List (Text × DirEntry)} {l : Location}
    (h : fs.Sound) (h' : fs'.Sound) (hat : fs.at? l = some (.directory entries))
    (hat' : fs'.at? l = some (.directory entries'))
    (hsame : ∀ names, (fs'.fileAt? (l ++ names)).isSome = (fs.fileAt? (l ++ names)).isSome) :
    (filesOf entries').Perm (filesOf entries) := by
  refine (List.perm_ext_iff_of_nodup (DirEntry.nodup_files (h'.below hat').1)
    (DirEntry.nodup_files (h.below hat).1)).mpr fun names => ?_
  rw [DirEntry.files, DirEntry.files, mem_filesOf_iff_isSome h' hat',
    mem_filesOf_iff_isSome h hat, hsame]

/-- A listed path is the relative path of a file below the directory. -/
theorem mem_listFiles_iff (h : fs.Sound) {paths : List Path}
    (hlist : fs.listFiles directory = .ok paths)
    (hdir : fs.isDirectory directory.text = true) {r : Path} :
    r ∈ paths ↔ ∃ names, r = relativePath names ∧
      (fs.fileAt? (placeOf fs.workingDirectory directory.text ++ names)).isSome := by
  obtain ⟨entries, hat⟩ :=
    faceAt?_eq_directory_iff.mp ((isDirectory_iff h.linkFree).mp hdir).2
  obtain rfl : _ = paths := Except.ok.inj ((listFiles_eq_ok h hdir hat).symm.trans hlist)
  simp only [List.mem_map, mem_filesOf_iff_isSome h hat]
  exact exists_congr fun names => and_comm.trans (and_congr_left' eq_comm)

/-! ## Names without backslashes -/

/-- Whether no name anywhere holds a backslash. -/
def NoBackslash (fs : FileSystem) : Prop :=
  ∀ l, fs.faceAt? l ≠ none → ∀ name ∈ l, '\\' ∉ name

theorem noBackslash_of_lacksBackslash
    (h : DirEntry.lacksBackslash (.directory fs.root) = true) : fs.NoBackslash := by
  intro l hface
  apply DirEntry.not_mem_of_lacksBackslash h (l := l)
  simpa [faceAt?, at?] using hface

/-- Names without backslashes are read back from the relative path that they spell. -/
theorem names_relativePath {names : Location} (hne : names ≠ [])
    (h : ∀ name ∈ names, ProperName name) (hb : ∀ name ∈ names, '\\' ∉ name) :
    (relativePath names).names = names := by
  have hjoin : '\\' ∉ Text.join ['/'] names := Text.not_mem_join (by decide) hb
  rw [Path.names, relativePath, Path.ofText_text hjoin]
  exact Text.splitAt_join hne fun name hname => (h name hname).2.2.2

/-! ## Files below a directory -/

/-- Whether names lead from a place down to a file. -/
def FileBelow (fs : FileSystem) (l names : Location) : Prop :=
  (fs.fileAt? (l ++ names)).isSome

namespace FileBelow

variable {l names : Location} (hfile : fs.FileBelow l names)

include hfile

theorem faceAt?_ne_none : fs.faceAt? (l ++ names) ≠ none := by
  obtain ⟨content, hcontent⟩ := Option.isSome_iff_exists.mp hfile
  simp [fileAt?_eq_some_iff.mp hcontent]

theorem ne_nil (hdir : fs.faceAt? l = some .directory) : names ≠ [] := by
  intro heq
  obtain ⟨content, hcontent⟩ := Option.isSome_iff_exists.mp hfile
  rw [heq, List.append_nil, fileAt?_eq_some_iff, hdir] at hcontent
  simp at hcontent

theorem proper (h : fs.Sound) : ∀ name ∈ names, ProperName name := fun name hname =>
  properName_of_mem h.regular hfile.faceAt?_ne_none name (List.mem_append_right _ hname)

theorem noBackslash (hb : fs.NoBackslash) : ∀ name ∈ names, '\\' ∉ name := fun name hname =>
  hb _ hfile.faceAt?_ne_none name (List.mem_append_right _ hname)

theorem relativePath_text (hb : fs.NoBackslash) :
    (relativePath names).text = Text.join ['/'] names :=
  Path.ofText_text (Text.not_mem_join (by decide) (hfile.noBackslash hb))

/-- The names that lead down to a file are read back from its relative path. -/
theorem names_relativePath (h : fs.Sound) (hb : fs.NoBackslash)
    (hdir : fs.faceAt? l = some .directory) : (relativePath names).names = names :=
  FileSystem.names_relativePath (hfile.ne_nil hdir) (hfile.proper h) (hfile.noBackslash hb)

theorem plain (h : fs.Sound) (hb : fs.NoBackslash) (hdir : fs.faceAt? l = some .directory) :
    (relativePath names).Plain := by
  rw [Path.Plain, hfile.names_relativePath h hb hdir]
  exact hfile.proper h

end FileBelow

/-- Without backslashes in names, different files have different relative paths. -/
theorem nodup_relativePaths (h : fs.Sound) (hb : fs.NoBackslash) {l : Location}
    (hat : fs.at? l = some (.directory entries)) : ((filesOf entries).map relativePath).Nodup := by
  have hback : ∀ names ∈ filesOf entries, (relativePath names).names = names := by
    intro names hnames
    have hfile : fs.FileBelow l names := (mem_filesOf_iff_isSome h hat).mp hnames
    exact hfile.names_relativePath h hb (faceAt?_eq_directory_iff.mpr ⟨entries, hat⟩)
  refine List.Nodup.map_on (fun names hnames other hother heq => ?_)
    (DirEntry.nodup_files (h.below hat).1)
  rw [← hback names hnames, ← hback other hother, heq]

end FileSystem

end LayeredConfig
