import LayeredConfig.Proofs.FileSystem.Listing
import LayeredConfig.Proofs.Model.Precedence

/-!
# Finding every model file

Where there are no links and no names with backslashes, every file below a model directory is found
once, under the relative path that leads back to it.  Model directories may lie in each other, and
one may be given twice: each position among them stands for itself.

* `FileSystem.listFiles_complete` — a directory is listed with the relative path of each file below
  it, and each path once;
* `ModelFile.discover_eq_missing_iff` — the first root that is no directory is named;
* `ModelFile.pairwise_before_ordered` — no two of the files that are found have one place in the
  order of precedence;
* **`ModelFile.discover_complete`** — the files of all roots are found, each once and in order, and
  files can be selected before they are put in order as well as after.
-/

namespace LayeredConfig

namespace FileSystem

variable {fs : FileSystem} {root relative : Path} {names : Location}

/-! ## Files below a directory -/

/-- **A directory is listed completely.**  Its files are listed by their relative paths, and no path
is listed twice. -/
theorem listFiles_complete (h : fs.Sound) (hb : fs.NoBackslash)
    (hdir : fs.isDirectory root.text = true) :
    ∃ paths, fs.listFiles root = .ok paths ∧ paths.Nodup ∧
      ∀ relative, relative ∈ paths ↔ ∃ names, relative = relativePath names ∧
        fs.FileBelow (placeOf fs.workingDirectory root.text) names := by
  have henters := enters_of_isDirectory h.linkFree hdir
  obtain ⟨entries, hat⟩ := faceAt?_eq_directory_iff.mp henters.directory
  have hlist := listFiles_eq_ok h hdir hat
  exact ⟨_, hlist, nodup_relativePaths h hb hat, fun relative => mem_listFiles_iff h hlist hdir⟩

/-- The relative path of a file joins back to the file. -/
theorem FileBelow.locate_join
    (hfile : fs.FileBelow (placeOf fs.workingDirectory root.text) names) (h : fs.Sound)
    (hb : fs.NoBackslash) (hdir : fs.Enters root.text) :
    fs.locate (root.join (relativePath names).text).text =
      .ok (placeOf fs.workingDirectory root.text ++ names) := by
  have hne := hfile.ne_nil hdir.directory
  have hproper := hfile.proper h
  rw [(hfile.plain h hb hdir.directory).join_eq_below,
    hfile.names_relativePath h hb hdir.directory, locate_eq_ok_iff h.linkFree,
    reaches_below_iff hne hproper hdir]
  exact ⟨hfile.faceAt?_ne_none, (Path.placeOf_below hne hproper _ _).symm⟩

end FileSystem

namespace ModelFile

open FileSystem (placeOf relativePath)

variable {fs : FileSystem} {roots : List Path} {file : ModelFile} {names : Location}
  {position : Nat} {path : Text}

/-! ## Missing directories -/

/-- The first root that is no directory is named. -/
theorem discover_eq_missing_iff :
    discover roots fs = .error (.modelDirectoryNotFound path) ↔
      ∃ front root back, roots = front ++ root :: back ∧
        (∀ earlier ∈ front, fs.isDirectory earlier.text = true) ∧
        fs.isDirectory root.text = false ∧ root.text = path := by
  have hmissing : (∃ root, roots.find? (fun root => !fs.isDirectory root.text) = some root ∧
      root.text = path) ↔ ∃ front root back, roots = front ++ root :: back ∧
        (∀ earlier ∈ front, fs.isDirectory earlier.text = true) ∧
        fs.isDirectory root.text = false ∧ root.text = path := by
    simp only [List.find?_eq_some_iff_append, Bool.not_eq_true', Bool.not_not]
    constructor
    · rintro ⟨root, ⟨hroot, front, back, hsplit, hfront⟩, hpath⟩
      exact ⟨front, root, back, hsplit, hfront, hroot, hpath⟩
    · rintro ⟨front, root, back, hsplit, hfront, hroot, hpath⟩
      exact ⟨root, ⟨hroot, front, back, hsplit, hfront⟩, hpath⟩
  rw [← hmissing, discover]
  split_ifs with hne
  · simp [hne]
  cases roots.find? fun root => !fs.isDirectory root.text with
  | some missing => simp
  | none =>
    refine iff_of_false (fun herror => ?_) (by simp)
    obtain ⟨cause, hcause⟩ := belowAll_error (Except.map_eq_error_iff.mp herror)
    simp at hcause

theorem exists_missing_iff :
    (∃ path, discover roots fs = .error (.modelDirectoryNotFound path)) ↔
      ∃ root ∈ roots, fs.isDirectory root.text = false := by
  simp only [discover_eq_missing_iff]
  constructor
  · rintro ⟨path, front, root, back, rfl, -, hroot, -⟩
    exact ⟨root, by simp, hroot⟩
  · rintro ⟨root, hmem, hroot⟩
    have hsome : (roots.find? fun root => !fs.isDirectory root.text).isSome :=
      List.find?_isSome.mpr ⟨root, hmem, by simp [hroot]⟩
    obtain ⟨first, hfirst⟩ := Option.isSome_iff_exists.mp hsome
    obtain ⟨hnot, front, back, hsplit, hfront⟩ := List.find?_eq_some_iff_append.mp hfirst
    exact ⟨first.text, front, first, back, hsplit, by simpa using hfront, by simpa using hnot, rfl⟩

/-! ## The files of all roots -/

/-- Names that lead from the root of a model file down to the file.  The relative path of the file
spells them, and joined to the root it leads to the file. -/
structure Leads (fs : FileSystem) (file : ModelFile) (names : Location) : Prop where
  isFile : fs.FileBelow (placeOf fs.workingDirectory file.root.text) names
  spelled : file.relative.text = Text.join ['/'] names
  joined : fs.locate file.path.text = .ok (placeOf fs.workingDirectory file.root.text ++ names)

/-- The files below some roots.  Each of them stands once at the position of its root, in the order
of precedence. -/
structure Complete (roots : List Path) (fs : FileSystem) (placed : List Placed) : Prop where
  inOrder : placed.Pairwise Before
  once : placed.Nodup
  isBelow : ∀ p ∈ placed, roots[p.1]? = some p.2.root ∧ ∃ names, Leads fs p.2 names
  found : ∀ position root names, roots[position]? = some root →
    fs.FileBelow (placeOf fs.workingDirectory root.text) names →
    ∃! file, (position, file) ∈ placed ∧
      fs.locate file.path.text = .ok (placeOf fs.workingDirectory root.text ++ names)

/-- Relative paths that no listing holds twice give files that are not placed twice. -/
theorem nodup_placings (h : ∀ root ∈ roots, (listing root fs).Nodup) :
    (placings roots fs).Nodup := by
  refine List.nodup_flatMap.mpr ⟨fun root hroot => ?_, ?_⟩
  · refine List.Nodup.map (fun relative other heq => ?_) (h _ (List.fst_mem_of_mem_zipIdx hroot))
    simpa using heq
  · refine (List.pairwise_zipIdx roots).imp fun hlt p hp hp' => ?_
    obtain ⟨relative, -, rfl⟩ := List.mem_map.mp hp
    obtain ⟨relative', -, heq⟩ := List.mem_map.mp hp'
    exact absurd (Prod.mk.inj heq).1 (ne_of_gt hlt)

/-- Files that are not placed twice are strictly in the order of precedence. -/
theorem pairwise_before_ordered (h : (placings roots fs).Nodup) :
    (ordered roots fs).Pairwise Before := by
  have hnodup : (ordered roots fs).Nodup := (List.mergeSort_perm _ _).nodup_iff.mpr h
  refine ((pairwise_ordered roots fs).and hnodup).imp_of_mem ?_
  rintro a b ha hb ⟨hnot, hne⟩
  by_contra hbefore
  exact hne (eq_of_not_before (mem_ordered_iff.mp ha).1 (mem_ordered_iff.mp hb).1 hbefore hnot)

section Sound

variable (h : fs.Sound) (hb : fs.NoBackslash)

include h hb

theorem leads_iff (hdir : fs.isDirectory file.root.text = true) :
    Leads fs file names ↔
      fs.FileBelow (placeOf fs.workingDirectory file.root.text) names ∧
        file.relative = relativePath names := by
  have henters := FileSystem.enters_of_isDirectory h.linkFree hdir
  constructor
  · rintro ⟨hfile, hspelled, -⟩
    exact ⟨hfile, Path.ext_text (hspelled.trans (hfile.relativePath_text hb).symm)⟩
  · rintro ⟨hfile, hrelative⟩
    refine ⟨hfile, by rw [hrelative, hfile.relativePath_text hb], ?_⟩
    rw [ModelFile.path, hrelative]
    exact hfile.locate_join h hb henters

variable (hdirs : ∀ root ∈ roots, fs.isDirectory root.text = true)

include hdirs

theorem listed_iff_leads :
    Listed roots fs (position, file) ↔
      roots[position]? = some file.root ∧ ∃ names, Leads fs file names := by
  refine and_congr_right fun hroot => ?_
  have hdir := hdirs file.root (List.mem_of_getElem? hroot)
  obtain ⟨paths, hlist, -, hmem⟩ := FileSystem.listFiles_complete h hb hdir
  rw [← mem_listing_iff, listing_of_eq_ok hlist, hmem]
  simp only [leads_iff h hb hdir, and_comm]

/-- A file below a root is listed once for each position of the root: two listed files that lead to
one place have the same names, and the names spell the relative path. -/
theorem existsUnique_listed {root : Path} (hroot : roots[position]? = some root)
    (hfile : fs.FileBelow (placeOf fs.workingDirectory root.text) names) :
    ∃! file, Listed roots fs (position, file) ∧
      fs.locate file.path.text = .ok (placeOf fs.workingDirectory root.text ++ names) := by
  have hdir := hdirs root (List.mem_of_getElem? hroot)
  have hleads : Leads fs ⟨root, relativePath names⟩ names := (leads_iff h hb hdir).mpr ⟨hfile, rfl⟩
  refine ⟨⟨root, relativePath names⟩,
    ⟨(listed_iff_leads h hb hdirs).mpr ⟨hroot, names, hleads⟩, hleads.joined⟩, ?_⟩
  rintro ⟨root', relative⟩ ⟨hlisted, hlocate⟩
  obtain ⟨hroot', names', hleads'⟩ := (listed_iff_leads h hb hdirs).mp hlisted
  obtain rfl : root = root' := Option.some.inj (hroot.symm.trans hroot')
  have hplace := Except.ok.inj (hleads'.joined.symm.trans hlocate)
  obtain rfl : names' = names := List.append_cancel_left hplace
  obtain rfl : relative = relativePath names' := ((leads_iff h hb hdir).mp hleads').2
  rfl

theorem complete_ordered : Complete roots fs (ordered roots fs) := by
  have hnodup : (placings roots fs).Nodup := by
    refine nodup_placings fun root hroot => ?_
    obtain ⟨paths, hlist, hpaths, -⟩ := FileSystem.listFiles_complete h hb (hdirs root hroot)
    rwa [listing_of_eq_ok hlist]
  refine ⟨pairwise_before_ordered hnodup, (List.mergeSort_perm _ _).nodup_iff.mpr hnodup, ?_, ?_⟩
  · exact fun p hp => (listed_iff_leads h hb hdirs).mp (mem_ordered_iff.mp hp)
  · intro position root names hroot hfile
    simpa only [mem_ordered_iff] using existsUnique_listed h hb hdirs hroot hfile

end Sound

/-! ## Discovery -/

/-- Files can be selected before they are put in order as well as after. -/
theorem sort_select (rules : List Rule) (files : List ModelFile) :
    sort (select rules files) = select rules (sort files) :=
  (List.filter_mergeSort precedes_trans precedes_total _ files).symm

/-- **Discovery is complete and ordered.**  Without links and without backslashes in names,
discovery is refused for a missing directory exactly if some root is no directory, and the first
such root is named.  Otherwise the files below all roots are found: for each position among the
roots every file below the root at this position once, under the relative path that joins back to
it, and no others.  They are in the order of precedence, and it does not matter whether rules select
files before they are put in this order or after. -/
theorem discover_complete :
    (∀ (fs : FileSystem) (roots : List Path), fs.Sound → fs.NoBackslash → roots ≠ [] →
      ((∃ path, discover roots fs = .error (.modelDirectoryNotFound path)) ↔
        ∃ root ∈ roots, fs.isDirectory root.text = false) ∧
      (∀ path, discover roots fs = .error (.modelDirectoryNotFound path) ↔
        ∃ front root back, roots = front ++ root :: back ∧
          (∀ earlier ∈ front, fs.isDirectory earlier.text = true) ∧
          fs.isDirectory root.text = false ∧ root.text = path) ∧
      ((∀ root ∈ roots, fs.isDirectory root.text = true) →
        ∃ placed : List Placed, discover roots fs = .ok (placed.map Prod.snd) ∧
          Complete roots fs placed)) ∧
    ∀ rules files, sort (select rules files) = select rules (sort files) := by
  refine ⟨fun fs roots h hb hne => ⟨exists_missing_iff, fun path => discover_eq_missing_iff, ?_⟩,
    sort_select⟩
  intro hdirs
  refine ⟨ordered roots fs, discover_eq_ok_iff.mpr ⟨hne, hdirs, fun root hroot => ?_, rfl⟩,
    complete_ordered h hb hdirs⟩
  obtain ⟨paths, hlist, -⟩ := FileSystem.listFiles_complete h hb (hdirs root hroot)
  exact ⟨paths, hlist⟩

/-- A model directory with a file and with another model directory in it. -/
def nestedDirectories : FileSystem where
  root :=
    [("m".toList, .directory
      [("b.json".toList, .file []), ("x".toList, .directory [("a.json".toList, .file [])])])]
  workingDirectory := []

/-- The outer directory is given twice, and the inner one in between. -/
def nestedRoots : List Path :=
  ["m", "m/x", "m"].map fun root => Path.ofText root.toList

theorem discover_complete_nested :
    (nestedDirectories.Sound ∧ nestedDirectories.NoBackslash ∧ nestedRoots ≠ [] ∧
      ∀ root ∈ nestedRoots, nestedDirectories.isDirectory root.text = true) ∧
      ∃ placed : List Placed, discover nestedRoots nestedDirectories = .ok (placed.map Prod.snd) ∧
        Complete nestedRoots nestedDirectories placed := by
  have h : nestedDirectories.Sound := by decide
  have hb : nestedDirectories.NoBackslash := FileSystem.noBackslash_of_lacksBackslash (by decide)
  have hne : nestedRoots ≠ [] := List.cons_ne_nil _ _
  have hdirs : ∀ root ∈ nestedRoots, nestedDirectories.isDirectory root.text = true := by
    decide +kernel
  obtain ⟨-, -, hfound⟩ := discover_complete.1 nestedDirectories nestedRoots h hb hne
  exact ⟨⟨h, hb, hne, hdirs⟩, hfound hdirs⟩

end ModelFile

end LayeredConfig
