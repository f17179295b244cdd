import LayeredConfig.Proofs.FileSystem.Paths

/-!
# Ways that only lead down

Steps that never lead up stay at and below the place where they begin, so what becomes of them is
decided by that part of the tree.  Two file systems with entries of the same kinds there let the
same steps pass and refuse the others for the same reasons.  Main statements:

* `walkWith_congr` — such steps end in the same way in both file systems;
* `Open.of_end` — a way that is open in one of them is open in the other one if its end is there;
* `LeadsDown.readBytes_congr` — **what can not be read in one of them can not be read in the other
  one, with the same error**;
* `LeadsDown.readBytes_iff` — a file with the same content in both is read in both or in neither.
-/

namespace LayeredConfig

/-! ## Steps that lead down -/

/-- Whether no component of a path leads up. -/
def Path.Descends (p : Path) : Prop :=
  ['.', '.'] ∉ p.names

instance (p : Path) : Decidable p.Descends :=
  inferInstanceAs (Decidable (_ ∉ _))

namespace Step

theorem up_not_mem {p : Path} (h : p.Descends) : up ∉ ofPath p.text := by
  intro hmem
  obtain ⟨piece, hpiece, hstep⟩ := List.mem_filterMap.mp hmem
  unfold ofPiece? at hstep
  split_ifs at hstep with h1 h2 h3
  · simp at hstep
  · exact h (h3 ▸ hpiece)
  · simp at hstep

/-- Steps that do not lead up lead down some names. -/
theorem exists_names {steps : List Step} (hup : up ∉ steps) (here : Location) :
    ∃ names, steps.foldl next here = here ++ names := by
  induction steps generalizing here with
  | nil => exact ⟨[], by simp⟩
  | cons step rest ih =>
    obtain ⟨hstep, hrest⟩ := not_or.mp (mt List.mem_cons.mpr hup)
    obtain ⟨names, hnames⟩ := ih hrest (next here step)
    rw [List.foldl_cons, hnames]
    cases step with
    | stay => exact ⟨names, rfl⟩
    | up => exact absurd rfl hstep
    | down name => exact ⟨name :: names, by simp [next]⟩

end Step

namespace FileSystem

variable {fs fs' : FileSystem} {here : Location} {steps : List Step} {base : Path}
  {path relative : Text}

/-! ## Entries of the same kinds -/

/-- Whether two file systems have entries of the same kinds at a place and below it. -/
structure Alike (fs fs' : FileSystem) (here : Location) : Prop where
  none_iff : ∀ names, fs'.faceAt? (here ++ names) = none ↔ fs.faceAt? (here ++ names) = none
  directory_iff : ∀ names,
    fs'.faceAt? (here ++ names) = some .directory ↔ fs.faceAt? (here ++ names) = some .directory

namespace Alike

theorem below (h : Alike fs fs' here) (names : Location) : Alike fs fs' (here ++ names) where
  none_iff := fun more => by simpa only [List.append_assoc] using h.none_iff (names ++ more)
  directory_iff := fun more => by
    simpa only [List.append_assoc] using h.directory_iff (names ++ more)

theorem none_here (h : Alike fs fs' here) : fs'.faceAt? here = none ↔ fs.faceAt? here = none := by
  simpa using h.none_iff []

theorem directory_here (h : Alike fs fs' here) :
    fs'.faceAt? here = some .directory ↔ fs.faceAt? here = some .directory := by
  simpa using h.directory_iff []

theorem file_here (h : Alike fs fs' here) (hlf' : fs'.LinkFree) {content : Bytes}
    (hfile : fs.faceAt? here = some (.file content)) :
    ∃ content', fs'.faceAt? here = some (.file content') := by
  rcases faceAt?_cases hlf' here with hnone | hfile' | hdir
  · simp [h.none_here.mp hnone] at hfile
  · exact hfile'
  · simp [h.directory_here.mp hdir] at hfile

end Alike

/-! ## Walking down -/

variable {onLink onLink' : Location → Text → List Step → Except OsError Destination}
  {followLast : Bool}

theorem at?_eq_none_iff : fs.at? here = none ↔ fs.faceAt? here = none := by
  simp [faceAt?]

theorem walkWith_none (hnone : fs.faceAt? here = none) (hsteps : steps ≠ []) :
    walkWith onLink followLast fs.root here steps = .error .notFound := by
  obtain ⟨step, rest, rfl⟩ := List.exists_cons_of_ne_nil hsteps
  have hroot : DirEntry.at? here (.directory fs.root) = none := at?_eq_none_iff.mpr hnone
  simp [walkWith, hroot]

/-- Steps that do not lead up end in the same way where the entries are of the same kinds. -/
theorem walkWith_congr (hlf : fs.LinkFree) (hlf' : fs'.LinkFree) (h : Alike fs fs' here)
    (hup : Step.up ∉ steps) :
    walkWith onLink' followLast fs'.root here steps =
      walkWith onLink followLast fs.root here steps := by
  induction steps generalizing here with
  | nil => rfl
  | cons step rest ih =>
    -- The kind of the entry reached so far decides, and after a name whether it is there.
    obtain ⟨hstep, hrest⟩ := not_or.mp (mt List.mem_cons.mpr hup)
    have hne : step :: rest ≠ [] := List.cons_ne_nil step rest
    rcases faceAt?_cases hlf here with hnone | ⟨content, hfile⟩ | hdir
    · rw [walkWith_none hnone hne, walkWith_none (h.none_here.mpr hnone) hne]
    · obtain ⟨content', hfile'⟩ := h.file_here hlf' hfile
      rw [walkWith_file hfile hne, walkWith_file hfile' hne]
    · have hdir' := h.directory_here.mpr hdir
      cases step with
      | up => exact absurd rfl hstep
      | stay =>
        rw [walkWith_cons hlf (open_stay_iff.mpr hdir),
          walkWith_cons hlf' (open_stay_iff.mpr hdir')]
        exact ih h hrest
      | down name =>
        by_cases hname : fs.faceAt? (here ++ [name]) = none
        · have hname' := (h.none_iff [name]).mpr hname
          by_cases hend : rest = []
          · rw [hend, walkWith_vacant hdir hname, walkWith_vacant hdir' hname']
          · rw [walkWith_missing hdir hname hend, walkWith_missing hdir' hname' hend]
        · have hopen : ∀ {files : FileSystem}, files.faceAt? here = some .directory →
              files.faceAt? (here ++ [name]) ≠ none → Open files here [.down name] :=
            fun hdir hname => ⟨hdir, fun other heq => Step.down.inj heq ▸ hname, trivial⟩
          rw [walkWith_cons hlf (hopen hdir hname),
            walkWith_cons hlf' (hopen hdir' (mt (h.none_iff [name]).mp hname))]
          exact ih (h.below [name]) hrest

/-- A way down that is open in one file system is open in another one if its end is there, and is a
directory if it has to be one. -/
theorem Open.of_end (h : Open fs' here steps) (hup : Step.up ∉ steps)
    (hend : fs.faceAt? (steps.foldl Step.next here) ≠ none)
    (hdir : fs'.faceAt? (steps.foldl Step.next here) = some .directory →
      fs.faceAt? (steps.foldl Step.next here) = some .directory) : Open fs here steps := by
  induction steps generalizing here with
  | nil => trivial
  | cons step rest ih =>
    -- Every place on the way is above the end or is the end itself.
    obtain ⟨hstep, hrest⟩ := not_or.mp (mt List.mem_cons.mpr hup)
    obtain ⟨hhere, hdown, hopen⟩ := h
    obtain ⟨names, hnames⟩ := Step.exists_names hrest (Step.next here step)
    refine ⟨?_, ?_, ih hopen hrest hend hdir⟩
    · cases step with
      | up => exact absurd rfl hstep
      | stay =>
        rw [List.foldl_cons, hnames, Step.next] at hend hdir
        cases names with
        | nil => simpa using hdir (by simpa using hhere)
        | cons name names => exact faceAt?_of_append (List.cons_ne_nil name names) hend
      | down name =>
        rw [List.foldl_cons, hnames, Step.next, List.append_assoc] at hend
        exact faceAt?_of_append (List.cons_ne_nil name names) hend
    · intro name hname
      subst hname
      rw [List.foldl_cons, hnames, Step.next] at hend
      cases names with
      | nil => simpa using hend
      | cons next names =>
        rw [faceAt?_of_append (List.cons_ne_nil next names) hend]
        simp

/-! ## Paths that lead down -/

/-- Whether a path leads where some steps lead from a base, none of them up. -/
structure LeadsDown (base : Path) (path : Text) (steps : List Step) : Prop where
  toEntry_eq : Step.toEntry path = Step.ofPath base.text ++ steps
  start_eq : ∀ wd, start wd path = start wd base.text
  up_not_mem : Step.up ∉ steps

/-- What is joined to a base leads down from it unless it leads up itself. -/
theorem exists_leadsDown (base : Path) (hb : '\\' ∉ relative)
    (hup : Step.up ∉ Step.ofPath relative) :
    ∃ steps, LeadsDown base (base.join relative).text steps := by
  have hstart := fun wd => Path.start_join wd base hb
  by_cases hslash : (base.join relative).text.getLast? = some '/'
  · refine ⟨Step.ofPath relative ++ [.stay], ?_, hstart, by simp [hup]⟩
    rw [Step.toEntry, if_pos hslash, Path.ofPath_join base hb, List.append_assoc]
  · refine ⟨Step.ofPath relative, ?_, hstart, hup⟩
    rw [Step.toEntry, if_neg hslash, Path.ofPath_join base hb]

namespace LeadsDown

/-- What leads down from a directory below a base leads down from the base. -/
theorem of_join {sub : Text} (h : LeadsDown (base.join sub) path steps) (hb : '\\' ∉ sub)
    (hup : Step.up ∉ Step.ofPath sub) : LeadsDown base path (Step.ofPath sub ++ steps) where
  toEntry_eq := by rw [h.toEntry_eq, Path.ofPath_join base hb, List.append_assoc]
  start_eq := fun wd => by rw [h.start_eq, Path.start_join wd base hb]
  up_not_mem := by simp [hup, h.up_not_mem]

theorem placeOf_eq (h : LeadsDown base path steps) (wd : Location) :
    placeOf wd path = steps.foldl Step.next (placeOf wd base.text) := by
  rw [placeOf, ← foldl_toEntry, h.toEntry_eq, h.start_eq, List.foldl_append]
  rfl

section Reading

variable (h : LeadsDown base path steps) (hlf : fs.LinkFree) (hlf' : fs'.LinkFree)
  (hwd : fs'.workingDirectory = fs.workingDirectory)

include h hlf hlf' hwd

theorem locate_congr (hbase : fs.Enters base.text) (hbase' : fs'.Enters base.text)
    (halike : Alike fs fs' (placeOf fs.workingDirectory base.text)) :
    fs'.locate path = fs.locate path := by
  obtain ⟨onLink, hwalk⟩ := walk_eq_walkWith true fs.root mostLinks
  obtain ⟨onLink', hwalk'⟩ := walk_eq_walkWith true fs'.root mostLinks
  have hopen' := hbase'.isOpen
  rw [hwd] at hopen'
  unfold locate follow
  rw [hwd, h.toEntry_eq, hwalk, hwalk', h.start_eq, walkWith_append hlf hbase.isOpen,
    walkWith_append hlf' hopen', ← placeOf, walkWith_congr hlf hlf' halike h.up_not_mem]

/-- **What can not be read is the same, with the same error.** -/
theorem readBytes_congr (hbase : fs.Enters base.text) (hbase' : fs'.Enters base.text)
    (halike : Alike fs fs' (placeOf fs.workingDirectory base.text))
    (hnone : fs.fileAt? (placeOf fs.workingDirectory path) = none) :
    fs'.readBytes path = fs.readBytes path := by
  unfold readBytes entry
  rw [h.locate_congr hlf hlf' hwd hbase hbase' halike]
  cases hl : fs.locate path with
  | error reason => rfl
  | ok l =>
    -- The same place is found, and it is a directory in both or in neither.
    obtain rfl := ((locate_eq_ok_iff hlf).mp hl).2
    obtain ⟨names, hnames⟩ := Step.exists_names h.up_not_mem (placeOf fs.workingDirectory base.text)
    have hnoneAt := halike.none_iff names
    have hdirAt := halike.directory_iff names
    rw [← hnames, ← h.placeOf_eq] at hnoneAt hdirAt
    rcases faceAt?_cases hlf (placeOf fs.workingDirectory path) with
      hface | ⟨content, hface⟩ | hface
    · simp only [at?_eq_none_iff.mpr hface, at?_eq_none_iff.mpr (hnoneAt.mpr hface)]
    · simp [fileAt?_eq_some_iff.mpr hface] at hnone
    · obtain ⟨entries, hat⟩ := faceAt?_eq_directory_iff.mp hface
      obtain ⟨entries', hat'⟩ := faceAt?_eq_directory_iff.mp (hdirAt.mpr hface)
      simp only [hat, hat']

/-- A file with the same content in both file systems is read in both or in neither. -/
theorem readBytes_iff (hkeeps : Keeps fs fs') (hbase : fs.Enters base.text)
    (hsame : fs'.fileAt? (placeOf fs.workingDirectory path) =
      fs.fileAt? (placeOf fs.workingDirectory path)) {content : Bytes} :
    fs'.readBytes path = .ok content ↔ fs.readBytes path = .ok content := by
  refine ⟨fun hread => ?_, fun hread => readBytes_of_keeps hlf hlf' hkeeps hread hsame⟩
  obtain ⟨⟨hne, hopen⟩, hfile⟩ := (readBytes_eq_ok_iff hlf').mp hread
  rw [hwd] at hopen hfile
  refine (readBytes_eq_ok_iff hlf).mpr ⟨⟨hne, ?_⟩, hsame ▸ hfile⟩
  rw [h.toEntry_eq, h.start_eq, open_append, ← placeOf] at hopen ⊢
  refine ⟨hbase.isOpen, hopen.2.of_end h.up_not_mem ?_ ?_⟩
  · rw [← h.placeOf_eq, fileAt?_eq_some_iff.mp (hsame ▸ hfile)]
    simp
  · rw [← h.placeOf_eq, fileAt?_eq_some_iff.mp hfile]
    simp

end Reading

end LeadsDown

end FileSystem

end LayeredConfig
