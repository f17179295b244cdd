import LayeredConfig.Proofs.Model.Precedence
import Mathlib.Data.List.Find
import Mathlib.Data.List.Perm.Basic

/-!
# What a compilation depends on

A compilation depends on which files are listed below the model directories and on what the selected
ones of them hold.  It does not depend on the order in which a directory is walked, nor on any file
that the rules reject: neither its result nor its error does.  Main statements:

* `ModelFile.discover_alike` — listings that differ in their order only give one order of
  precedence;
* `ModelFile.loadAll_first_failing` — several files fail to load with the error of the first of them
  that fails;
* **`Sources.compile_independent`** — two file systems that list the same files, and agree on the
  selected ones, give the same configuration or the same error, and the error is that of the first
  file in the order of precedence that can not be loaded.

A file that is listed twice under one root is one file, so nothing has to be assumed about links or
about names with backslashes.
-/

namespace LayeredConfig

namespace ModelFile

variable {fs fs' : FileSystem} {roots : List Path}

/-- Whether a model directory is missing on both sides, or its files are listed on both, in any
order. -/
def ListsAlike (fs fs' : FileSystem) (root : Path) : Prop :=
  fs'.isDirectory root.text = fs.isDirectory root.text ∧
    (fs.isDirectory root.text = true → ∃ files files', fs.listFiles root = .ok files ∧
      fs'.listFiles root = .ok files' ∧ files.Perm files')

/-! ## Finding files -/

/-- Listings that differ in their order only, one root after the other. -/
theorem placings_alike (h : ∀ root ∈ roots, ListsAlike fs fs' root)
    (hdir : ∀ root ∈ roots, fs.isDirectory root.text = true) :
    (placings roots fs).Perm (placings roots fs') := by
  refine List.Perm.flatMap_left _ fun root hroot => List.Perm.map _ ?_
  have hmem : root.1 ∈ roots := List.fst_mem_of_mem_zipIdx hroot
  obtain ⟨files, files', hfiles, hfiles', hsame⟩ := (h root.1 hmem).2 (hdir root.1 hmem)
  rwa [listing_of_eq_ok hfiles, listing_of_eq_ok hfiles']

/-- Files with the positions of their roots are sorted in one way only. -/
theorem ordered_alike (h : ∀ root ∈ roots, ListsAlike fs fs' root)
    (hdir : ∀ root ∈ roots, fs.isDirectory root.text = true) :
    ordered roots fs = ordered roots fs' := by
  have hperm : (ordered roots fs).Perm (ordered roots fs') :=
    (List.mergeSort_perm _ _).trans ((placings_alike h hdir).trans (List.mergeSort_perm _ _).symm)
  refine List.Perm.eq_of_pairwise (fun a b ha hb hba hab => ?_) (pairwise_ordered roots fs)
    (pairwise_ordered roots fs') hperm
  exact eq_of_not_before (mem_ordered_iff.mp ha).1 (mem_ordered_iff.mp hb).1 hab hba

/-- **The walk does not matter.**  Listings that differ in their order only give one order of
precedence, and the same directory is missing. -/
theorem discover_alike (h : ∀ root ∈ roots, ListsAlike fs fs' root) :
    discover roots fs' = discover roots fs := by
  have hfind : (roots.find? fun root => !fs'.isDirectory root.text) =
      roots.find? fun root => !fs.isDirectory root.text :=
    List.find?_congr fun root hroot => by rw [(h root hroot).1]
  rw [discover, discover, hfind]
  split_ifs
  · rfl
  cases hmissing : roots.find? fun root => !fs.isDirectory root.text with
  | some missing => rfl
  | none =>
    have hdir : ∀ root ∈ roots, fs.isDirectory root.text = true := by
      simpa using List.find?_eq_none.mp hmissing
    have hlists : ∀ root ∈ roots, ∃ files, fs.listFiles root = .ok files := by
      intro root hroot
      obtain ⟨files, -, hfiles, -⟩ := (h root hroot).2 (hdir root hroot)
      exact ⟨files, hfiles⟩
    have hlists' : ∀ root ∈ roots, ∃ files, fs'.listFiles root = .ok files := by
      intro root hroot
      obtain ⟨-, files', -, hfiles', -⟩ := (h root hroot).2 (hdir root hroot)
      exact ⟨files', hfiles'⟩
    rw [belowAll_eq_ok_iff.mpr ⟨hlists', rfl⟩, belowAll_eq_ok_iff.mpr ⟨hlists, rfl⟩]
    show Except.ok (sort _) = Except.ok (sort _)
    rw [← map_ordered, ← map_ordered, ordered_alike h hdir]

/-! ## Loading files -/

/-- Whether a file can be loaded, and what it holds, follows from its bytes. -/
theorem load_congr {file : ModelFile}
    (h : fs'.readBytes file.path.text = fs.readBytes file.path.text) :
    file.load fs' = file.load fs := by
  rw [load, load, FileSystem.readText, FileSystem.readText, h]

theorem loadAll_congr {files : List ModelFile} (h : ∀ file ∈ files, file.load fs' = file.load fs) :
    loadAll fs' files = loadAll fs files := by
  induction files with
  | nil => rfl
  | cons file files ih =>
    rw [loadAll, loadAll, h file List.mem_cons_self,
      ih fun other hother => h other (List.mem_cons_of_mem _ hother)]

/-- **The first file that fails decides the error.** -/
theorem loadAll_first_failing {files : List ModelFile}
    (h : ∃ file ∈ files, ∃ e, file.load fs = .error e) :
    ∃ front file back e, files = front ++ file :: back ∧
      (∀ earlier ∈ front, ∃ tree, earlier.load fs = .ok tree) ∧ file.load fs = .error e ∧
      loadAll fs files = .error e := by
  induction files with
  | nil => simp at h
  | cons file files ih =>
    cases hfile : file.load fs with
    | error e => exact ⟨[], file, files, e, rfl, by simp, hfile, by rw [loadAll, hfile]; rfl⟩
    | ok tree =>
      have hrest : ∃ other ∈ files, ∃ e, other.load fs = .error e := by
        obtain ⟨other, hother, e, he⟩ := h
        rcases List.mem_cons.mp hother with rfl | hother
        · simp [hfile] at he
        · exact ⟨other, hother, e, he⟩
      obtain ⟨front, failing, back, e, rfl, hfront, hfailing, hall⟩ := ih hrest
      refine ⟨file :: front, failing, back, e, rfl,
        List.forall_mem_cons.mpr ⟨⟨tree, hfile⟩, hfront⟩, hfailing, ?_⟩
      rw [loadAll, hfile]
      show (loadAll fs _ >>= fun trees => Except.ok (tree :: trees)) = _
      rw [hall]
      rfl

end ModelFile

namespace Sources

open ModelFile (Placed Before ListsAlike)

variable {sources : Sources} {fs fs' : FileSystem}

/-! ## Compiling -/

theorem selected_alike (h : ∀ root ∈ sources.roots, ListsAlike fs fs' root) :
    sources.selected fs' = sources.selected fs := by
  rw [selected, selected, ModelFile.discover_alike h]

/-- A selected file that comes before another one stands before it in the list. -/
theorem mem_front_of_before {front back : List Placed} {middle earlier : Placed}
    (horder : (front ++ middle :: back).Pairwise fun a b => ¬Before b a)
    (hmem : earlier ∈ front ++ middle :: back) (hbefore : Before earlier middle) :
    earlier ∈ front := by
  obtain ⟨-, hback, -⟩ := List.pairwise_append.mp horder
  rcases List.mem_append.mp hmem with hfront | hmem
  · exact hfront
  · rcases List.mem_cons.mp hmem with rfl | hmem
    · exact absurd hbefore (not_before_self earlier)
    · exact absurd hbefore ((List.pairwise_cons.mp hback).1 earlier hmem)

/-- The error of the first selected file that can not be loaded. -/
theorem compile_first_failing {files : List ModelFile} (hfiles : sources.selected fs = .ok files)
    (h : ∃ file ∈ files, ∃ e, file.load fs = .error e) :
    ∃ first e, sources.Selects fs first ∧ first.2.load fs = .error e ∧
      (∀ earlier, sources.Selects fs earlier → Before earlier first →
        ∃ tree, earlier.2.load fs = .ok tree) ∧ sources.compile fs = .error e := by
  obtain ⟨placed, rfl, horder, hmem⟩ := selected_placed hfiles
  obtain ⟨front, file, back, e, hsplit, hfront, hfile, hall⟩ := ModelFile.loadAll_first_failing h
  obtain ⟨before, rest, rfl, rfl, hrest⟩ := List.map_eq_append_iff.mp hsplit
  obtain ⟨first, after, rfl, rfl, rfl⟩ := List.map_eq_cons_iff.mp hrest
  refine ⟨first, e, (hmem first).mp (by simp), hfile, ?_, ?_⟩
  · intro earlier hselects hbefore
    have hearlier := mem_front_of_before horder ((hmem earlier).mpr hselects) hbefore
    exact hfront earlier.2 (List.mem_map_of_mem hearlier)
  · rw [compile, hfiles]
    show (ModelFile.loadAll fs _ >>= fun trees => Except.ok (Tree.merge trees)) = _
    rw [hall]
    rfl

/-- **What a compilation depends on.**  Two file systems on which every model directory is missing
or holds the same files, listed in any order, and which agree on the files that the rules select,
give the same configuration or the same error.  If a selected file can not be loaded, the error is
that of the first one in the order of precedence. -/
theorem compile_independent (hlists : ∀ root ∈ sources.roots, ListsAlike fs fs' root)
    (hreads : ∀ placed, sources.Selects fs placed →
      fs'.readBytes placed.2.path.text = fs.readBytes placed.2.path.text) :
    sources.compile fs' = sources.compile fs ∧
      ∀ files, sources.selected fs = .ok files →
        (∃ file ∈ files, ∃ e, file.load fs = .error e) →
          ∃ first e, sources.Selects fs first ∧ first.2.load fs = .error e ∧
            (∀ earlier, sources.Selects fs earlier → Before earlier first →
              ∃ tree, earlier.2.load fs = .ok tree) ∧ sources.compile fs = .error e := by
  refine ⟨?_, fun files => compile_first_failing⟩
  rw [compile, compile, selected_alike hlists]
  cases hfiles : sources.selected fs with
  | error e => rfl
  | ok files =>
    obtain ⟨placed, rfl, -, hmem⟩ := selected_placed hfiles
    have hload : ∀ file ∈ placed.map Prod.snd, file.load fs' = file.load fs := by
      intro file hfile
      obtain ⟨p, hp, rfl⟩ := List.mem_map.mp hfile
      exact ModelFile.load_congr (hreads p ((hmem p).mp hp))
    show (ModelFile.loadAll fs' _ >>= _) = (ModelFile.loadAll fs _ >>= _)
    rw [ModelFile.loadAll_congr hload]

/-! ### A directory walked in two orders -/

/-- A model directory with two files that can not be loaded, a list and a broken document, and with
a nested file.  The entries are walked in a given order. -/
def wellAndIll (nested : String) (order : Directory → Directory) : FileSystem where
  root :=
    [("m".toList, .directory (order
      [("a.json".toList, .file (Utf8.encode "[]".toList)),
        ("b.json".toList, .file (Utf8.encode "\x7b".toList)),
        ("x".toList, .directory [("c.json".toList, .file (Utf8.encode nested.toList))])]))]
  workingDirectory := []

/-- No rule selects the nested file. -/
def illSources : Sources := ⟨[Path.ofText "m".toList], []⟩

theorem listFiles_forwards : (wellAndIll "1" id).listFiles (Path.ofText "m".toList) =
    .ok [Path.ofText "a.json".toList, Path.ofText "b.json".toList,
      Path.ofText "x/c.json".toList] := by
  decide +kernel

theorem listsAlike_wellAndIll : ∀ root ∈ illSources.roots,
    ListsAlike (wellAndIll "1" id) (wellAndIll "2" List.reverse) root := by
  intro root hroot
  obtain rfl := List.mem_singleton.mp hroot
  refine ⟨by decide +kernel, fun _ => ⟨_, _, listFiles_forwards, (by decide +kernel :
    (wellAndIll "2" List.reverse).listFiles _ = .ok [Path.ofText "x/c.json".toList,
      Path.ofText "b.json".toList, Path.ofText "a.json".toList]), ?_⟩⟩
  exact (List.reverse_perm _).symm

theorem readBytes_wellAndIll : ∀ placed, illSources.Selects (wellAndIll "1" id) placed →
    (wellAndIll "2" List.reverse).readBytes placed.2.path.text =
      (wellAndIll "1" id).readBytes placed.2.path.text := by
  rintro ⟨position, root, relative⟩ ⟨⟨hroot, listing, hlisting, hrelative⟩, haccepts⟩
  obtain rfl := List.mem_singleton.mp (List.mem_of_getElem? hroot)
  obtain rfl := Except.ok.inj (listFiles_forwards.symm.trans hlisting)
  dsimp only at haccepts ⊢
  rcases (by simpa using hrelative : relative = _ ∨ relative = _ ∨ relative = _) with
    rfl | rfl | rfl
  · decide +kernel
  · decide +kernel
  · exact absurd haccepts (by decide +kernel)

theorem selected_wellAndIll : illSources.selected (wellAndIll "1" id) =
    .ok [⟨Path.ofText "m".toList, Path.ofText "a.json".toList⟩,
      ⟨Path.ofText "m".toList, Path.ofText "b.json".toList⟩] := by
  have hbelow : ModelFile.belowAll (wellAndIll "1" id) illSources.roots =
      .ok [⟨Path.ofText "m".toList, Path.ofText "a.json".toList⟩,
        ⟨Path.ofText "m".toList, Path.ofText "b.json".toList⟩,
        ⟨Path.ofText "m".toList, Path.ofText "x/c.json".toList⟩] := by
    decide +kernel
  rw [selected, ModelFile.discover, if_neg (by decide +kernel), hbelow,
    show illSources.roots.find? _ = none from by decide +kernel]
  show (Except.ok (ModelFile.sort _) >>= _) = _
  rw [ModelFile.sort, List.mergeSort_of_pairwise (by decide +kernel)]
  decide +kernel

theorem compile_independent_wellAndIll :
    (∀ root ∈ illSources.roots,
      ListsAlike (wellAndIll "1" id) (wellAndIll "2" List.reverse) root) ∧
    (∀ placed, illSources.Selects (wellAndIll "1" id) placed →
      (wellAndIll "2" List.reverse).readBytes placed.2.path.text =
        (wellAndIll "1" id).readBytes placed.2.path.text) ∧
    illSources.compile (wellAndIll "2" List.reverse) =
      illSources.compile (wellAndIll "1" id) ∧
    ∃ first e, illSources.Selects (wellAndIll "1" id) first ∧
      first.2.load (wellAndIll "1" id) = .error e ∧
      (∀ earlier, illSources.Selects (wellAndIll "1" id) earlier → Before earlier first →
        ∃ tree, earlier.2.load (wellAndIll "1" id) = .ok tree) ∧
      illSources.compile (wellAndIll "1" id) = .error e := by
  obtain ⟨hsame, hfirst⟩ := compile_independent listsAlike_wellAndIll readBytes_wellAndIll
  exact ⟨listsAlike_wellAndIll, readBytes_wellAndIll, hsame, hfirst _ selected_wellAndIll
    ⟨_, List.mem_cons_self, .modelParse "m/a.json".toList .topLevel, rfl⟩⟩

end Sources

end LayeredConfig
