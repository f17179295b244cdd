import LayeredConfig.Proofs.FileSystem.Ways
import Mathlib.Data.List.Induction

/-!
# Filling places

What is put into a file system is a file or an empty directory, and it is put where it fits: under
a proper name in a directory, where no directory stands.  Main statements:

* `becomes_put` — then the face of that place is the new one and all others are the old ones, and
  the file system stays well formed and without links;
* `Becomes.keeps` — a file system that only gains or replaces files keeps its open ways;
* `fits_of_file` — where a file stands another one fits.
-/

namespace LayeredConfig

/-- A file or an empty directory. -/
def DirEntry.Fresh (entry : DirEntry) : Prop :=
  entry = .directory [] ∨ ∃ content, entry = .file content

theorem DirEntry.fresh_file (content : Bytes) : DirEntry.Fresh (.file content) :=
  Or.inr ⟨content, rfl⟩

theorem DirEntry.fresh_nil : DirEntry.Fresh (.directory []) := Or.inl rfl

theorem DirEntry.Fresh.leaf {entry : DirEntry} (h : entry.Fresh) : entry.Leaf := by
  rcases h with rfl | ⟨content, rfl⟩
  · exact leaf_nil
  · exact leaf_file content

theorem DirEntry.Fresh.ne_link {entry : DirEntry} (h : entry.Fresh) (target : Text) :
    entry ≠ .link target := by
  rcases h with rfl | ⟨content, rfl⟩ <;> simp

theorem DirEntry.Fresh.regular {entry : DirEntry} (h : entry.Fresh) : entry.Regular := by
  refine regular_of_leaf h.leaf (fun hface => ?_)
  rcases h with rfl | ⟨content, rfl⟩
  · rfl
  · simp [face] at hface

/-! ## Soundness -/

namespace DirEntry

mutual

/-- Whether an entry is well formed and without links, as a computation. -/
def isSound : DirEntry → Bool
  | file _ => true
  | link _ => false
  | directory entries => decide (Entries.Increasing entries) && areSound entries

/-- Whether entries have proper names and are sound themselves. -/
def areSound : List (Text × DirEntry) → Bool
  | [] => true
  | (name, entry) :: rest => decide (ProperName name) && isSound entry && areSound rest

end

theorem areSound_iff_forall (entries : List (Text × DirEntry)) :
    areSound entries = true ↔ ∀ e ∈ entries, ProperName e.1 ∧ isSound e.2 = true := by
  induction entries with
  | nil => simp [areSound]
  | cons first rest ih =>
    obtain ⟨name, entry⟩ := first
    simp [areSound, ih, and_assoc]

theorem isSound_iff : ∀ entry : DirEntry, isSound entry = true ↔ entry.Regular ∧ entry.LinkFree
  | file content => by
    have hlf : LinkFree (file content) := by
      intro l target hat
      cases l with
      | nil => simp at hat
      | cons name names => simp [at?] at hat
    simp [isSound, regular_of_leaf (leaf_file content) (by simp [face]), hlf]
  | link target => by
    have hlf : ¬LinkFree (link target) := fun h => h [] target rfl
    simp [isSound, hlf]
  | directory entries => by
    have ih : ∀ e ∈ entries, (isSound e.2 = true ↔ e.2.Regular ∧ e.2.LinkFree) :=
      fun e _ => isSound_iff e.2
    rw [isSound, Bool.and_eq_true, decide_eq_true_iff, areSound_iff_forall, regular_directory_iff]
    constructor
    · intro hsound
      obtain ⟨hi, hall⟩ := hsound
      exact ⟨⟨hi, fun e he => ⟨(hall e he).1, ((ih e he).mp (hall e he).2).1⟩⟩,
        linkFree_directory fun e he => ((ih e he).mp (hall e he).2).2⟩
    · intro hsound
      obtain ⟨⟨hi, hall⟩, hlf⟩ := hsound
      exact ⟨hi, fun e he => ⟨(hall e he).1, (ih e he).mpr
        ⟨(hall e he).2, hlf.below (Entries.get?_of_mem hi he)⟩⟩⟩
termination_by entry => sizeOf entry
decreasing_by
  obtain ⟨name, inner⟩ := e
  have := List.sizeOf_lt_of_mem ‹_›
  simp only [Prod.mk.sizeOf_spec, directory.sizeOf_spec] at *
  omega

end DirEntry

namespace FileSystem

variable {fs fs' : FileSystem} {l : Location} {new : DirEntry} {faces : Location → Option Face}

/-- A well-formed file system without links. -/
structure Sound (fs : FileSystem) : Prop where
  regular : fs.Regular
  linkFree : fs.LinkFree

instance (fs : FileSystem) : Decidable fs.Sound :=
  decidable_of_iff (DirEntry.isSound (.directory fs.root) = true)
    ((DirEntry.isSound_iff _).trans ⟨fun h => ⟨h.1, h.2⟩, fun h => ⟨h.regular, h.linkFree⟩⟩)

/-- Whether a file or an empty directory can be put at a place. -/
def Fits (l : Location) (fs : FileSystem) : Prop :=
  ∃ dir name, l = dir ++ [name] ∧ ProperName name ∧
    fs.faceAt? dir = some .directory ∧ fs.faceAt? l ≠ some .directory

/-- A file system after a change: it is sound and shows given faces. -/
structure Becomes (fs fs' : FileSystem) (faces : Location → Option Face) : Prop where
  sound : fs'.Sound
  workingDirectory : fs'.workingDirectory = fs.workingDirectory
  face : ∀ l, fs'.faceAt? l = faces l

theorem Sound.becomes (h : fs.Sound) : Becomes fs fs fun l => fs.faceAt? l :=
  ⟨h, rfl, fun _ => rfl⟩

theorem becomes_put (h : fs.Sound) (hl : fs.Fits l) (hnew : new.Fresh) :
    Becomes fs (fs.put l new) fun m => if m = l then some new.face else fs.faceAt? m := by
  obtain ⟨dir, name, rfl, hname, hdir, hold⟩ := hl
  exact
    { sound := ⟨regular_put h.regular hnew.regular hname hdir,
        linkFree_put h.linkFree hnew.leaf hnew.ne_link hdir hold⟩
      workingDirectory := rfl
      face := faceAt?_put hnew.leaf hdir hold }

theorem Becomes.trans {fs'' : FileSystem} {faces' : Location → Option Face}
    (h : Becomes fs fs' faces) (h' : Becomes fs' fs'' faces') : Becomes fs fs'' faces' :=
  ⟨h'.sound, h'.workingDirectory.trans h.workingDirectory, h'.face⟩

theorem Becomes.congr {faces' : Location → Option Face} (h : Becomes fs fs' faces)
    (heq : ∀ l, faces l = faces' l) : Becomes fs fs' faces' :=
  ⟨h.sound, h.workingDirectory, fun l => (h.face l).trans (heq l)⟩

/-- The ways stay open if directories stay directories and nothing disappears. -/
theorem Becomes.keeps (h : Becomes fs fs' faces)
    (hkept : ∀ l, faces l = fs.faceAt? l ∨
      fs.faceAt? l ≠ some .directory ∧ faces l ≠ none) : Keeps fs fs' := by
  refine ⟨h.workingDirectory, fun l hl => ?_, fun l hl => ?_⟩
  · rw [h.face]
    rcases hkept l with heq | ⟨hne, -⟩
    · rw [heq, hl]
    · exact absurd hl hne
  · rw [h.face]
    rcases hkept l with heq | ⟨-, hne⟩
    · rwa [heq]
    · exact hne

theorem keeps_put (h : fs.Sound) (hl : fs.Fits l) (hnew : new.Fresh) :
    Keeps fs (fs.put l new) := by
  refine (becomes_put h hl hnew).keeps (fun m => ?_)
  by_cases hm : m = l
  · subst hm
    obtain ⟨dir, name, rfl, -, -, hold⟩ := hl
    exact Or.inr ⟨hold, by simp⟩
  · exact Or.inl (if_neg hm)

/-- The names in a well-formed file system are proper. -/
theorem properName_of_faceAt? (h : fs.Regular) {dir : Location} {name : Text}
    (hface : fs.faceAt? (dir ++ [name]) ≠ none) : ProperName name := by
  obtain ⟨entries, hat⟩ := faceAt?_eq_directory_iff.mp (faceAt?_of_append (by simp) hface)
  rw [faceAt?, at?_concat hat] at hface
  cases hget : Entries.get? name entries with
  | none => simp [hget] at hface
  | some entry => exact (h dir entries hat).2 _ (Entries.mem_of_get? hget)

theorem fits_of_file (h : fs.Regular) {content : Bytes} (hfile : fs.fileAt? l = some content) :
    fs.Fits l := by
  have hface := fileAt?_eq_some_iff.mp hfile
  have hl : l ≠ [] := by
    intro heq
    subst heq
    simp at hface
  obtain ⟨dir, name, rfl⟩ := List.eq_nil_or_concat' l |>.resolve_left hl
  have hne : fs.faceAt? (dir ++ [name]) ≠ none := by simp [hface]
  exact ⟨dir, name, rfl, properName_of_faceAt? h hne, faceAt?_of_append (by simp) hne,
    by simp [hface]⟩

/-- All the names down to a place in a well-formed file system are proper. -/
theorem properName_of_mem (h : fs.Regular) (hface : fs.faceAt? l ≠ none) :
    ∀ name ∈ l, ProperName name := by
  induction l using List.reverseRecOn with
  | nil => simp
  | append_singleton dir last ih =>
    intro name hname
    rcases List.mem_append.mp hname with hmem | hmem
    · have hdir := faceAt?_of_append (List.cons_ne_nil last []) hface
      exact ih (by simp [hdir]) name hmem
    · exact List.mem_singleton.mp hmem ▸ properName_of_faceAt? h hface

end FileSystem

end LayeredConfig
