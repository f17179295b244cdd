import LayeredConfig.FileSystem.Basic
import LayeredConfig.Proofs.Entries

/-!
# What stands at each place

A file system is seen here as a function from places to faces: a file with its content, a link, a
directory, or nothing.  The entries of a directory are no part of its face, so that a change at
one place shows at that place only.  Main statements:

* `faceAt?_put` — filling a free place of a directory, or one with a file in it, changes the face
  of that place and of no other;
* `faceAt?_of_append` — everything above an existing place is a directory;
* `erase_put`, `put_put` — what was put at a free place can be taken away again without a trace,
  and what is put twice is what was put last;
* `regular_put`, `linkFree_put` — filling keeps a file system well formed and without links.
-/

namespace LayeredConfig

/-- What an entry is, without what is below it. -/
inductive Face where
  | file (content : Bytes)
  | link (target : Text)
  | directory
  deriving DecidableEq

/-- The content of a file. -/
def Face.content? : Face → Option Bytes
  | file content => some content
  | _ => none

/-! ## Entries -/

namespace DirEntry

/-- The face of an entry. -/
def face : DirEntry → Face
  | file content => .file content
  | link target => .link target
  | directory _ => .directory

/-- The face of the entry at a place below an entry. -/
def faceAt? (location : Location) (entry : DirEntry) : Option Face :=
  (at? location entry).map face

@[simp] theorem at?_nil (entry : DirEntry) : at? [] entry = some entry := by
  cases entry <;> rfl

theorem at?_cons (name : Text) (names : Location) (entries : Directory) :
    at? (name :: names) (directory entries) = (Entries.get? name entries).bind (at? names) := by
  simp only [at?]
  cases Entries.get? name entries <;> rfl

theorem at?_append (l m : Location) (entry : DirEntry) :
    at? (l ++ m) entry = (at? l entry).bind (at? m) := by
  induction l generalizing entry with
  | nil => simp
  | cons name names ih =>
    cases entry with
    | file content => rfl
    | link target => rfl
    | directory entries =>
      rw [List.cons_append, at?_cons, at?_cons]
      cases Entries.get? name entries with
      | none => rfl
      | some inner => exact ih inner

/-- Whether nothing is below an entry. -/
def Leaf (entry : DirEntry) : Prop :=
  ∀ name names, at? (name :: names) entry = none

theorem leaf_file (content : Bytes) : Leaf (file content) := fun _ _ => rfl

theorem leaf_link (target : Text) : Leaf (link target) := fun _ _ => rfl

theorem leaf_nil : Leaf (directory []) := fun _ _ => rfl

theorem leaf_of_face_ne {entry : DirEntry} (h : entry.face ≠ .directory) : entry.Leaf := by
  cases entry with
  | file content => exact leaf_file content
  | link target => exact leaf_link target
  | directory entries => exact absurd rfl h

end DirEntry

/-! ## Putting and erasing below a directory -/

namespace Directory

open DirEntry (at? at?_cons)

variable {entries inner : Directory} {new : DirEntry} {name : Text}

theorem put_cons (new : DirEntry) (name : Text) {names : Location} (h : names ≠ [])
    (hget : Entries.get? name entries = some (.directory inner)) :
    put new (name :: names) entries =
      Entries.insert name (.directory (put new names inner)) entries := by
  cases names with
  | nil => exact absurd rfl h
  | cons next rest => simp only [put, hget]

theorem erase_cons (name : Text) {names : Location} (h : names ≠ [])
    (hget : Entries.get? name entries = some (.directory inner)) :
    erase (name :: names) entries =
      Entries.insert name (.directory (erase names inner)) entries := by
  cases names with
  | nil => exact absurd rfl h
  | cons next rest => simp only [erase, hget]

/-- The directory on the way to a place, one name down. -/
theorem exists_inner {names : Location}
    (h : at? (name :: names) (.directory entries) = some (.directory inner)) :
    ∃ next, Entries.get? name entries = some (.directory next) ∧
      at? names (.directory next) = some (.directory inner) := by
  rw [at?_cons] at h
  obtain ⟨next, hget, hat⟩ := Option.bind_eq_some_iff.mp h
  cases next with
  | directory next => exact ⟨next, hget, hat⟩
  | file content => cases names <;> simp [at?] at hat
  | link target => cases names <;> simp [at?] at hat

/-- Where an entry with nothing below it is put in place of one with nothing below it, only the
entry at that place is another one; directories on the way to it differ in what is below. -/
theorem faceAt?_put (hnew : new.Leaf) (dir : Location)
    (hdir : at? dir (.directory entries) = some (.directory inner))
    (hold : ∀ old, Entries.get? name inner = some old → old.Leaf) (l : Location) :
    DirEntry.faceAt? l (.directory (put new (dir ++ [name]) entries)) =
      if l = dir ++ [name] then some new.face
      else DirEntry.faceAt? l (.directory entries) := by
  induction dir generalizing entries l with
  | nil =>
    obtain rfl : entries = inner := by simpa using hdir
    cases l with
    | nil => rfl
    | cons n names =>
      simp only [DirEntry.faceAt?, List.nil_append, put, at?_cons, Entries.get?_insert]
      by_cases hn : name = n
      · subst hn
        cases names with
        | nil => simp
        | cons m names =>
          have hnone : ((Entries.get? name entries).bind (at? (m :: names))) = none := by
            cases hget : Entries.get? name entries with
            | none => rfl
            | some old => exact hold old hget m names
          simp [hnone, hnew m names]
      · rw [if_neg hn, if_neg (fun h => hn (List.cons.inj h).1.symm)]
  | cons d ds ih =>
    obtain ⟨next, hget, hat⟩ := exists_inner hdir
    rw [List.cons_append, put_cons new d (by simp) hget]
    cases l with
    | nil => rfl
    | cons n names =>
      simp only [DirEntry.faceAt?, at?_cons, Entries.get?_insert]
      by_cases hn : d = n
      · subst hn
        simpa [hget, DirEntry.faceAt?] using ih hat names
      · rw [if_neg hn, if_neg (fun h => hn (List.cons.inj h).1.symm)]

theorem put_put (first second : DirEntry) (dir : Location)
    (hdir : at? dir (.directory entries) = some (.directory inner)) :
    put second (dir ++ [name]) (put first (dir ++ [name]) entries) =
      put second (dir ++ [name]) entries := by
  induction dir generalizing entries with
  | nil => exact Entries.insert_insert name first second entries
  | cons d ds ih =>
    obtain ⟨next, hget, hat⟩ := exists_inner hdir
    rw [List.cons_append, put_cons first d (by simp) hget, put_cons second d (by simp) hget,
      put_cons second d (by simp) (Entries.get?_insert_self d _ entries),
      Entries.insert_insert, ih hat]

end Directory

/-! ## Well-formed entries -/

/-- What can be the name of an entry. -/
def ProperName (name : Text) : Prop :=
  name ≠ [] ∧ name ≠ ['.'] ∧ name ≠ ['.', '.'] ∧ '/' ∉ name

instance (name : Text) : Decidable (ProperName name) :=
  inferInstanceAs (Decidable (_ ∧ _))

namespace DirEntry

/-- Whether every directory at and below an entry lists proper names, each once and in order. -/
def Regular (entry : DirEntry) : Prop :=
  ∀ l entries, at? l entry = some (directory entries) →
    Entries.Increasing entries ∧ ∀ e ∈ entries, ProperName e.1

/-- Whether no entry at and below an entry is a link. -/
def LinkFree (entry : DirEntry) : Prop :=
  ∀ l target, at? l entry ≠ some (link target)

theorem regular_of_leaf {entry : DirEntry} (h : entry.Leaf)
    (hface : entry.face = .directory → entry = directory []) : entry.Regular := by
  intro l entries hat
  cases l with
  | nil =>
    obtain rfl : entry = directory entries := by simpa using hat
    obtain rfl := directory.inj (hface rfl)
    exact ⟨trivial, by simp⟩
  | cons name names => simp [h name names] at hat

theorem regular_directory_iff {entries : Directory} :
    Regular (directory entries) ↔
      Entries.Increasing entries ∧ ∀ e ∈ entries, ProperName e.1 ∧ Regular e.2 := by
  constructor
  · intro h
    have hhere := h [] entries rfl
    refine ⟨hhere.1, fun e he => ⟨hhere.2 e he, fun l below hat => h (e.1 :: l) below ?_⟩⟩
    rw [at?_cons, Entries.get?_of_mem hhere.1 he]
    exact hat
  · intro hlinkFree l below hat
    obtain ⟨hi, hbelow⟩ := hlinkFree
    cases l with
    | nil =>
      obtain rfl : entries = below := by simpa using hat
      exact ⟨hi, fun e he => (hbelow e he).1⟩
    | cons name names =>
      rw [at?_cons] at hat
      obtain ⟨entry, hget, hat⟩ := Option.bind_eq_some_iff.mp hat
      exact (hbelow _ (Entries.mem_of_get? hget)).2 names below hat

theorem linkFree_directory {entries : Directory} (h : ∀ e ∈ entries, LinkFree e.2) :
    LinkFree (directory entries) := by
  intro l target hat
  cases l with
  | nil => simp at hat
  | cons name names =>
    rw [at?_cons] at hat
    obtain ⟨entry, hget, hat⟩ := Option.bind_eq_some_iff.mp hat
    exact h _ (Entries.mem_of_get? hget) names target hat

theorem LinkFree.below {entries : Directory} (h : LinkFree (directory entries)) {name : Text}
    {entry : DirEntry} (hget : Entries.get? name entries = some entry) : LinkFree entry := by
  intro l target hat
  apply h (name :: l) target
  rw [at?_cons, hget]
  exact hat

end DirEntry

namespace Directory

open DirEntry (at? at?_cons regular_directory_iff)

variable {entries inner : Directory} {new : DirEntry} {name : Text}

theorem regular_put (hreg : DirEntry.Regular (.directory entries)) (hnew : new.Regular)
    (hname : ProperName name) (dir : Location)
    (hdir : at? dir (.directory entries) = some (.directory inner)) :
    DirEntry.Regular (.directory (put new (dir ++ [name]) entries)) := by
  induction dir generalizing entries with
  | nil =>
    obtain ⟨hi, hbelow⟩ := regular_directory_iff.mp hreg
    refine regular_directory_iff.mpr ⟨Entries.increasing_insert hi _ _, ?_⟩
    intro e hmem
    obtain ⟨k, value⟩ := e
    rcases Entries.mem_insert hmem with heq | hmem
    · obtain ⟨rfl, rfl⟩ := Prod.mk.inj heq
      exact ⟨hname, hnew⟩
    · exact hbelow _ hmem
  | cons d ds ih =>
    obtain ⟨next, hget, hat⟩ := exists_inner hdir
    obtain ⟨hi, hbelow⟩ := regular_directory_iff.mp hreg
    have hd := hbelow _ (Entries.mem_of_get? hget)
    rw [List.cons_append, put_cons new d (by simp) hget]
    refine regular_directory_iff.mpr ⟨Entries.increasing_insert hi _ _, ?_⟩
    intro e hmem
    obtain ⟨k, value⟩ := e
    rcases Entries.mem_insert hmem with heq | hmem
    · obtain ⟨rfl, rfl⟩ := Prod.mk.inj heq
      exact ⟨hd.1, ih hd.2 hat⟩
    · exact hbelow _ hmem

/-- What was put at a free place and is erased again leaves no trace. -/
theorem erase_put (hreg : DirEntry.Regular (.directory entries)) (dir : Location)
    (hdir : at? dir (.directory entries) = some (.directory inner))
    (hfree : Entries.get? name inner = none) (new : DirEntry) :
    erase (dir ++ [name]) (put new (dir ++ [name]) entries) = entries := by
  induction dir generalizing entries with
  | nil =>
    obtain rfl : entries = inner := by simpa using hdir
    exact Entries.erase_insert hfree new
  | cons d ds ih =>
    obtain ⟨next, hget, hat⟩ := exists_inner hdir
    obtain ⟨hi, hbelow⟩ := regular_directory_iff.mp hreg
    rw [List.cons_append, put_cons new d (by simp) hget,
      erase_cons d (by simp) (Entries.get?_insert_self d _ entries), Entries.insert_insert,
      ih (hbelow _ (Entries.mem_of_get? hget)).2 hat, Entries.insert_of_get? hi hget]

end Directory

/-! ## File systems -/

namespace FileSystem

variable {fs : FileSystem} {dir l m : Location} {name : Text} {new : DirEntry}

/-- The face of the entry at a place. -/
def faceAt? (location : Location) (fs : FileSystem) : Option Face :=
  (fs.at? location).map DirEntry.face

/-- The content of the file at a place. -/
def fileAt? (location : Location) (fs : FileSystem) : Option Bytes :=
  (fs.faceAt? location).bind Face.content?

/-- Whether every directory lists proper names, each once and in order. -/
def Regular (fs : FileSystem) : Prop :=
  DirEntry.Regular (.directory fs.root)

/-- Whether there is no link anywhere. -/
def LinkFree (fs : FileSystem) : Prop :=
  DirEntry.LinkFree (.directory fs.root)

theorem fileAt?_eq_some_iff {content : Bytes} :
    fs.fileAt? l = some content ↔ fs.faceAt? l = some (.file content) := by
  unfold fileAt?
  cases fs.faceAt? l with
  | none => simp
  | some face => cases face <;> simp [Face.content?]

theorem fileAt?_congr {fs' : FileSystem} (h : fs'.faceAt? l = fs.faceAt? l) :
    fs'.fileAt? l = fs.fileAt? l := by
  rw [fileAt?, fileAt?, h]

theorem at?_eq_file_iff {content : Bytes} :
    fs.at? l = some (.file content) ↔ fs.faceAt? l = some (.file content) := by
  unfold faceAt?
  cases fs.at? l with
  | none => simp
  | some entry => cases entry <;> simp [DirEntry.face]

theorem faceAt?_eq_directory_iff :
    fs.faceAt? l = some .directory ↔ ∃ entries, fs.at? l = some (.directory entries) := by
  unfold faceAt?
  cases fs.at? l with
  | none => simp
  | some entry => cases entry <;> simp [DirEntry.face]

@[simp] theorem faceAt?_nil (fs : FileSystem) : fs.faceAt? [] = some .directory := rfl

theorem faceAt?_ne_link (h : fs.LinkFree) (target : Text) :
    fs.faceAt? l ≠ some (.link target) := by
  unfold faceAt?
  cases hat : fs.at? l with
  | none => simp
  | some entry =>
    cases entry with
    | file content => simp [DirEntry.face]
    | link other => exact absurd hat (h l other)
    | directory entries => simp [DirEntry.face]

/-- Without links there is nothing, a file or a directory at a place. -/
theorem faceAt?_cases (h : fs.LinkFree) (l : Location) :
    fs.faceAt? l = none ∨ (∃ content, fs.faceAt? l = some (.file content)) ∨
      fs.faceAt? l = some .directory := by
  cases hface : fs.faceAt? l with
  | none => exact Or.inl rfl
  | some face =>
    cases face with
    | file content => exact Or.inr (Or.inl ⟨content, rfl⟩)
    | link target => exact absurd hface (faceAt?_ne_link h target)
    | directory => exact Or.inr (Or.inr rfl)

theorem at?_append (l m : Location) (fs : FileSystem) :
    fs.at? (l ++ m) = (fs.at? l).bind (DirEntry.at? m) :=
  DirEntry.at?_append l m _

theorem at?_concat {entries : Directory} (h : fs.at? dir = some (.directory entries))
    (name : Text) : fs.at? (dir ++ [name]) = Entries.get? name entries := by
  rw [at?_append, h, Option.bind_some, DirEntry.at?_cons]
  cases Entries.get? name entries <;> simp

/-- What has something below it is a directory. -/
theorem faceAt?_of_append (hm : m ≠ []) (h : fs.faceAt? (l ++ m) ≠ none) :
    fs.faceAt? l = some .directory := by
  obtain ⟨name, names, rfl⟩ := List.exists_cons_of_ne_nil hm
  unfold faceAt? at h ⊢
  rw [at?_append] at h
  cases hat : fs.at? l with
  | none => simp [hat] at h
  | some entry =>
    cases entry with
    | file content => simp [hat, DirEntry.at?] at h
    | link target => simp [hat, DirEntry.at?] at h
    | directory entries => rfl

theorem faceAt?_of_prefix (hpre : l <+: m) (hne : l ≠ m) (h : fs.faceAt? m ≠ none) :
    fs.faceAt? l = some .directory := by
  obtain ⟨rest, rfl⟩ := hpre
  exact faceAt?_of_append (fun hrest => hne (by simp [hrest])) h

/-- What is above a directory is a directory. -/
theorem faceAt?_dropLast (h : fs.faceAt? l = some .directory) :
    fs.faceAt? l.dropLast = some .directory := by
  by_cases hl : l = []
  · rw [hl] at h ⊢
    exact h
  · refine faceAt?_of_prefix (List.dropLast_prefix l) (fun heq => ?_) (by simp [h])
    have hlen := congrArg List.length heq
    have hpos := List.length_pos_iff.mpr hl
    rw [List.length_dropLast] at hlen
    omega

/-- Where an entry with nothing below it is put at a place of a directory that is no directory
itself, the face of that place changes and no other. -/
theorem faceAt?_put (hnew : new.Leaf) (hdir : fs.faceAt? dir = some .directory)
    (hold : fs.faceAt? (dir ++ [name]) ≠ some .directory) (l : Location) :
    (fs.put (dir ++ [name]) new).faceAt? l =
      if l = dir ++ [name] then some new.face else fs.faceAt? l := by
  obtain ⟨inner, hinner⟩ := faceAt?_eq_directory_iff.mp hdir
  refine Directory.faceAt?_put hnew dir hinner (fun old hget => ?_) l
  refine DirEntry.leaf_of_face_ne (fun hface => hold ?_)
  rw [faceAt?, at?_concat hinner, hget, Option.map_some, hface]

theorem put_put (hdir : fs.faceAt? dir = some .directory) (first second : DirEntry) :
    (fs.put (dir ++ [name]) first).put (dir ++ [name]) second = fs.put (dir ++ [name]) second := by
  obtain ⟨inner, hinner⟩ := faceAt?_eq_directory_iff.mp hdir
  simp only [put, Directory.put_put first second dir hinner]

theorem erase_put (hreg : fs.Regular) (hdir : fs.faceAt? dir = some .directory)
    (hfree : fs.faceAt? (dir ++ [name]) = none) (new : DirEntry) :
    (fs.put (dir ++ [name]) new).erase (dir ++ [name]) = fs := by
  obtain ⟨inner, hinner⟩ := faceAt?_eq_directory_iff.mp hdir
  have hget : Entries.get? name inner = none := by
    simpa [faceAt?, at?_concat hinner] using hfree
  simp only [put, erase, Directory.erase_put hreg dir hinner hget]

theorem regular_put (hreg : fs.Regular) (hnew : new.Regular) (hname : ProperName name)
    (hdir : fs.faceAt? dir = some .directory) : (fs.put (dir ++ [name]) new).Regular := by
  obtain ⟨inner, hinner⟩ := faceAt?_eq_directory_iff.mp hdir
  exact Directory.regular_put hreg hnew hname dir hinner

theorem linkFree_iff : fs.LinkFree ↔ ∀ l target, fs.faceAt? l ≠ some (.link target) := by
  refine ⟨fun h l target => faceAt?_ne_link h target, fun h l target hat => h l target ?_⟩
  rw [faceAt?, at?, hat]
  rfl

theorem linkFree_put (hlf : fs.LinkFree) (hnew : new.Leaf) (hface : ∀ target, new ≠ .link target)
    (hdir : fs.faceAt? dir = some .directory)
    (hold : fs.faceAt? (dir ++ [name]) ≠ some .directory) :
    (fs.put (dir ++ [name]) new).LinkFree := by
  refine linkFree_iff.mpr (fun l target => ?_)
  rw [faceAt?_put hnew hdir hold]
  split_ifs with hl
  · cases new with
    | file content => simp [DirEntry.face]
    | link other => exact absurd rfl (hface other)
    | directory entries => simp [DirEntry.face]
  · exact faceAt?_ne_link hlf target

end FileSystem

end LayeredConfig
