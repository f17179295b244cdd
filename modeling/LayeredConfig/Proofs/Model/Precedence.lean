import LayeredConfig.Proofs.Model.SortedTrees
import Mathlib.Data.List.Pairwise

/-!
# Which model file decides a value

The model files of a configuration are taken in a fixed order: files with fewer slashes in their
relative path first, files of one depth in the order of the octets of that path, and files of one
relative path in the order of their roots (`ModelFile.Before`).  The listing knows nothing of this
order; it comes about by a stable sort of the listings, one root after the other.

* `List.pairwise_mergeSort_stable` — a stable sort keeps, among items that are equal in its order,
  whatever order the list had, so items can be taken from a list before or after it is sorted
  (`List.filter_mergeSort`);
* `ModelFile.discover_eq_ok_iff` — the files are found in the order `ModelFile.ordered` if all roots
  are directories that can be listed;
* `ModelFile.discover_placed`, `Sources.selected_placed` — the files in the order of precedence,
  with the positions of their roots: the same files that the listings hold, and none before one
  that it comes after;
* **`Sources.compile_scalar_iff`** — a scalar stands at a path of the configuration exactly if a
  selected file has it there and no selected file that comes later touches the path.

Nothing is assumed about the file system.  A relative path that a listing holds twice names one
file, and that file has one tree.
-/

namespace List

variable {α : Type}

/-- Items that are equal in the order of the sort keep the order of the list.  The items equal to
a given one are a sorted part of the list, so they are found again in the sorted list, and there
are no others in it. -/
theorem pairwise_mergeSort_stable {le : α → α → Bool} {R : α → α → Prop}
    (trans : ∀ a b c, le a b = true → le b c = true → le a c = true)
    (total : ∀ a b, (le a b || le b a) = true) {l : List α} (h : l.Pairwise R) :
    (l.mergeSort le).Pairwise fun a b => le a b = true ∧ (le b a = true → R a b) := by
  rw [List.pairwise_iff_forall_sublist]
  intro a b hab
  have hle : le a b = true :=
    List.pairwise_iff_forall_sublist.mp (List.pairwise_mergeSort trans total l) hab
  refine ⟨hle, fun hba => ?_⟩
  have hself : le a a = true := by simpa using total a a
  let same : α → Bool := fun x => le a x && le x a
  have hsorted : (l.filter same).Pairwise (fun x y => le x y = true) := by
    apply List.pairwise_of_forall_mem_list
    intro x hx y hy
    have hxa := (Bool.and_eq_true_iff.mp (List.mem_filter.mp hx).2).2
    have hay := (Bool.and_eq_true_iff.mp (List.mem_filter.mp hy).2).1
    exact trans x a y hxa hay
  have hfound : l.filter same <+ l.mergeSort le :=
    List.sublist_mergeSort trans total hsorted List.filter_sublist
  have hpart : l.filter same <+ (l.mergeSort le).filter same := by
    have hfilter := hfound.filter same
    rwa [List.filter_filter, show (fun x => same x && same x) = same from by
      funext x
      exact Bool.and_self _] at hfilter
  have hequal : l.filter same = (l.mergeSort le).filter same :=
    hpart.eq_of_length ((List.mergeSort_perm l le).filter same).length_eq.symm
  have hpair : [a, b] <+ l.filter same := by
    rw [hequal]
    have hfilter := hab.filter same
    rwa [List.filter_cons_of_pos (by simp [same, hself]),
      List.filter_cons_of_pos (by simp [same, hle, hba]), List.filter_nil] at hfilter
  exact List.pairwise_iff_forall_sublist.mp h (hpair.trans List.filter_sublist)

theorem pairwise_zipIdx (l : List α) : l.zipIdx.Pairwise fun a b => a.2 < b.2 := by
  rw [← List.pairwise_map (f := Prod.snd) (R := (· < ·)), List.zipIdx_map_snd]
  exact List.pairwise_lt_range' 1

/-- Items can be taken from a list before or after it is sorted.  With the positions in the list no
two items are equal in the order of the sort, so both ways give the one sorted list. -/
theorem filter_mergeSort {le : α → α → Bool}
    (trans : ∀ a b c, le a b = true → le b c = true → le a c = true)
    (total : ∀ a b, (le a b || le b a) = true) (p : α → Bool) (l : List α) :
    (l.mergeSort le).filter p = (l.filter p).mergeSort le := by
  let le' : α × Nat → α × Nat → Bool := fun a b => le a.1 b.1
  let p' : α × Nat → Bool := p ∘ Prod.fst
  have hpos := pairwise_zipIdx l
  have hstable : ∀ items : List (α × Nat), (items.Pairwise fun a b => a.2 < b.2) →
      (items.mergeSort le').Pairwise fun a b => le' a b = true ∧ (le' b a = true → a.2 < b.2) :=
    fun items => pairwise_mergeSort_stable (fun a b c => trans a.1 b.1 c.1)
      fun a b => total a.1 b.1
  have hsame : (l.zipIdx.mergeSort le').filter p' = (l.zipIdx.filter p').mergeSort le' := by
    refine List.Perm.eq_of_pairwise (fun a b _ _ hab hba => ?_) ((hstable _ hpos).filter p')
      (hstable _ (hpos.filter p')) ?_
    · exact absurd (hab.2 hba.1) (lt_asymm (hba.2 hab.1))
    · exact ((List.mergeSort_perm _ _).filter p').trans (List.mergeSort_perm _ _).symm
  have hmap : ∀ items : List (α × Nat),
      (items.mergeSort le').map Prod.fst = (items.map Prod.fst).mergeSort le :=
    fun items => List.map_mergeSort fun _ _ _ _ => rfl
  calc (l.mergeSort le).filter p
      = ((l.zipIdx.mergeSort le').map Prod.fst).filter p := by rw [hmap, List.zipIdx_map_fst]
    _ = ((l.zipIdx.filter p').mergeSort le').map Prod.fst := by rw [List.filter_map, hsame]
    _ = (l.filter p).mergeSort le := by rw [hmap, ← List.filter_map, List.zipIdx_map_fst]

end List

namespace LayeredConfig

namespace ModelFile

/-- A model file together with the position of its root among the model directories. -/
abbrev Placed := Nat × ModelFile

/-- The order of precedence: depth, then the octets of the relative path, then the root. -/
def Before (a b : Placed) : Prop :=
  a.2.depth < b.2.depth ∨
    a.2.depth = b.2.depth ∧
      (Utf8.encode a.2.relative.text < Utf8.encode b.2.relative.text ∨
        a.2.relative = b.2.relative ∧ a.1 < b.1)

theorem precedes_iff {a b : ModelFile} :
    precedes a b = true ↔
      a.depth < b.depth ∨ a.depth = b.depth ∧ a.relative.text ≤ b.relative.text := by
  simp only [precedes, Bool.or_eq_true, Bool.and_eq_true, decide_eq_true_eq, beq_iff_eq,
    Text.atMost_iff_le]

theorem precedes_trans (a b c : ModelFile) (hab : precedes a b = true)
    (hbc : precedes b c = true) : precedes a c = true := by
  rw [precedes_iff] at hab hbc ⊢
  rcases hab with hab | ⟨hab, hab'⟩ <;> rcases hbc with hbc | ⟨hbc, hbc'⟩
  · exact Or.inl (by omega)
  · exact Or.inl (by omega)
  · exact Or.inl (by omega)
  · exact Or.inr ⟨by omega, le_trans hab' hbc'⟩

theorem precedes_total (a b : ModelFile) : (precedes a b || precedes b a) = true := by
  rw [Bool.or_eq_true, precedes_iff, precedes_iff]
  rcases Nat.lt_trichotomy a.depth b.depth with hd | hd | hd
  · exact Or.inl (Or.inl hd)
  · rcases le_total a.relative.text b.relative.text with hle | hle
    · exact Or.inl (Or.inr ⟨hd, hle⟩)
    · exact Or.inr (Or.inr ⟨hd.symm, hle⟩)
  · exact Or.inr (Or.inl hd)

/-- What a stable sort says about two files, in terms of the order of precedence. -/
theorem not_before_of_precedes {a b : Placed} (hle : precedes a.2 b.2 = true)
    (hstable : precedes b.2 a.2 = true → a.1 ≤ b.1) : ¬Before b a := by
  rw [precedes_iff] at hle
  intro hbefore
  rcases hbefore with hd | ⟨hd, hlt | ⟨heq, hpos⟩⟩
  · rcases hle with hle | ⟨hle, -⟩ <;> omega
  · rw [Utf8.encode_lt_encode] at hlt
    rcases hle with hle | ⟨-, hle⟩
    · omega
    · exact absurd hlt (not_lt.mpr hle)
  · have hback : precedes b.2 a.2 = true := precedes_iff.mpr (Or.inr ⟨hd, le_of_eq (heq ▸ rfl)⟩)
    have := hstable hback
    omega

/-- Files that do not come one before the other have one relative path and one root. -/
theorem same_of_not_before {a b : Placed} (hab : ¬Before a b) (hba : ¬Before b a) :
    a.1 = b.1 ∧ a.2.relative = b.2.relative := by
  have hd : a.2.depth = b.2.depth := by
    by_contra hne
    rcases Nat.lt_or_gt_of_ne hne with hlt | hlt
    · exact hab (Or.inl hlt)
    · exact hba (Or.inl hlt)
  rcases lt_trichotomy a.2.relative.text b.2.relative.text with hlt | heq | hlt
  · exact absurd (Or.inr ⟨hd, Or.inl (Utf8.encode_lt_encode.mpr hlt)⟩) hab
  · have hrel : a.2.relative = b.2.relative := Path.ext_text heq
    refine ⟨?_, hrel⟩
    by_contra hne
    rcases Nat.lt_or_gt_of_ne hne with hpos | hpos
    · exact hab (Or.inr ⟨hd, Or.inr ⟨hrel, hpos⟩⟩)
    · exact hba (Or.inr ⟨hd.symm, Or.inr ⟨hrel.symm, hpos⟩⟩)
  · exact absurd (Or.inr ⟨hd.symm, Or.inl (Utf8.encode_lt_encode.mpr hlt)⟩) hba

/-- Of the files whose roots stand at their positions no two have one place in the order. -/
theorem eq_of_not_before {roots : List Path} {a b : Placed} (ha : roots[a.1]? = some a.2.root)
    (hb : roots[b.1]? = some b.2.root) (hab : ¬Before a b) (hba : ¬Before b a) : a = b := by
  obtain ⟨hpos, hrel⟩ := same_of_not_before hab hba
  rw [← hpos, ha] at hb
  obtain ⟨position, root, relative⟩ := a
  obtain ⟨position', root', relative'⟩ := b
  obtain rfl : position = position' := hpos
  obtain rfl : relative = relative' := hrel
  obtain rfl : root = root' := Option.some.inj hb
  rfl

/-- A file that the listing of its root holds, where the root stands at a position. -/
def Listed (roots : List Path) (fs : FileSystem) (placed : Placed) : Prop :=
  roots[placed.1]? = some placed.2.root ∧
    ∃ relatives, fs.listFiles placed.2.root = .ok relatives ∧ placed.2.relative ∈ relatives

/-- What the listing of a root holds; nothing if there is no listing. -/
def listing (root : Path) (fs : FileSystem) : List Path :=
  (fs.listFiles root).toOption.getD []

theorem listing_of_eq_ok {root : Path} {fs : FileSystem} {relatives : List Path}
    (h : fs.listFiles root = .ok relatives) : listing root fs = relatives := by
  rw [listing, h]
  rfl

theorem mem_listing_iff {root relative : Path} {fs : FileSystem} :
    relative ∈ listing root fs ↔
      ∃ relatives, fs.listFiles root = .ok relatives ∧ relative ∈ relatives := by
  rw [listing]
  cases fs.listFiles root with
  | error e => simp [Except.toOption]
  | ok relatives => simp [Except.toOption]

/-- The listings of roots one after the other, each file with the position of its root. -/
def placings (roots : List Path) (fs : FileSystem) : List Placed :=
  roots.zipIdx.flatMap fun root =>
    (listing root.1 fs).map fun relative => (root.2, ⟨root.1, relative⟩)

section Placings

variable {roots : List Path} {fs : FileSystem} {files : List ModelFile} {p : Placed}

theorem mem_placings_iff : p ∈ placings roots fs ↔ Listed roots fs p := by
  obtain ⟨position, root, relative⟩ := p
  simp only [placings, Listed, List.mem_flatMap, List.mem_map, ← mem_listing_iff]
  constructor
  · rintro ⟨⟨root', position'⟩, hroot, relative', hrelative, heq⟩
    obtain ⟨rfl, hfile⟩ := Prod.mk.inj heq
    obtain ⟨rfl, rfl⟩ := ModelFile.mk.inj hfile
    exact ⟨List.mem_zipIdx_iff_getElem?.mp hroot, hrelative⟩
  · rintro ⟨hroot, hrelative⟩
    exact ⟨(root, position), List.mem_zipIdx_iff_getElem?.mpr hroot, relative, hrelative, rfl⟩

/-- The files of an earlier root stand before those of a later one. -/
theorem pairwise_placings (roots : List Path) (fs : FileSystem) :
    (placings roots fs).Pairwise fun a b => a.1 ≤ b.1 := by
  refine List.pairwise_flatMap.mpr ⟨fun root _ => ?_, ?_⟩
  · rw [List.pairwise_map]
    exact List.pairwise_of_forall fun _ _ => le_refl root.2
  · refine (List.pairwise_zipIdx roots).imp fun hlt a ha b hb => ?_
    obtain ⟨relative, -, rfl⟩ := List.mem_map.mp ha
    obtain ⟨relative', -, rfl⟩ := List.mem_map.mp hb
    exact le_of_lt hlt

theorem map_placings (roots : List Path) (fs : FileSystem) :
    (placings roots fs).map Prod.snd =
      roots.flatMap fun root => (listing root fs).map fun relative => ⟨root, relative⟩ := by
  conv_rhs => rw [← List.zipIdx_map_fst 0 roots, List.flatMap_map]
  rw [placings, List.map_flatMap]
  simp only [List.map_map, Function.comp_def]

theorem below_eq_ok_iff {root : Path} :
    below root fs = .ok files ↔
      ∃ relatives, fs.listFiles root = .ok relatives ∧
        relatives.map (fun relative => ⟨root, relative⟩) = files := by
  rw [below]
  cases fs.listFiles root with
  | error e => simp
  | ok relatives => simp

theorem belowAll_eq_ok_iff :
    belowAll fs roots = .ok files ↔
      (∀ root ∈ roots, ∃ relatives, fs.listFiles root = .ok relatives) ∧
        (placings roots fs).map Prod.snd = files := by
  rw [map_placings]
  induction roots generalizing files with
  | nil => simp [belowAll]
  | cons root roots ih =>
    rw [belowAll, Except.bind_eq_ok_iff, List.forall_mem_cons, List.flatMap_cons]
    constructor
    · rintro ⟨first, hfirst, hrest⟩
      obtain ⟨others, hothers, hfiles⟩ := Except.bind_eq_ok_iff.mp hrest
      obtain ⟨relatives, hlist, rfl⟩ := below_eq_ok_iff.mp hfirst
      obtain ⟨hlists, rfl⟩ := ih.mp hothers
      rw [listing_of_eq_ok hlist]
      exact ⟨⟨⟨relatives, hlist⟩, hlists⟩, Except.ok.inj hfiles⟩
    · rintro ⟨⟨⟨relatives, hlist⟩, hlists⟩, rfl⟩
      refine ⟨_, below_eq_ok_iff.mpr ⟨relatives, hlist, rfl⟩, ?_⟩
      rw [ih.mpr ⟨hlists, rfl⟩, listing_of_eq_ok hlist]
      rfl

/-- A listing that fails does so with an error of the file system. -/
theorem belowAll_error {e : Error} (h : belowAll fs roots = .error e) :
    ∃ cause, e = .file cause := by
  induction roots with
  | nil => simp [belowAll] at h
  | cons root roots ih =>
    rw [belowAll, Except.bind_eq_error_iff] at h
    rcases h with hfirst | ⟨first, -, hrest⟩
    · rw [below] at hfirst
      split at hfirst
      · next cause _ => exact ⟨cause, (Except.error.inj hfirst).symm⟩
      · simp at hfirst
    · rcases Except.bind_eq_error_iff.mp hrest with hothers | ⟨others, -, hreturn⟩
      · exact ih hothers
      · simp [pure, Except.pure] at hreturn

/-- The files of all roots in the order of precedence, with the positions of their roots. -/
def ordered (roots : List Path) (fs : FileSystem) : List Placed :=
  (placings roots fs).mergeSort fun a b => precedes a.2 b.2

theorem mem_ordered_iff : p ∈ ordered roots fs ↔ Listed roots fs p := by
  rw [ordered, List.mem_mergeSort, mem_placings_iff]

theorem map_ordered (roots : List Path) (fs : FileSystem) :
    (ordered roots fs).map Prod.snd = sort ((placings roots fs).map Prod.snd) :=
  List.map_mergeSort fun _ _ _ _ => rfl

/-- Files that are listed root by root are in the order of precedence once they are sorted. -/
theorem pairwise_ordered (roots : List Path) (fs : FileSystem) :
    (ordered roots fs).Pairwise fun a b => ¬Before b a := by
  refine (List.pairwise_mergeSort_stable ?_ ?_ (pairwise_placings roots fs)).imp ?_
  · exact fun a b c => precedes_trans a.2 b.2 c.2
  · exact fun a b => precedes_total a.2 b.2
  · exact fun ⟨hle, hstable⟩ => not_before_of_precedes hle hstable

theorem discover_eq_ok_iff :
    discover roots fs = .ok files ↔
      roots ≠ [] ∧ (∀ root ∈ roots, fs.isDirectory root.text = true) ∧
        (∀ root ∈ roots, ∃ relatives, fs.listFiles root = .ok relatives) ∧
        (ordered roots fs).map Prod.snd = files := by
  have hdirs : (roots.find? fun root => !fs.isDirectory root.text) = none ↔
      ∀ root ∈ roots, fs.isDirectory root.text = true := by
    simp [List.find?_eq_none]
  rw [discover, map_ordered, ← hdirs]
  split_ifs with hne
  · simp [hne]
  cases (roots.find? fun root => !fs.isDirectory root.text) with
  | some missing => simp
  | none => simp [Except.map_eq_ok_iff, belowAll_eq_ok_iff, hne, and_assoc]

end Placings

/-- **The files of all roots in the order of precedence.** -/
theorem discover_placed {roots : List Path} {fs : FileSystem} {files : List ModelFile}
    (h : discover roots fs = .ok files) :
    ∃ placed : List Placed, placed.map Prod.snd = files ∧
      placed.Pairwise (fun a b => ¬Before b a) ∧ ∀ p, p ∈ placed ↔ Listed roots fs p :=
  ⟨ordered roots fs, (discover_eq_ok_iff.mp h).2.2.2, pairwise_ordered roots fs,
    fun _ => mem_ordered_iff⟩

end ModelFile

namespace Sources

open ModelFile (Placed Before Listed)

/-- A file that is listed below a root at some position and that the rules select. -/
def Selects (sources : Sources) (fs : FileSystem) (placed : Placed) : Prop :=
  Listed sources.roots fs placed ∧ Rule.accepts sources.rules placed.2.relative = true

theorem selected_placed {sources : Sources} {fs : FileSystem} {files : List ModelFile}
    (h : sources.selected fs = .ok files) :
    ∃ placed : List Placed, placed.map Prod.snd = files ∧
      placed.Pairwise (fun a b => ¬Before b a) ∧ ∀ p, p ∈ placed ↔ sources.Selects fs p := by
  rw [selected] at h
  obtain ⟨found, hfound, h⟩ := Except.bind_eq_ok_iff.mp h
  have hfiles : ModelFile.select sources.rules found = files := by
    split at h
    · exact absurd h (by simp)
    · next hselect => exact hselect.trans (Except.ok.inj h)
  obtain ⟨placed, rfl, horder, hmem⟩ := ModelFile.discover_placed hfound
  refine ⟨placed.filter fun p => Rule.accepts sources.rules p.2.relative, ?_, ?_, ?_⟩
  · rw [← hfiles, ModelFile.select, List.filter_map]
    rfl
  · exact horder.filter _
  · intro p
    rw [List.mem_filter, hmem]
    rfl

/-- A successful compilation merges the trees of the selected files in their order. -/
theorem compile_placed {sources : Sources} {fs : FileSystem} {tree : Tree}
    (h : sources.compile fs = .ok tree) :
    ∃ loaded : List (Placed × Tree), tree = Tree.merge (loaded.map Prod.snd) ∧
      (∀ l ∈ loaded, l.1.2.load fs = .ok l.2) ∧
      loaded.Pairwise (fun a b => ¬Before b.1 a.1) ∧
      ∀ p, (∃ t, (p, t) ∈ loaded) ↔ sources.Selects fs p := by
  rw [compile] at h
  obtain ⟨files, hfiles, h⟩ := Except.bind_eq_ok_iff.mp h
  obtain ⟨trees, htrees, h⟩ := Except.bind_eq_ok_iff.mp h
  obtain rfl := Except.ok.inj h
  obtain ⟨placed, rfl, horder, hmem⟩ := selected_placed hfiles
  have hload := ModelFile.loadAll_eq_ok_iff.mp htrees
  rw [List.forall₂_map_left_iff] at hload
  have hlength : placed.length = trees.length := hload.length_eq
  have hfst : (placed.zip trees).map Prod.fst = placed := List.map_fst_zip (by omega)
  have hsnd : (placed.zip trees).map Prod.snd = trees := List.map_snd_zip (by omega)
  refine ⟨placed.zip trees, by rw [hsnd], ?_, ?_, ?_⟩
  · intro placed hl
    obtain ⟨p, t⟩ := placed
    exact List.forall₂_zip hload hl
  · rw [← List.pairwise_map (f := Prod.fst) (R := fun a b => ¬Before b a), hfst]
    exact horder
  · intro p
    rw [← hmem]
    constructor
    · intro hloaded
      obtain ⟨t, hl⟩ := hloaded
      exact (List.of_mem_zip hl).1
    · intro hp
      rw [← hfst] at hp
      obtain ⟨⟨p', t⟩, hl, rfl⟩ := List.mem_map.mp hp
      exact ⟨t, hl⟩

theorem not_before_self (a : Placed) : ¬Before a a := by
  intro hbefore
  rcases hbefore with hlt | ⟨-, hlt | ⟨-, hlt⟩⟩
  · omega
  · exact absurd hlt (List.lt_irrefl _)
  · omega

section Split

variable {front back : List (Placed × Tree)} {middle l : Placed × Tree}
  (horder : (front ++ middle :: back).Pairwise fun a b => ¬Before b.1 a.1)

include horder

/-- What is before in precedence stands before in the order. -/
theorem mem_back_of_before (hl : l ∈ front ++ middle :: back) (hbefore : Before middle.1 l.1) :
    l ∈ back := by
  obtain ⟨-, -, hcross⟩ := List.pairwise_append.mp horder
  rcases List.mem_append.mp hl with hfront | hl
  · exact absurd hbefore (hcross _ hfront _ List.mem_cons_self)
  · rcases List.mem_cons.mp hl with rfl | hback
    · exact absurd hbefore (not_before_self l.1)
    · exact hback

/-- A file that stands no later than another one without being before it is the same file. -/
theorem file_eq_of_split {sources : Sources} {fs : FileSystem}
    (hselects : ∀ l ∈ front ++ middle :: back, sources.Selects fs l.1)
    (hl : l ∈ front ++ middle :: back) (hback : l ∉ back) (hnot : ¬Before l.1 middle.1) :
    middle.1.2 = l.1.2 := by
  have hmiddle := hselects middle (by simp)
  rcases List.mem_append.mp hl with hfront | hin
  · have hcross := (List.pairwise_append.mp horder).2.2 _ hfront _ List.mem_cons_self
    exact congrArg Prod.snd
      (ModelFile.eq_of_not_before hmiddle.1.1 (hselects l hl).1.1 hcross hnot)
  · rcases List.mem_cons.mp hin with rfl | hin
    · rfl
    · exact absurd hin hback

end Split

theorem exists_last {α : Type} {p : α → Bool} {l : List α} (h : ∃ a ∈ l, p a = true) :
    ∃ front a back, l = front ++ a :: back ∧ p a = true ∧ ∀ b ∈ back, p b = false := by
  induction l with
  | nil => simp at h
  | cons first rest ih =>
    by_cases hrest : ∃ a ∈ rest, p a = true
    · obtain ⟨front, a, back, rfl, ha, hback⟩ := ih hrest
      exact ⟨first :: front, a, back, rfl, ha, hback⟩
    · obtain ⟨a, ha, hpa⟩ := h
      rcases List.mem_cons.mp ha with rfl | ha
      · exact ⟨[], a, rest, rfl, hpa, fun b hb => by simpa using fun hpb => hrest ⟨b, hb, hpb⟩⟩
      · exact absurd ⟨a, ha, hpa⟩ hrest

/-- **Compile precedence.**  A scalar stands at a path of the configuration exactly if some
selected file has it there and every selected file that comes later in the order of precedence
does not touch the path. -/
theorem compile_scalar_iff {sources : Sources} {fs : FileSystem} {tree : Tree}
    (h : sources.compile fs = .ok tree) {path : List Text} (hp : path ≠ []) (text : Text) :
    Tree.walk? path tree = some (.scalar text) ↔
      ∃ winner, sources.Selects fs winner ∧
        (∃ found, winner.2.load fs = .ok found ∧
          Tree.walk? path found = some (.scalar text)) ∧
        ∀ later, sources.Selects fs later → Before winner later →
          ∃ found, later.2.load fs = .ok found ∧ Tree.touches path found = false := by
  obtain ⟨loaded, rfl, hload, horder, hmem⟩ := compile_placed h
  have hsorted : ∀ t ∈ loaded.map Prod.snd, Tree.Sorted t := by
    intro t ht
    obtain ⟨l, hl, rfl⟩ := List.mem_map.mp ht
    exact ModelFile.sorted_load (hload l hl)
  rw [← Tree.shapeAt?_eq_scalar_iff, Tree.scalar_merge_iff hsorted hp]
  constructor
  · intro hwinner
    obtain ⟨before, found, after, hsplit, hshape, hafter⟩ := hwinner
    obtain ⟨front, back', rfl, rfl, hback'⟩ := List.map_eq_append_iff.mp hsplit
    obtain ⟨⟨winner, found'⟩, back, rfl, rfl, rfl⟩ := List.map_eq_cons_iff.mp hback'
    refine ⟨winner, (hmem winner).mp ⟨found', by simp⟩, ⟨found', hload (winner, found') (by simp),
      Tree.shapeAt?_eq_scalar_iff.mp hshape⟩, ?_⟩
    intro later hselects hlate
    obtain ⟨t, hlater⟩ := (hmem later).mpr hselects
    have hback := mem_back_of_before horder hlater hlate
    exact ⟨t, hload _ hlater, hafter t (List.mem_map.mpr ⟨_, hback, rfl⟩)⟩
  · intro hwinner
    obtain ⟨winner, hselects, ⟨found, hfound, hscalar⟩, hlater⟩ := hwinner
    have hshape := Tree.shapeAt?_eq_scalar_iff.mpr hscalar
    obtain ⟨t, hwinner⟩ := (hmem winner).mpr hselects
    obtain rfl : t = found := Except.ok.inj ((hload _ hwinner).symm.trans hfound)
    obtain ⟨front, ⟨last, t'⟩, back, rfl, htouches, hback⟩ :=
      exists_last (p := fun l : Placed × Tree => Tree.touches path l.2)
        ⟨_, hwinner, Tree.touches_of_shapeAt? hp hshape⟩
    have hloadLast : last.2.load fs = .ok t' := hload (last, t') (by simp)
    have hnotBack : (winner, t) ∉ back := by
      intro hin
      have hquiet := hback _ hin
      rw [Tree.touches_of_shapeAt? hp hshape] at hquiet
      exact absurd hquiet (by decide)
    have hnot : ¬Before winner last := by
      intro hbefore
      obtain ⟨other, hother, hquiet⟩ := hlater last ((hmem last).mp ⟨t', by simp⟩) hbefore
      obtain rfl := Except.ok.inj (hloadLast.symm.trans hother)
      exact absurd htouches (by rw [hquiet]; decide)
    have hfile : last.2 = winner.2 :=
      file_eq_of_split horder (fun l hl => (hmem l.1).mp ⟨l.2, hl⟩) hwinner hnotBack hnot
    rw [hfile, hfound] at hloadLast
    obtain rfl := Except.ok.inj hloadLast
    refine ⟨front.map Prod.snd, t, back.map Prod.snd, by simp, hshape, ?_⟩
    intro later hin
    obtain ⟨l, hl, rfl⟩ := List.mem_map.mp hin
    exact hback l hl

/-! ### Two roots with a file of one name -/

/-- The file `k.properties` below a root. -/
def propertyFile (root : String) : ModelFile :=
  ⟨Path.ofText root.toList, Path.ofText "k.properties".toList⟩

/-- Two model directories that give one key different values. -/
def twoRoots : FileSystem where
  root := ["m", "n"].map fun root =>
    (root.toList, .directory
      [("k.properties".toList, .file (Utf8.encode ("k=".toList ++ root.toList)))])
  workingDirectory := []

def twoSources : Sources := ⟨[Path.ofText "m".toList, Path.ofText "n".toList], []⟩

/-- The tree of the property `k` with a value. -/
def treeOfValue (value : String) : Tree :=
  [("k".toList, .branch [(Tree.valueKey, .scalar value.toList)])]

theorem selected_twoRoots :
    twoSources.selected twoRoots = .ok [propertyFile "m", propertyFile "n"] := by
  have hbelow : ModelFile.belowAll twoRoots twoSources.roots =
      .ok [propertyFile "m", propertyFile "n"] := by decide +kernel
  have hsort : ModelFile.sort [propertyFile "m", propertyFile "n"] =
      [propertyFile "m", propertyFile "n"] :=
    List.mergeSort_of_pairwise (by decide +kernel)
  have hdiscover : ModelFile.discover twoSources.roots twoRoots =
      .ok [propertyFile "m", propertyFile "n"] := by
    rw [ModelFile.discover, if_neg (by decide +kernel), hbelow,
      show twoSources.roots.find? _ = none from by decide +kernel]
    exact congrArg _ hsort
  rw [selected, hdiscover]
  rfl

theorem compile_twoRoots : twoSources.compile twoRoots = .ok (treeOfValue "n") := by
  rw [compile, selected_twoRoots]
  rfl

theorem compile_scalar_iff_twoRoots :
    twoSources.compile twoRoots = .ok (treeOfValue "n") ∧ ["k".toList, Tree.valueKey] ≠ [] ∧
      ∃ winner, twoSources.Selects twoRoots winner ∧
        (∃ found, winner.2.load twoRoots = .ok found ∧
          Tree.walk? ["k".toList, Tree.valueKey] found = some (.scalar "n".toList)) ∧
        ∀ later, twoSources.Selects twoRoots later → Before winner later →
          ∃ found, later.2.load twoRoots = .ok found ∧
            Tree.touches ["k".toList, Tree.valueKey] found = false :=
  ⟨compile_twoRoots, by simp, (compile_scalar_iff compile_twoRoots (by simp) _).mp rfl⟩

end Sources

end LayeredConfig
