import LayeredConfig.Proofs.Model.PropertyFiles

/-!
# Leaves put together from flat keys

The value of a leaf and its metadata are given by different flat keys.  They end up in branches
beside each other: the value of `host` below `host`, and its metadata below `host_metadata`.  Other
keys do not matter as long as their places lie elsewhere.

* `leafAt?_eq_some_iff` — a leaf is known from the scalars at the paths of its value and of its
  metadata;
* `shapeAt?_merge_of_agree` — where all trees that touch a path agree, the merged tree agrees too;
* `Describes.value_of_touches`, `Describes.metadata_of_touches` — of all keys only those of the leaf
  touch its paths;
* **`leafAt?_of_describes`** — the keys of a leaf, in any order and among others, give the leaf.
-/

namespace LayeredConfig

namespace Tree

variable {keys path : List Text} {key name value : Text} {tree : Tree} {metadata : Entries Text}

/-! ## Reading a leaf -/

theorem mem_scalars {text : Text} :
    (name, text) ∈ scalars tree ↔ (name, .scalar text) ∈ tree := by
  rw [scalars, List.mem_filterMap]
  constructor
  · rintro ⟨⟨other, node⟩, hmem, heq⟩
    obtain ⟨found, hnode, hpair⟩ := Option.map_eq_some_iff.mp heq
    obtain ⟨rfl, rfl⟩ := Prod.mk.inj hpair
    cases node with
    | scalar text => exact Option.some.inj hnode ▸ hmem
    | branch entries => simp [Node.scalar?] at hnode
  · intro hmem
    exact ⟨_, hmem, rfl⟩

theorem increasing_scalars (h : Entries.Increasing tree) : Entries.Increasing (scalars tree) := by
  rw [Entries.increasing_iff_pairwise] at h ⊢
  refine h.filterMap _ ?_
  rintro ⟨low, lowNode⟩ ⟨high, highNode⟩ hlt entry hentry entry' hentry'
  obtain ⟨text, -, rfl⟩ := Option.map_eq_some_iff.mp hentry
  obtain ⟨text', -, rfl⟩ := Option.map_eq_some_iff.mp hentry'
  exact hlt

/-- The nodes anywhere in a sorted tree are sorted. -/
theorem Sorted.walk? {node : Node} (h : Sorted tree) (hwalk : walk? path tree = some node) :
    SortedNode node := by
  induction path generalizing tree with
  | nil => simp [Tree.walk?] at hwalk
  | cons key keys ih =>
    cases keys with
    | nil => exact h.node hwalk
    | cons next keys =>
      rw [Tree.walk?] at hwalk
      split at hwalk
      · next entries hget => exact ih (h.node hget) hwalk
      · simp at hwalk

/-- The entries of the branch at the end of a path; none if there is no branch. -/
def entriesAt (path : List Text) (tree : Tree) : Tree :=
  ((walk? path tree).bind Node.branch?).getD []

theorem sorted_entriesAt (h : Sorted tree) (path : List Text) : Sorted (entriesAt path tree) := by
  rw [entriesAt]
  cases hwalk : walk? path tree with
  | none => exact sorted_nil
  | some node =>
    cases node with
    | scalar text => exact sorted_nil
    | branch entries => exact h.walk? hwalk

/-- What is in the branch at the end of a path stands one key further. -/
theorem get?_entriesAt (hpath : path ≠ []) (name : Text) (tree : Tree) :
    Entries.get? name (entriesAt path tree) = walk? (path ++ [name]) tree := by
  rw [walk?_concat hpath, entriesAt]
  cases (walk? path tree).bind Node.branch? <;> rfl

theorem valueAt?_eq_some_iff :
    valueAt? key tree = some value ↔
      walk? (Text.splitAt '.' key ++ [valueKey]) tree = some (.scalar value) := by
  rw [valueAt?_eq_shapeAt?, Option.bind_eq_some_iff, ← shapeAt?_eq_scalar_iff]
  simp

theorem leafAt?_eq (key : Text) (tree : Tree) :
    leafAt? key tree = (valueAt? key tree).map fun value =>
      ⟨value, scalars (entriesAt (Text.splitAt '.' (key ++ metadataMark)) tree)⟩ := by
  rw [leafAt?]
  cases valueAt? key tree <;> rfl

/-- **What a leaf is.**  Its value is the scalar one step `value` below the segments of its path,
and its metadata are the scalars below the segments of the path with the mark of metadata. -/
theorem leafAt?_eq_some_iff (h : Sorted tree) (hi : Entries.Increasing metadata) :
    leafAt? key tree = some ⟨value, metadata⟩ ↔
      walk? (Text.splitAt '.' key ++ [valueKey]) tree = some (.scalar value) ∧
        ∀ name text, Entries.get? name metadata = some text ↔
          walk? (Text.splitAt '.' (key ++ metadataMark) ++ [name]) tree = some (.scalar text) := by
  let found := scalars (entriesAt (Text.splitAt '.' (key ++ metadataMark)) tree)
  have hsorted := sorted_entriesAt h (Text.splitAt '.' (key ++ metadataMark))
  have hfound : Entries.Increasing found := increasing_scalars hsorted.1
  have hget : ∀ name text, Entries.get? name found = some text ↔
      walk? (Text.splitAt '.' (key ++ metadataMark) ++ [name]) tree = some (.scalar text) := by
    intro name text
    rw [← Entries.mem_iff_get? hfound, mem_scalars, Entries.mem_iff_get? hsorted.1,
      get?_entriesAt (Text.splitAt_ne_nil _ _)]
  have hsame : found = metadata ↔ ∀ name text,
      Entries.get? name metadata = some text ↔ Entries.get? name found = some text := by
    constructor
    · intro heq name text
      rw [heq]
    · intro hagree
      refine Entries.eq_of_get?_eq hfound hi fun name => Option.ext fun text => ?_
      exact (hagree name text).symm
  simp only [← hget, ← hsame, ← valueAt?_eq_some_iff]
  rw [leafAt?_eq, Option.map_eq_some_iff]
  constructor
  · rintro ⟨other, hvalue, hleaf⟩
    obtain ⟨rfl, hmetadata⟩ := Leaf.mk.inj hleaf
    exact ⟨hvalue, hmetadata⟩
  · rintro ⟨hvalue, hmetadata⟩
    exact ⟨value, hvalue, congrArg (Leaf.mk value) hmetadata⟩

/-! ## Where the trees agree -/

/-- Where all trees that touch a path have the same there, and one does touch it, the merged tree
has it too. -/
theorem shapeAt?_merge_of_agree {trees : List Tree} {shape : Option (Option Text)}
    (hsorted : ∀ tree ∈ trees, Sorted tree) (hpath : path ≠ [])
    (htouched : ∃ tree ∈ trees, touches path tree = true)
    (hagree : ∀ tree ∈ trees, touches path tree = true → shapeAt? path tree = shape) :
    shapeAt? path (merge trees) = shape := by
  induction trees using List.reverseRecOn with
  | nil => simp at htouched
  | append_singleton trees last ih =>
    rw [merge_concat, shapeAt?_mergeInto hpath (hsorted last (by simp))]
    split_ifs with hlast
    · exact hagree last (by simp) hlast
    · refine ih (fun tree htree => hsorted tree (List.mem_append_left _ htree)) ?_
        fun tree htree => hagree tree (List.mem_append_left _ htree)
      obtain ⟨tree, htree, htouches⟩ := htouched
      rcases List.mem_append.mp htree with hmem | hmem
      · exact ⟨tree, hmem, htouches⟩
      · rw [List.mem_singleton.mp hmem] at htouches
        exact absurd htouches hlast

/-! ## Paths that lie apart -/

/-- Whether neither of two paths begins the other one. -/
def Apart (one other : List Text) : Prop :=
  ¬one <+: other ∧ ¬other <+: one

theorem Apart.symm {one other : List Text} (h : Apart one other) : Apart other one := And.symm h

/-- What lies apart from a path lies apart from what is below it. -/
theorem Apart.concat {other : List Text} (h : Apart path other) (name : Text) :
    Apart path (other ++ [name]) := by
  constructor
  · intro hbegins
    rcases List.prefix_concat_iff.mp hbegins with heq | hbegins
    · exact h.2 (heq ▸ List.prefix_append other [name])
    · exact h.1 hbegins
  · intro hbegins
    exact h.2 ((List.prefix_append other [name]).trans hbegins)

/-- A tree of one path touches no path that lies apart from it. -/
theorem touches_single_of_apart (hkeys : keys ≠ []) (h : Apart path keys) (value : Text) :
    touches path (single keys value) = false := by
  rw [← Bool.not_eq_true, touches_single hkeys]
  exact not_or.mpr h

end Tree

namespace Properties

open LayeredConfig.Tree (Leaf Apart keyPath metadataMark valueKey walk? shapeAt? touches single
  merge leafAt?)

variable {key name : Text} {leaf : Leaf} {others entries : List (Text × Text)}
  {entry : Text × Text}

/-! ## The keys of a leaf -/

/-- The property that gives a leaf one of its metadata. -/
def metadataOf (key : Text) (entry : Text × Text) : Text × Text :=
  (key ++ metadataMark ++ '.' :: entry.1, entry.2)

theorem splitAt_metadataOf (key : Text) (h : '.' ∉ entry.1) :
    Text.splitAt '.' (metadataOf key entry).1 =
      Text.splitAt '.' (key ++ metadataMark) ++ [entry.1] := by
  rw [metadataOf, Text.splitAt_append, Text.splitAt_of_not_mem h]

theorem keyPath_metadataOf (key : Text) (h : '.' ∉ entry.1) :
    keyPath (metadataOf key entry).1 = Text.splitAt '.' (key ++ metadataMark) ++ [entry.1] := by
  rw [Tree.keyPath_of_metadata, splitAt_metadataOf key h]
  exact Text.includes_iff.mpr ⟨key, '.' :: entry.1, rfl⟩

theorem dot_not_mem_metadataMark : '.' ∉ metadataMark := by decide

theorem metadataMark_ne_nil : metadataMark ≠ [] := by decide

/-- Value and metadata of a leaf are given by different paths. -/
theorem apart_value_metadata (key name : Text) :
    Apart (Text.splitAt '.' key ++ [valueKey])
      (Text.splitAt '.' (key ++ metadataMark) ++ [name]) := by
  obtain ⟨front, last, hkey, hmark⟩ := Text.exists_splitAt_append dot_not_mem_metadataMark key
  have hne : last ≠ last ++ metadataMark := fun heq =>
    metadataMark_ne_nil (List.self_eq_append_right.mp heq)
  rw [hkey, hmark, Apart, List.append_assoc, List.append_assoc, List.prefix_append_right_inj,
    List.prefix_append_right_inj]
  simp [hne, hne.symm]

/-- Two metadata of a leaf are given by different paths. -/
theorem apart_names {other : Text} (h : name ≠ other) (path : List Text) :
    Apart (path ++ [name]) (path ++ [other]) := by
  rw [Apart, List.prefix_append_right_inj, List.prefix_append_right_inj]
  simp [h, h.symm]

/-- Flat keys among which are those of a leaf: its value, and its metadata under different names.
The places of the other keys lie apart from the value and from the branch of the metadata. -/
structure Describes (key : Text) (leaf : Leaf) (others entries : List (Text × Text)) : Prop where
  sound : ¬Broken key
  unmarked : ¬metadataMark <:+: key
  increasing : Entries.Increasing leaf.metadata
  named : ∀ entry ∈ leaf.metadata, entry.1 ≠ [] ∧ '.' ∉ entry.1
  others_sound : ∀ entry ∈ others, ¬Broken entry.1
  apart_value : ∀ entry ∈ others, Apart (Text.splitAt '.' key ++ [valueKey]) (keyPath entry.1)
  apart_metadata : ∀ entry ∈ others,
    Apart (Text.splitAt '.' (key ++ metadataMark)) (keyPath entry.1)
  order : entries.Perm ((key, leaf.value) :: leaf.metadata.map (metadataOf key) ++ others)

namespace Describes

theorem mem_iff (h : Describes key leaf others entries) :
    entry ∈ entries ↔ entry = (key, leaf.value) ∨
      (∃ datum ∈ leaf.metadata, metadataOf key datum = entry) ∨ entry ∈ others := by
  rw [h.order.mem_iff, List.mem_append, List.mem_cons, List.mem_map, or_assoc]

theorem keyPath_key (h : Describes key leaf others entries) :
    keyPath key = Text.splitAt '.' key ++ [valueKey] :=
  Tree.keyPath_of_value (by rw [← Bool.not_eq_true, Text.includes_iff]; exact h.unmarked)

/-- A key that names metadata has no empty segment. -/
theorem not_broken_metadataOf (h : Describes key leaf others entries)
    (hentry : entry ∈ leaf.metadata) : ¬Broken (metadataOf key entry).1 := by
  obtain ⟨hname, hdot⟩ := h.named entry hentry
  obtain ⟨front, last, hkey, hmark⟩ := Text.exists_splitAt_append dot_not_mem_metadataMark key
  have hsound := h.sound
  rw [Broken, hkey, List.mem_append, not_or] at hsound
  rw [Broken, splitAt_metadataOf key hdot, hmark]
  simp [hsound.1, hname.symm, metadataMark_ne_nil]

theorem not_broken (h : Describes key leaf others entries) (hentry : entry ∈ entries) :
    ¬Broken entry.1 := by
  rcases h.mem_iff.mp hentry with rfl | ⟨datum, hdatum, rfl⟩ | hother
  · exact h.sound
  · exact h.not_broken_metadataOf hdatum
  · exact h.others_sound entry hother

/-- Only the key of the value touches its path. -/
theorem value_of_touches (h : Describes key leaf others entries) (hentry : entry ∈ entries)
    (htouches : touches (Text.splitAt '.' key ++ [valueKey])
      (single (keyPath entry.1) entry.2) = true) : entry = (key, leaf.value) := by
  by_contra hne
  have hapart : Apart (Text.splitAt '.' key ++ [valueKey]) (keyPath entry.1) := by
    rcases h.mem_iff.mp hentry with rfl | ⟨datum, hdatum, rfl⟩ | hother
    · exact absurd rfl hne
    · rw [keyPath_metadataOf key (h.named datum hdatum).2]
      exact apart_value_metadata key datum.1
    · exact h.apart_value entry hother
  rw [Tree.touches_single_of_apart (Tree.keyPath_ne_nil _) hapart] at htouches
  exact absurd htouches (by decide)

/-- Only the key of a datum touches its path. -/
theorem metadata_of_touches (h : Describes key leaf others entries) (hentry : entry ∈ entries)
    (htouches : touches (Text.splitAt '.' (key ++ metadataMark) ++ [name])
      (single (keyPath entry.1) entry.2) = true) :
    ∃ text, (name, text) ∈ leaf.metadata ∧ metadataOf key (name, text) = entry := by
  by_contra hnone
  have hapart : Apart (Text.splitAt '.' (key ++ metadataMark) ++ [name]) (keyPath entry.1) := by
    rcases h.mem_iff.mp hentry with rfl | ⟨datum, hdatum, rfl⟩ | hother
    · rw [h.keyPath_key]
      exact (apart_value_metadata key name).symm
    · rw [keyPath_metadataOf key (h.named datum hdatum).2]
      refine apart_names (fun heq => hnone ?_) _
      exact ⟨datum.2, heq ▸ hdatum, by rw [heq]⟩
    · exact ((h.apart_metadata entry hother).symm.concat name).symm
  rw [Tree.touches_single_of_apart (Tree.keyPath_ne_nil _) hapart] at htouches
  exact absurd htouches (by decide)

/-- The merged tree has the value at its path. -/
theorem shapeAt?_value (h : Describes key leaf others entries) :
    shapeAt? (Text.splitAt '.' key ++ [valueKey]) (merge (singles entries)) =
      some (some leaf.value) := by
  have hmem : (key, leaf.value) ∈ entries := h.mem_iff.mpr (Or.inl rfl)
  have hhere : walk? (Text.splitAt '.' key ++ [valueKey]) (single (keyPath key) leaf.value) =
      some (.scalar leaf.value) :=
    (Tree.walk?_single_iff (Tree.keyPath_ne_nil key)).mpr ⟨h.keyPath_key.symm, rfl⟩
  have hshape := Tree.shapeAt?_eq_scalar_iff.mpr hhere
  refine Tree.shapeAt?_merge_of_agree sorted_singles (by simp) ?_ ?_
  · exact ⟨_, List.mem_map_of_mem hmem, Tree.touches_of_shapeAt? (by simp) hshape⟩
  · intro tree htree htouches
    obtain ⟨entry, hentry, rfl⟩ := List.mem_map.mp htree
    obtain rfl := h.value_of_touches hentry htouches
    exact hshape

/-- The merged tree has each datum at its path. -/
theorem shapeAt?_datum (h : Describes key leaf others entries) {text : Text}
    (hdatum : (name, text) ∈ leaf.metadata) :
    shapeAt? (Text.splitAt '.' (key ++ metadataMark) ++ [name]) (merge (singles entries)) =
      some (some text) := by
  have hmem : metadataOf key (name, text) ∈ entries :=
    h.mem_iff.mpr (Or.inr (Or.inl ⟨_, hdatum, rfl⟩))
  have hpath := keyPath_metadataOf key (h.named _ hdatum).2
  have hhere : walk? (Text.splitAt '.' (key ++ metadataMark) ++ [name])
      (single (keyPath (metadataOf key (name, text)).1) text) = some (.scalar text) :=
    (Tree.walk?_single_iff (Tree.keyPath_ne_nil _)).mpr ⟨hpath.symm, rfl⟩
  have hshape := Tree.shapeAt?_eq_scalar_iff.mpr hhere
  refine Tree.shapeAt?_merge_of_agree sorted_singles (by simp) ?_ ?_
  · exact ⟨_, List.mem_map_of_mem hmem, Tree.touches_of_shapeAt? (by simp) hshape⟩
  · intro tree htree htouches
    obtain ⟨entry, hentry, rfl⟩ := List.mem_map.mp htree
    obtain ⟨text', hdatum', rfl⟩ := h.metadata_of_touches hentry htouches
    have hget := Entries.get?_of_mem h.increasing hdatum
    rw [Entries.get?_of_mem h.increasing hdatum'] at hget
    obtain rfl := Option.some.inj hget
    exact hshape

/-- Nothing stands where a name has no datum. -/
theorem shapeAt?_of_no_datum (h : Describes key leaf others entries)
    (hnone : Entries.get? name leaf.metadata = none) :
    shapeAt? (Text.splitAt '.' (key ++ metadataMark) ++ [name]) (merge (singles entries)) =
      none := by
  refine Tree.shapeAt?_merge_of_untouched sorted_singles (by simp) fun tree htree => ?_
  obtain ⟨entry, hentry, rfl⟩ := List.mem_map.mp htree
  rw [← Bool.not_eq_true]
  intro htouches
  obtain ⟨text, hdatum, -⟩ := h.metadata_of_touches hentry htouches
  rw [Entries.get?_of_mem h.increasing hdatum] at hnone
  exact absurd hnone (by simp)

/-- The merged tree has the metadata of the leaf, and no other scalars beside them. -/
theorem get?_metadata_iff (h : Describes key leaf others entries) (name text : Text) :
    Entries.get? name leaf.metadata = some text ↔
      walk? (Text.splitAt '.' (key ++ metadataMark) ++ [name]) (merge (singles entries)) =
        some (.scalar text) := by
  rw [← Tree.shapeAt?_eq_scalar_iff]
  cases hget : Entries.get? name leaf.metadata with
  | none => simp [h.shapeAt?_of_no_datum hget]
  | some datum => simp [h.shapeAt?_datum ((Entries.mem_iff_get? h.increasing).mpr hget)]

end Describes

/-! ## The leaf -/

/-- **A leaf is put together from its flat keys.**  The keys of a leaf are all accepted, in any
order and among other keys whose places lie apart, and the tree that is merged from them has the
leaf: its value, and its metadata and no others. -/
theorem leafAt?_of_describes (h : Describes key leaf others entries) :
    ∃ trees, expandAll entries = .ok trees ∧ leafAt? key (merge trees) = some leaf := by
  refine ⟨_, expandAll_of_sound fun entry => h.not_broken, ?_⟩
  have hsorted : Tree.Sorted (merge (singles entries)) := Tree.sorted_merge sorted_singles
  rw [Tree.leafAt?_eq_some_iff hsorted h.increasing]
  exact ⟨Tree.shapeAt?_eq_scalar_iff.mp h.shapeAt?_value, h.get?_metadata_iff⟩

/-- A leaf in the middle of a tree, with two metadata. -/
def portLeaf : Leaf :=
  ⟨"80".toList, [("owner".toList, "net".toList), ("unit".toList, "tcp".toList)]⟩

/-- Keys beside the leaf: one whose name goes on from the name of the leaf, and the metadata of a
sibling. -/
def besidePort : List (Text × Text) :=
  [("http.ports".toList, "8080".toList), ("http.host_metadata.unit".toList, "name".toList)]

/-- The keys of the leaf with the others between them. -/
def portEntries : List (Text × Text) :=
  [("http.port_metadata.unit".toList, "tcp".toList), ("http.ports".toList, "8080".toList),
    ("http.port".toList, "80".toList), ("http.host_metadata.unit".toList, "name".toList),
    ("http.port_metadata.owner".toList, "net".toList)]

theorem leafAt?_of_describes_port :
    Describes "http.port".toList portLeaf besidePort portEntries ∧
      ∃ trees, expandAll portEntries = .ok trees ∧
        leafAt? "http.port".toList (merge trees) = some portLeaf := by
  have h : Describes "http.port".toList portLeaf besidePort portEntries :=
    { sound := by decide
      unmarked := by decide
      increasing := by decide
      named := by decide
      others_sound := by decide
      apart_value := by unfold Apart; decide
      apart_metadata := by unfold Apart; decide
      order := by decide }
  exact ⟨h, leafAt?_of_describes h⟩

end Properties

end LayeredConfig
