import LayeredConfig.Proofs.Model.PropertyFiles

/-!
# The tree of one flat key

A key that has no empty segment stands for one way down a tree: every branch on it has one child,
and at its end is the value.  The way goes along the segments of the key, and one step further to
`value` unless metadata is marked in the key.

* `walk?_single_append` — what the tree of one path has on the way;
* `oneWay_single` — the tree is one way with the value at its end;
* **`expansion_of_key`** — a key is refused exactly if it has an empty segment, the tree of any
  other key is one way, the value is read back by its dotted path, and different keys have
  different ways.
-/

namespace LayeredConfig

namespace Tree

variable {path : List Text} {tree : Tree} {key value : Text}

/-! ## One way -/

/-- A tree that is one way: a single scalar stands in it, and the root and every branch above the
scalar have one child. -/
structure OneWay (path : List Text) (value : Text) (tree : Tree) : Prop where
  scalar_iff : ∀ place text,
    walk? place tree = some (.scalar text) ↔ place = path ∧ text = value
  root : ∃ child, tree = [child]
  above : ∀ front back, front ≠ [] → back ≠ [] → path = front ++ back →
    ∃ child, walk? front tree = some (.branch [child])

theorem exists_single_eq (h : path ≠ []) (value : Text) : ∃ child, single path value = [child] := by
  obtain ⟨key, keys, rfl⟩ := List.exists_cons_of_ne_nil h
  cases keys with
  | nil => exact ⟨_, rfl⟩
  | cons next keys => exact ⟨_, rfl⟩

/-- On the way to the end of a path is the tree of the rest of the path. -/
theorem walk?_single_append {front back : List Text} (hfront : front ≠ []) (hback : back ≠ [])
    (value : Text) :
    walk? front (single (front ++ back) value) = some (.branch (single back value)) := by
  induction front with
  | nil => exact absurd rfl hfront
  | cons key keys ih =>
    cases keys with
    | nil =>
      obtain ⟨next, rest, rfl⟩ := List.exists_cons_of_ne_nil hback
      simp [single, walk?, Entries.get?]
    | cons next keys =>
      have hnext := ih (List.cons_ne_nil _ _)
      simp only [List.cons_append, single, walk?, Entries.get?_cons, if_pos] at hnext ⊢
      exact hnext

theorem oneWay_single (h : path ≠ []) (value : Text) : OneWay path value (single path value) where
  scalar_iff _ _ := walk?_single_iff h
  root := exists_single_eq h value
  above front back hfront hback hpath := by
    obtain ⟨child, hchild⟩ := exists_single_eq hback value
    exact ⟨child, by rw [hpath, walk?_single_append hfront hback, hchild]⟩

/-- The end of a way is found by its dotted path. -/
theorem OneWay.nodeAt? (h : OneWay (Text.splitAt '.' key) value tree) :
    nodeAt? key tree = some (.scalar value) :=
  (h.scalar_iff _ _).mpr ⟨rfl, rfl⟩

/-- A value at the end of the way of a key is the value of the key. -/
theorem OneWay.valueAt? (h : OneWay (Text.splitAt '.' key ++ [valueKey]) value tree) :
    valueAt? key tree = some value := by
  rw [valueAt?_eq_shapeAt?, shapeAt?_eq_scalar_iff.mpr ((h.scalar_iff _ _).mpr ⟨rfl, rfl⟩)]
  rfl

end Tree

namespace Properties

open LayeredConfig.Tree (OneWay walk? nodeAt? valueAt? keyPath metadataMark valueKey)

variable {key other value text : Text} {tree : Tree}

/-! ## One key -/

theorem expandAll_singleton_eq_error_iff :
    expandAll [(key, value)] = .error (.invalidKey key) ↔ Broken key := by
  by_cases h : Broken key
  · refine iff_of_true ?_ h
    rw [expandAll, expand?_of_broken h]
  · refine iff_of_false ?_ h
    rw [expandAll_of_sound (by simpa using h)]
    simp

theorem expand?_eq_none_iff : Tree.expand? key value = none ↔ Broken key := by
  by_cases h : Broken key
  · exact iff_of_true (expand?_of_broken h value) h
  · exact iff_of_false (by rw [expand?_of_sound h]; simp) h

/-- The tree of a key is one way along the path of the key. -/
theorem oneWay_of_expand? (h : Tree.expand? key value = some tree) :
    OneWay (keyPath key) value tree := by
  rw [Tree.expand?] at h
  split_ifs at h
  obtain rfl := Option.some.inj h
  exact Tree.oneWay_single (Tree.keyPath_ne_nil key) value

theorem expandAll_singleton_of_sound (h : ¬Broken key) (value : Text) :
    ∃ tree, expandAll [(key, value)] = .ok [tree] ∧ Tree.expand? key value = some tree :=
  ⟨_, expandAll_of_sound (List.forall_mem_singleton.mpr h), expand?_of_sound h value⟩

/-- Keys whose trees have scalars at one place are the same. -/
theorem eq_of_place {tree' : Tree} {place : List Text} {found found' : Text}
    (h : Tree.expand? key value = some tree) (h' : Tree.expand? other text = some tree')
    (hfound : walk? place tree = some (.scalar found))
    (hfound' : walk? place tree' = some (.scalar found')) : key = other := by
  obtain ⟨rfl, -⟩ := ((oneWay_of_expand? h).scalar_iff _ _).mp hfound
  obtain ⟨hsame, -⟩ := ((oneWay_of_expand? h').scalar_iff _ _).mp hfound'
  exact Tree.keyPath_injective hsame

/-- **What a flat key stands for.**  A key with an empty segment is refused, and named; every other
key has a tree.  That tree is one way to the value along the segments of the key if metadata is
marked in it, and along the segments and then `value` if not.  The value is found by the dotted path
of the way, and without the mark it is the value of the key.  The trees of different keys have their
scalars at different places. -/
theorem expansion_of_key (key value : Text) :
    (expandAll [(key, value)] = .error (.invalidKey key) ↔ [] ∈ Text.splitAt '.' key) ∧
      (Tree.expand? key value = none ↔ [] ∈ Text.splitAt '.' key) ∧
      ([] ∉ Text.splitAt '.' key → ∃ tree, expandAll [(key, value)] = .ok [tree] ∧
        Tree.expand? key value = some tree ∧
        (metadataMark <:+: key → OneWay (Text.splitAt '.' key) value tree ∧
          nodeAt? key tree = some (.scalar value)) ∧
        (¬metadataMark <:+: key → OneWay (Text.splitAt '.' key ++ [valueKey]) value tree ∧
          nodeAt? (key ++ '.' :: valueKey) tree = some (.scalar value) ∧
          valueAt? key tree = some value) ∧
        ∀ other text tree', Tree.expand? other text = some tree' → key ≠ other →
          ∀ place found found', ¬(walk? place tree = some (.scalar found) ∧
            walk? place tree' = some (.scalar found'))) := by
  refine ⟨expandAll_singleton_eq_error_iff, expand?_eq_none_iff, fun hsound => ?_⟩
  obtain ⟨tree, hall, htree⟩ := expandAll_singleton_of_sound hsound value
  have hway := oneWay_of_expand? htree
  refine ⟨tree, hall, htree, fun hmark => ?_, fun hmark => ?_, ?_⟩
  · rw [Tree.keyPath_of_metadata (Text.includes_iff.mpr hmark)] at hway
    exact ⟨hway, hway.nodeAt?⟩
  · rw [Tree.keyPath_of_value (by rwa [← Bool.not_eq_true, Text.includes_iff])] at hway
    refine ⟨hway, ?_, hway.valueAt?⟩
    rw [← Tree.splitAt_value] at hway
    exact hway.nodeAt?
  · intro other text tree' htree' hne place found found' hboth
    exact hne (eq_of_place htree htree' hboth.1 hboth.2)

/-- A key with metadata marked in its second segment. -/
def portUnit : Text := "host.port_metadata.unit".toList

theorem expansion_of_key_portUnit :
    ([] ∉ Text.splitAt '.' portUnit ∧ metadataMark <:+: portUnit) ∧
      ∃ tree, Tree.expand? portUnit ['s'] = some tree ∧
        OneWay ["host".toList, "port_metadata".toList, "unit".toList] ['s'] tree ∧
        nodeAt? portUnit tree = some (.scalar ['s']) := by
  have hsound : [] ∉ Text.splitAt '.' portUnit := by decide
  have hmark : metadataMark <:+: portUnit := by decide
  obtain ⟨-, -, hexpands⟩ := expansion_of_key portUnit ['s']
  obtain ⟨tree, -, htree, hmarked, -⟩ := hexpands hsound
  exact ⟨⟨hsound, hmark⟩, tree, htree, hmarked hmark⟩

end Properties

end LayeredConfig
