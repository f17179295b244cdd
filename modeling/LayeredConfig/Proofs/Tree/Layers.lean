import LayeredConfig.Proofs.Text.Pieces
import LayeredConfig.Proofs.Tree.Merge

/-!
# Trees in layers

A list of trees that are laid over each other is seen from above: at each path the last tree that
touches it decides what stands there, and what the trees below have there does not count.

* `touches_iff` — a tree touches a path if the path leads to a node, or if the way along the path
  ends at a scalar;
* `shapeAt?_merge_of_last`, `shapeAt?_merge_of_untouched` — a path of the merged tree looks as in
  the last tree that touches it, and nothing stands there if no tree does;
* `shapeAt?_merge_insert` — a tree between the others that does not touch a path does not count;
* `valueAt?_eq_shapeAt?` — a value is what stands at the path of its name with `value` at the end;
* **`walk?_merge`** — the same for what the path leads to: a scalar, a branch or nothing.
-/

namespace LayeredConfig.Tree

variable {path : List Text} {tree : Tree}

/-! ## The end of a way -/

/-- The way to a scalar is one key, or it goes through a branch. -/
theorem walk?_cons_eq_scalar {key : Text} {keys : List Text} {text : Text}
    (h : walk? (key :: keys) tree = some (.scalar text)) :
    (keys = [] ∧ Entries.get? key tree = some (.scalar text)) ∨
      ∃ next rest entries, keys = next :: rest ∧
        Entries.get? key tree = some (.branch entries) ∧
        walk? (next :: rest) entries = some (.scalar text) := by
  cases keys with
  | nil => exact Or.inl ⟨rfl, h⟩
  | cons next rest =>
    rw [walk?] at h
    split at h
    · next entries hget => exact Or.inr ⟨next, rest, entries, rfl, hget, h⟩
    · simp at h

/-- A scalar on the way along a path is touched. -/
theorem touches_of_scalar {front : List Text} {text : Text}
    (h : walk? front tree = some (.scalar text)) (back : List Text) :
    touches (front ++ back) tree = true := by
  induction front generalizing tree with
  | nil => simp [walk?] at h
  | cons key keys ih =>
    rcases walk?_cons_eq_scalar h with ⟨rfl, hget⟩ | ⟨next, rest, entries, rfl, hget, hbelow⟩
    · rw [List.singleton_append, touches, hget]
    · rw [List.cons_append, touches, hget]
      exact ih hbelow

/-- Nothing stands below a scalar. -/
theorem walk?_of_scalar {front back : List Text} {text : Text} (hback : back ≠ [])
    (h : walk? front tree = some (.scalar text)) : walk? (front ++ back) tree = none := by
  induction front generalizing tree with
  | nil => simp [walk?] at h
  | cons key keys ih =>
    rcases walk?_cons_eq_scalar h with ⟨rfl, hget⟩ | ⟨next, rest, entries, rfl, hget, hbelow⟩
    · obtain ⟨next, back, rfl⟩ := List.exists_cons_of_ne_nil hback
      rw [List.singleton_append, walk?, hget]
    · rw [List.cons_append, List.cons_append, walk?, hget]
      exact ih hbelow

/-- Where nothing stands at a path that is touched, a scalar ends the way before. -/
theorem exists_scalar_of_touches (htouches : touches path tree = true) (hp : path ≠ [])
    (hnone : walk? path tree = none) :
    ∃ front back text, path = front ++ back ∧ back ≠ [] ∧
      walk? front tree = some (.scalar text) := by
  induction path generalizing tree with
  | nil => exact absurd rfl hp
  | cons key keys ih =>
    rw [touches] at htouches
    cases keys with
    | nil =>
      have hget : Entries.get? key tree = none := hnone
      simp [hget] at htouches
    | cons next keys =>
      split at htouches
      · simp at htouches
      · next text hget => exact ⟨[key], next :: keys, text, rfl, List.cons_ne_nil _ _, hget⟩
      · next entries hget =>
        rw [walk?, hget] at hnone
        obtain ⟨front, back, text, heq, hback, hscalar⟩ :=
          ih htouches (List.cons_ne_nil _ _) hnone
        cases front with
        | nil => simp [walk?] at hscalar
        | cons first front =>
          refine ⟨key :: first :: front, back, text, by rw [heq]; rfl, hback, ?_⟩
          rw [walk?, hget]
          exact hscalar

/-- A tree touches a path exactly if the path leads to a node, or if a scalar ends the way along
the path. -/
theorem touches_iff (hp : path ≠ []) :
    touches path tree = true ↔
      (∃ node, walk? path tree = some node) ∨
        ∃ front back text, path = front ++ back ∧ back ≠ [] ∧
          walk? front tree = some (.scalar text) := by
  constructor
  · intro h
    cases hwalk : walk? path tree with
    | none => exact Or.inr (exists_scalar_of_touches h hp hwalk)
    | some node => exact Or.inl ⟨node, rfl⟩
  · rintro (⟨node, hnode⟩ | ⟨front, back, text, rfl, -, hscalar⟩)
    · have hshape : shapeAt? path tree = some node.scalar? := by
        rw [shapeAt?, hnode, Option.map_some]
      exact touches_of_shapeAt? hp hshape
    · exact touches_of_scalar hscalar back

theorem shapeAt?_eq_branch_iff :
    shapeAt? path tree = some none ↔ ∃ entries, walk? path tree = some (.branch entries) := by
  rw [shapeAt?, Option.map_eq_some_iff]
  constructor
  · rintro ⟨node, hnode, hscalar⟩
    cases node with
    | scalar text => simp [Node.scalar?] at hscalar
    | branch entries => exact ⟨entries, hnode⟩
  · rintro ⟨entries, h⟩
    exact ⟨_, h, rfl⟩

/-- A way that is one key longer goes on in the branch at its end. -/
theorem walk?_concat {keys : List Text} (hkeys : keys ≠ []) (key : Text) (tree : Tree) :
    walk? (keys ++ [key]) tree = ((walk? keys tree).bind Node.branch?).bind (Entries.get? key) := by
  induction keys generalizing tree with
  | nil => exact absurd rfl hkeys
  | cons first keys ih =>
    cases keys with
    | nil =>
      rw [List.singleton_append, walk?, walk?]
      cases Entries.get? first tree with
      | none => rfl
      | some node => cases node <;> rfl
    | cons next keys =>
      rw [List.cons_append, List.cons_append, walk?, walk?]
      cases Entries.get? first tree with
      | none => rfl
      | some node =>
        cases node with
        | scalar text => rfl
        | branch entries => exact ih (List.cons_ne_nil _ _) entries

/-- The value of a name is the scalar at the path of the name, one key further. -/
theorem valueAt?_eq_shapeAt? (name : Text) (tree : Tree) :
    valueAt? name tree = (shapeAt? (Text.splitAt '.' name ++ [valueKey]) tree).bind id := by
  rw [shapeAt?, walk?_concat (Text.splitAt_ne_nil '.' name), valueAt?, nodeAt?]
  cases walk? (Text.splitAt '.' name) tree with
  | none => rfl
  | some node =>
    cases node with
    | scalar text => rfl
    | branch entries =>
      show (Entries.get? valueKey entries).bind Node.scalar? =
        ((Entries.get? valueKey entries).map Node.scalar?).bind id
      cases Entries.get? valueKey entries <;> rfl

/-! ## The layers at a path -/

theorem shapeAt?_foldl_of_untouched {trees : List Tree} (hsorted : ∀ tree ∈ trees, Sorted tree)
    (hp : path ≠ []) (base : Tree) (h : ∀ tree ∈ trees, touches path tree = false) :
    shapeAt? path (trees.foldl mergeInto base) = shapeAt? path base := by
  induction trees generalizing base with
  | nil => rfl
  | cons tree trees ih =>
    rw [List.foldl_cons, ih (fun t ht => hsorted t (List.mem_cons_of_mem _ ht)) _
        (fun t ht => h t (List.mem_cons_of_mem _ ht)),
      shapeAt?_mergeInto hp (hsorted tree List.mem_cons_self), h tree List.mem_cons_self]
    rfl

/-- Where no tree touches a path nothing stands. -/
theorem shapeAt?_merge_of_untouched {trees : List Tree} (hsorted : ∀ tree ∈ trees, Sorted tree)
    (hp : path ≠ []) (h : ∀ tree ∈ trees, touches path tree = false) :
    shapeAt? path (merge trees) = none := by
  rw [merge, shapeAt?_foldl_of_untouched hsorted hp [] h]
  cases path with
  | nil => exact absurd rfl hp
  | cons key keys => cases keys <;> rfl

/-- A path looks as in the last tree that touches it. -/
theorem shapeAt?_merge_of_last {before after : List Tree} {top : Tree}
    (hsorted : ∀ tree ∈ before ++ top :: after, Sorted tree) (hp : path ≠ [])
    (htop : touches path top = true) (hafter : ∀ later ∈ after, touches path later = false) :
    shapeAt? path (merge (before ++ top :: after)) = shapeAt? path top := by
  rw [merge, List.foldl_append, List.foldl_cons,
    shapeAt?_foldl_of_untouched (fun t ht => hsorted t (by simp [ht])) hp _ hafter,
    shapeAt?_mergeInto hp (hsorted top (by simp)), if_pos htop]

/-- What stands at a path under a list of trees depends on what stands there below them. -/
theorem shapeAt?_foldl_congr {trees : List Tree} (hsorted : ∀ tree ∈ trees, Sorted tree)
    (hp : path ≠ []) {base other : Tree} (h : shapeAt? path base = shapeAt? path other) :
    shapeAt? path (trees.foldl mergeInto base) = shapeAt? path (trees.foldl mergeInto other) := by
  induction trees generalizing base other with
  | nil => exact h
  | cons tree trees ih =>
    have htree := hsorted tree List.mem_cons_self
    rw [List.foldl_cons, List.foldl_cons]
    apply ih fun t ht => hsorted t (List.mem_cons_of_mem _ ht)
    rw [shapeAt?_mergeInto hp htree, shapeAt?_mergeInto hp htree, h]

/-- A tree that does not touch a path does not count there, wherever it stands in the list. -/
theorem shapeAt?_merge_insert {before after : List Tree} {extra : Tree}
    (hsorted : ∀ tree ∈ before ++ extra :: after, Sorted tree) (hp : path ≠ [])
    (h : touches path extra = false) :
    shapeAt? path (merge (before ++ extra :: after)) = shapeAt? path (merge (before ++ after)) := by
  rw [merge, merge, List.foldl_append, List.foldl_append, List.foldl_cons]
  apply shapeAt?_foldl_congr (fun t ht => hsorted t (by simp [ht])) hp
  rw [shapeAt?_mergeInto hp (hsorted extra (by simp)), h]
  rfl

/-- **Merging a list at one path.**  If no tree touches a path, then nothing stands there in the
merged tree.  Otherwise the last tree that touches it decides: there is a scalar exactly if that
tree has this scalar there, a branch exactly if it has a branch there, and nothing exactly if one
of its scalars ends the way along the path. -/
theorem walk?_merge {trees : List Tree} (hsorted : ∀ tree ∈ trees, Sorted tree)
    {path : List Text} (hp : path ≠ []) :
    ((∀ tree ∈ trees, touches path tree = false) → walk? path (merge trees) = none) ∧
      ∀ before top after, trees = before ++ top :: after → touches path top = true →
        (∀ later ∈ after, touches path later = false) →
        (∀ text, walk? path (merge trees) = some (.scalar text) ↔
          walk? path top = some (.scalar text)) ∧
        ((∃ merged, walk? path (merge trees) = some (.branch merged)) ↔
          ∃ entries, walk? path top = some (.branch entries)) ∧
        (walk? path (merge trees) = none ↔
          ∃ front back text, path = front ++ back ∧ back ≠ [] ∧
            walk? front top = some (.scalar text)) := by
  constructor
  · intro h
    exact Option.map_eq_none_iff.mp (shapeAt?_merge_of_untouched hsorted hp h)
  · rintro before top after rfl htop hafter
    have hshape := shapeAt?_merge_of_last hsorted hp htop hafter
    refine ⟨fun text => ?_, ?_, ?_⟩
    · rw [← shapeAt?_eq_scalar_iff, hshape, shapeAt?_eq_scalar_iff]
    · rw [← shapeAt?_eq_branch_iff, hshape, shapeAt?_eq_branch_iff]
    · rw [← Option.map_eq_none_iff (f := Node.scalar?), ← shapeAt?, hshape, shapeAt?,
        Option.map_eq_none_iff]
      constructor
      · exact exists_scalar_of_touches htop hp
      · rintro ⟨front, back, text, rfl, hback, hscalar⟩
        exact walk?_of_scalar hback hscalar

/-- Four trees of which the second one puts a scalar, and the third one an empty branch, where the
others have branches. -/
def fourLayers : List Tree :=
  [[(['a'], .branch [(['b'], .scalar ['1']), (['c'], .scalar ['2'])])],
    [(['a'], .scalar ['3'])],
    [(['a'], .branch [(['b'], .branch [])])],
    [(['a'], .branch [(['d'], .scalar ['4'])])]]

theorem walk?_merge_fourLayers :
    (∀ tree ∈ fourLayers, Sorted tree) ∧
      (∃ merged, walk? [['a'], ['b']] (merge fourLayers) = some (.branch merged)) ∧
      walk? [['a'], ['c']] (merge fourLayers) = none := by
  have hsorted : ∀ tree ∈ fourLayers, Sorted tree := by decide
  obtain ⟨-, hbranch⟩ := walk?_merge hsorted (show [['a'], ['b']] ≠ [] by decide)
  obtain ⟨-, hcovered⟩ := walk?_merge hsorted (show [['a'], ['c']] ≠ [] by decide)
  obtain ⟨-, hb, -⟩ := hbranch (fourLayers.take 2) _ (fourLayers.drop 3) rfl rfl (by decide)
  obtain ⟨-, -, hc⟩ := hcovered (fourLayers.take 1) _ (fourLayers.drop 2) rfl rfl (by decide)
  exact ⟨hsorted, hb.mpr ⟨[], rfl⟩, hc.mpr ⟨[['a']], [['c']], ['3'], rfl, by decide, rfl⟩⟩

end LayeredConfig.Tree
