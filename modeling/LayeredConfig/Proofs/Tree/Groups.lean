import LayeredConfig.Proofs.Tree.FlatKeys
import Mathlib.Data.List.Pairwise

/-!
# Merging trees in groups

Merging is not associative: a scalar between two branches cuts the first one off if the three are
merged one after the other, but not if the scalar and the last branch are merged first.  Trees
between which this can not happen are *compatible*: no path leads to a scalar in one of them and to
a branch in the other.  Then a path of the merged tree looks as in the last tree that has a node
there, and nothing on the way to it matters.

* `eq_of_shapeAt?_eq` — sorted trees that look the same at every path are the same;
* `shapeAt?_merge_of_compatible` — compatible trees are read from the last one to the first;
* `compatible_single` — the trees of two flat keys are compatible unless the path of one key goes on
  from the end of the path of the other one;
* **`merge_groups`** — compatible trees may be merged in groups, empty trees do not count, nor does
  the last tree if it is there once more, and trees with different scalars may be merged in any
  order.
-/

namespace LayeredConfig.Tree

/-- No path leads to a scalar in one of the trees and to a branch in the other. -/
def Compatible (one other : Tree) : Prop :=
  ∀ path text entries,
    ¬(walk? path one = some (.scalar text) ∧ walk? path other = some (.branch entries)) ∧
      ¬(walk? path one = some (.branch entries) ∧ walk? path other = some (.scalar text))

/-- No path leads to a scalar in both trees. -/
def ScalarsApart (one other : Tree) : Prop :=
  ∀ path text more,
    ¬(walk? path one = some (.scalar text) ∧ walk? path other = some (.scalar more))

variable {path : List Text} {tree one other : Tree}

/-! ## Trees that look the same -/

theorem ne_nil_of_shapeAt? {shape : Option Text} (h : shapeAt? path tree = some shape) :
    path ≠ [] := by
  intro hnil
  rw [hnil, shapeAt?, walk?] at h
  simp at h

/-- What a tree looks like below one of its branches. -/
theorem shapeAt?_cons_of_branch {key : Text} {entries : Tree} (hp : path ≠ [])
    (h : Entries.get? key tree = some (.branch entries)) :
    shapeAt? (key :: path) tree = shapeAt? path entries := by
  obtain ⟨next, keys, rfl⟩ := List.exists_cons_of_ne_nil hp
  rw [shapeAt?_cons_cons, branchAt, h]

/-- **Sorted trees that look the same at every path are the same.**  Key by key; below a key with a
branch in both trees the branches look the same too, and they are smaller. -/
theorem eq_of_shapeAt?_eq (one other : Tree) (hone : Sorted one) (hother : Sorted other)
    (h : ∀ path ≠ [], shapeAt? path one = shapeAt? path other) : one = other := by
  refine Entries.eq_of_get?_eq hone.1 hother.1 fun key => ?_
  have hkey := h [key] (List.cons_ne_nil _ _)
  rw [shapeAt?_singleton, shapeAt?_singleton] at hkey
  cases hget : Entries.get? key one with
  | none =>
    rw [hget, Option.map_none] at hkey
    exact (Option.map_eq_none_iff.mp hkey.symm).symm
  | some node =>
    rw [hget, Option.map_some] at hkey
    obtain ⟨node', hget', hshape⟩ := Option.map_eq_some_iff.mp hkey.symm
    rw [hget']
    cases node with
    | scalar text =>
      cases node' with
      | scalar text' => exact congrArg (some ∘ Node.scalar) (Option.some.inj hshape).symm
      | branch entries' => exact absurd hshape (by simp [Node.scalar?])
    | branch entries =>
      cases node' with
      | scalar text' => exact absurd hshape (by simp [Node.scalar?])
      | branch entries' =>
        have hsmaller : sizeOf entries < sizeOf one := by
          have hmem := List.sizeOf_lt_of_mem (Entries.mem_of_get? hget)
          simp only [Prod.mk.sizeOf_spec, Node.branch.sizeOf_spec] at hmem
          omega
        have hbelow : entries = entries' :=
          eq_of_shapeAt?_eq entries entries' (hone.node hget) (hother.node hget') fun path hp => by
            rw [← shapeAt?_cons_of_branch hp hget, ← shapeAt?_cons_of_branch hp hget',
              h _ (List.cons_ne_nil _ _)]
        rw [hbelow]
termination_by sizeOf one

/-! ## Compatible trees -/

instance : Std.Symm Compatible where
  symm _ _ h path text entries :=
    ⟨fun hboth => (h path text entries).2 hboth.symm,
      fun hboth => (h path text entries).1 hboth.symm⟩

theorem compatible_self (tree : Tree) : Compatible tree tree := by
  intro path text entries
  constructor <;>
  · intro hboth
    have hsame := hboth.1.symm.trans hboth.2
    simp at hsame

/-- In other words, what stands at a path is of one kind. -/
theorem compatible_iff :
    Compatible one other ↔ ∀ path shape shape', shapeAt? path one = some shape →
      shapeAt? path other = some shape' → shape.isSome = shape'.isSome := by
  constructor
  · intro h path shape shape' hone hother
    cases shape with
    | none =>
      obtain ⟨entries, hbranch⟩ := shapeAt?_eq_branch_iff.mp hone
      cases shape' with
      | none => rfl
      | some text =>
        exact absurd ⟨hbranch, shapeAt?_eq_scalar_iff.mp hother⟩ (h path text entries).2
    | some text =>
      cases shape' with
      | some _ => rfl
      | none =>
        obtain ⟨entries, hbranch⟩ := shapeAt?_eq_branch_iff.mp hother
        exact absurd ⟨shapeAt?_eq_scalar_iff.mp hone, hbranch⟩ (h path text entries).1
  · intro h path text entries
    constructor
    · intro hboth
      have hkind := h path _ _ (shapeAt?_eq_scalar_iff.mpr hboth.1)
        (shapeAt?_eq_branch_iff.mpr ⟨entries, hboth.2⟩)
      simp at hkind
    · intro hboth
      have hkind := h path _ _ (shapeAt?_eq_branch_iff.mpr ⟨entries, hboth.1⟩)
        (shapeAt?_eq_scalar_iff.mpr hboth.2)
      simp at hkind

/-- On the way to a node there are branches. -/
theorem exists_branch_of_walk? {front back : List Text} {node : Node} (hfront : front ≠ [])
    (hback : back ≠ []) (h : walk? (front ++ back) tree = some node) :
    ∃ entries, walk? front tree = some (.branch entries) := by
  induction front generalizing tree with
  | nil => exact absurd rfl hfront
  | cons key keys ih =>
    obtain ⟨first, rest, hrest⟩ : ∃ first rest, keys ++ back = first :: rest :=
      List.exists_cons_of_ne_nil (by simp [hback])
    rw [List.cons_append, hrest, walk?] at h
    split at h
    · next entries hget =>
      cases keys with
      | nil => exact ⟨entries, hget⟩
      | cons next keys =>
        obtain ⟨below, hbelow⟩ := ih (List.cons_ne_nil _ _) (hrest ▸ h)
        exact ⟨below, by rw [walk?, hget]; exact hbelow⟩
    · simp at h

/-- A tree that has no node at a path, but a scalar on the way to it, is compatible only with trees
that have no node there either. -/
theorem shapeAt?_of_compatible (h : Compatible one other) (hp : path ≠ [])
    (htouches : touches path one = true) (hnone : shapeAt? path one = none) :
    shapeAt? path other = none := by
  obtain ⟨front, back, text, rfl, hback, hscalar⟩ :=
    exists_scalar_of_touches htouches hp (Option.map_eq_none_iff.mp hnone)
  have hfront : front ≠ [] := ne_nil_of_shapeAt? (shapeAt?_eq_scalar_iff.mpr hscalar)
  cases hwalk : walk? (front ++ back) other with
  | none => rw [shapeAt?, hwalk, Option.map_none]
  | some node =>
    obtain ⟨entries, hbranch⟩ := exists_branch_of_walk? hfront hback hwalk
    exact absurd ⟨hscalar, hbranch⟩ (h front text entries).1

/-- The trees of two paths are compatible unless one path goes on from the end of the other one. -/
theorem compatible_single {keys more : List Text} (hkeys : keys ≠ []) (hmore : more ≠ [])
    (hthere : keys <+: more → keys = more) (hback : more <+: keys → keys = more)
    (value other : Text) : Compatible (single keys value) (single more other) := by
  intro path text entries
  constructor
  · intro hboth
    obtain ⟨rfl, -⟩ := (walk?_single_iff hkeys).mp hboth.1
    have htouches := (touches_iff hkeys).mpr (Or.inl ⟨_, hboth.2⟩)
    obtain rfl := ((touches_single hmore other).mp htouches).elim hthere hback
    have hscalar := hboth.2.symm.trans ((walk?_single_iff hkeys).mpr ⟨rfl, rfl⟩)
    simp at hscalar
  · intro hboth
    obtain ⟨rfl, -⟩ := (walk?_single_iff hmore).mp hboth.2
    have htouches := (touches_iff hmore).mpr (Or.inl ⟨_, hboth.1⟩)
    obtain rfl := ((touches_single hkeys value).mp htouches).elim hback hthere
    have hscalar := hboth.1.symm.trans ((walk?_single_iff hmore).mpr ⟨rfl, rfl⟩)
    simp at hscalar

/-- The trees of two different paths share no scalar. -/
theorem scalarsApart_single {keys more : List Text} (hkeys : keys ≠ []) (hmore : more ≠ [])
    (hne : keys ≠ more) (value other : Text) :
    ScalarsApart (single keys value) (single more other) := by
  intro path text text' hboth
  obtain ⟨rfl, -⟩ := (walk?_single_iff hkeys).mp hboth.1
  exact hne ((walk?_single_iff hmore).mp hboth.2).1

/-! ## Lists of compatible trees -/

/-- Sorted trees that are compatible with each other. -/
structure Stackable (trees : List Tree) : Prop where
  sorted : ∀ tree ∈ trees, Sorted tree
  compatible : ∀ one ∈ trees, ∀ other ∈ trees, Compatible one other

variable {trees : List Tree}

theorem Stackable.subset {part : List Tree} (h : Stackable trees) (hpart : part ⊆ trees) :
    Stackable part where
  sorted tree htree := h.sorted tree (hpart htree)
  compatible one hone other hother := h.compatible one (hpart hone) other (hpart hother)

/-- Compatible trees are read from the last one to the first; the first node that is found at a
path stands there in the merged tree. -/
theorem shapeAt?_merge_of_compatible (h : Stackable trees) (hp : path ≠ []) :
    shapeAt? path (merge trees) = trees.reverse.findSome? (shapeAt? path) := by
  induction trees using List.reverseRecOn with
  | nil => exact shapeAt?_merge_of_untouched h.sorted hp (by simp)
  | append_singleton trees last ih =>
    have hmem : last ∈ trees ++ [last] := by simp
    rw [merge_concat, shapeAt?_mergeInto hp (h.sorted last hmem), List.reverse_concat,
      List.findSome?_cons, ih (h.subset (List.subset_append_left _ _))]
    cases hlast : shapeAt? path last with
    | some shape => rw [if_pos (touches_of_shapeAt? hp hlast)]
    | none =>
      split_ifs with htouches
      · rw [eq_comm, List.findSome?_eq_none_iff]
        intro below hbelow
        have hmem' : below ∈ trees ++ [last] :=
          List.mem_append_left _ (List.mem_reverse.mp hbelow)
        exact shapeAt?_of_compatible (h.compatible last hmem below hmem') hp htouches hlast
      · rfl

/-- What stands at a path of the merged tree stands there in one of the trees. -/
theorem exists_of_shapeAt?_merge (h : Stackable trees) (hp : path ≠ []) {shape : Option Text}
    (hshape : shapeAt? path (merge trees) = some shape) :
    ∃ tree ∈ trees, shapeAt? path tree = some shape := by
  rw [shapeAt?_merge_of_compatible h hp] at hshape
  obtain ⟨tree, htree, heq⟩ := List.exists_of_findSome?_eq_some hshape
  exact ⟨tree, List.mem_reverse.mp htree, heq⟩

/-- Groups of compatible trees are compatible when they are merged. -/
theorem stackable_map_merge {groups : List (List Tree)} (h : Stackable groups.flatten) :
    Stackable (groups.map merge) := by
  have hgroup : ∀ group ∈ groups, Stackable group := fun group hgroup =>
    h.subset fun tree htree => List.mem_flatten_of_mem hgroup htree
  refine ⟨?_, ?_⟩
  · intro tree htree
    obtain ⟨group, hmem, rfl⟩ := List.mem_map.mp htree
    exact sorted_merge (hgroup group hmem).sorted
  · intro merged hmerged rest hrest
    obtain ⟨group, hmem, rfl⟩ := List.mem_map.mp hmerged
    obtain ⟨group', hmem', rfl⟩ := List.mem_map.mp hrest
    rw [compatible_iff]
    intro path shape shape' hshape hshape'
    have hp : path ≠ [] := ne_nil_of_shapeAt? hshape
    obtain ⟨one, hone, hshape⟩ := exists_of_shapeAt?_merge (hgroup group hmem) hp hshape
    obtain ⟨other, hother, hshape'⟩ := exists_of_shapeAt?_merge (hgroup group' hmem') hp hshape'
    have hcompatible := h.compatible one (List.mem_flatten_of_mem hmem hone) other
      (List.mem_flatten_of_mem hmem' hother)
    exact compatible_iff.mp hcompatible path shape shape' hshape hshape'

/-- Reading the merged groups from the last one to the first is reading all trees so. -/
theorem findSome?_map_merge {groups : List (List Tree)} (h : Stackable groups.flatten)
    (hp : path ≠ []) :
    (groups.map merge).reverse.findSome? (shapeAt? path) =
      groups.flatten.reverse.findSome? (shapeAt? path) := by
  induction groups with
  | nil => rfl
  | cons group groups ih =>
    rw [List.flatten_cons] at h
    rw [List.map_cons, List.reverse_cons, List.findSome?_append, List.findSome?_singleton,
      List.flatten_cons, List.reverse_append, List.findSome?_append,
      ih (h.subset (List.subset_append_right _ _)),
      shapeAt?_merge_of_compatible (h.subset (List.subset_append_left _ _)) hp]

/-- Compatible trees may be merged in groups first. -/
theorem merge_map_merge {groups : List (List Tree)} (h : Stackable groups.flatten) :
    merge (groups.map merge) = merge groups.flatten := by
  have hgroups := stackable_map_merge h
  apply eq_of_shapeAt?_eq _ _ (sorted_merge hgroups.sorted) (sorted_merge h.sorted)
  intro path hp
  rw [shapeAt?_merge_of_compatible hgroups hp, findSome?_map_merge h hp,
    shapeAt?_merge_of_compatible h hp]

/-- If different trees have different scalars, then what one of the trees has at a path is what the
merged tree has there. -/
theorem shapeAt?_merge_iff (h : Stackable trees)
    (hapart : ∀ one ∈ trees, ∀ other ∈ trees, one ≠ other → ScalarsApart one other)
    (hp : path ≠ []) {shape : Option Text} :
    shapeAt? path (merge trees) = some shape ↔ ∃ tree ∈ trees, shapeAt? path tree = some shape := by
  constructor
  · exact exists_of_shapeAt?_merge h hp
  · intro hthere
    obtain ⟨tree, htree, hshape⟩ := hthere
    have hfound : (shapeAt? path (merge trees)).isSome = true := by
      rw [shapeAt?_merge_of_compatible h hp, List.findSome?_isSome_iff]
      exact ⟨tree, List.mem_reverse.mpr htree, by rw [hshape]; rfl⟩
    obtain ⟨shape', hmerged⟩ := Option.isSome_iff_exists.mp hfound
    obtain ⟨other, hother, hshape'⟩ := exists_of_shapeAt?_merge h hp hmerged
    have hkind := compatible_iff.mp (h.compatible tree htree other hother) path _ _ hshape hshape'
    rw [hmerged]
    cases shape with
    | none =>
      rw [Option.isSome_none, eq_comm, Option.isSome_eq_false_iff,
        Option.isNone_iff_eq_none] at hkind
      rw [hkind]
    | some text =>
      obtain ⟨text', rfl⟩ := Option.isSome_iff_exists.mp hkind.symm
      by_cases heq : tree = other
      · rw [← hshape', ← heq, hshape]
      · exact absurd ⟨shapeAt?_eq_scalar_iff.mp hshape, shapeAt?_eq_scalar_iff.mp hshape'⟩
          (hapart tree htree other hother heq path text text')

/-- If different trees have different scalars, the order does not matter. -/
theorem merge_perm {order : List Tree} (h : Stackable trees)
    (hapart : ∀ one ∈ trees, ∀ other ∈ trees, one ≠ other → ScalarsApart one other)
    (hperm : order.Perm trees) : merge order = merge trees := by
  have horder := h.subset hperm.subset
  have hapart' : ∀ one ∈ order, ∀ other ∈ order, one ≠ other → ScalarsApart one other :=
    fun one hone other hother => hapart one (hperm.subset hone) other (hperm.subset hother)
  apply eq_of_shapeAt?_eq _ _ (sorted_merge horder.sorted) (sorted_merge h.sorted)
  intro path hp
  apply Option.ext
  intro shape
  rw [shapeAt?_merge_iff horder hapart' hp, shapeAt?_merge_iff h hapart hp]
  simp only [hperm.mem_iff]

/-! ## Trees that do not count -/

/-- An empty tree does not count, wherever it stands. -/
theorem merge_insert_nil {before after : List Tree}
    (hsorted : ∀ tree ∈ before ++ after, Sorted tree) :
    merge (before ++ [] :: after) = merge (before ++ after) := by
  have hmore : ∀ tree ∈ before ++ [] :: after, Sorted tree := by
    intro tree htree
    rcases List.mem_append.mp htree with hmem | hmem
    · exact hsorted tree (List.mem_append_left _ hmem)
    · rcases List.mem_cons.mp hmem with rfl | hmem
      · exact sorted_nil
      · exact hsorted tree (List.mem_append_right _ hmem)
  apply eq_of_shapeAt?_eq _ _ (sorted_merge hmore) (sorted_merge hsorted)
  intro path hp
  obtain ⟨key, keys, rfl⟩ := List.exists_cons_of_ne_nil hp
  exact shapeAt?_merge_insert hmore hp rfl

/-- The last tree changes nothing if it comes once more. -/
theorem merge_concat_last {before : List Tree} {last : Tree}
    (hsorted : ∀ tree ∈ before ++ [last], Sorted tree) :
    merge (before ++ [last] ++ [last]) = merge (before ++ [last]) := by
  have hlast : Sorted last := hsorted last (by simp)
  have hbefore : Sorted (merge (before ++ [last])) := sorted_merge hsorted
  rw [merge_concat]
  apply eq_of_shapeAt?_eq _ _ (sorted_mergeInto _ _ hbefore hlast) hbefore
  intro path hp
  rw [shapeAt?_mergeInto hp hlast]
  split_ifs with htouches
  · rw [merge_concat, shapeAt?_mergeInto hp hlast, if_pos htouches]
  · rfl

/-- **Merging in groups is merging all.**  For pairwise compatible trees the merged list is the
same if consecutive groups are merged first, if empty trees are put in anywhere, and if the last
tree comes once more.  If moreover no path leads to a scalar in two different trees of the list,
then the order of the trees does not matter. -/
theorem merge_groups (hsorted : ∀ tree ∈ trees, Sorted tree)
    (hcompatible : trees.Pairwise Compatible) :
    (∀ groups : List (List Tree), groups.flatten = trees →
      merge (groups.map merge) = merge trees) ∧
    (∀ before after, before ++ after = trees → merge (before ++ [] :: after) = merge trees) ∧
    (∀ before last, before ++ [last] = trees → merge (trees ++ [last]) = merge trees) ∧
    ((∀ one ∈ trees, ∀ other ∈ trees, one ≠ other → ScalarsApart one other) →
      ∀ order : List Tree, order.Perm trees → merge order = merge trees) := by
  have h : Stackable trees := ⟨hsorted, fun _ hone _ hother =>
    hcompatible.forall_of_forall (fun tree _ => compatible_self tree) hone hother⟩
  refine ⟨?_, ?_, ?_, fun hapart order hperm => merge_perm h hapart hperm⟩
  · intro groups hgroups
    subst hgroups
    exact merge_map_merge h
  · intro before after hsplit
    subst hsplit
    exact merge_insert_nil hsorted
  · intro before last hsplit
    subst hsplit
    exact merge_concat_last hsorted

/-- A scalar between two branches: merged with the second branch first, it leaves the first branch
as it was. -/
example :
    shapeAt? [['a'], ['b']] (merge [[(['a'], .branch [(['b'], .scalar [])])],
      [(['a'], .scalar [])], [(['a'], .branch [])]]) = none ∧
    shapeAt? [['a'], ['b']] (merge [[(['a'], .branch [(['b'], .scalar [])])],
      merge [[(['a'], .scalar [])], [(['a'], .branch [])]]]) = some (some []) := by
  decide

/-- The trees of three flat keys, the first of which is given a second value by the last one. -/
def flatLayers : List Tree :=
  [single [['h'], ['n'], valueKey] ['a'], single [['h'], ['p'], valueKey] ['8'],
    single [['h'], ['n'], valueKey] ['b']]

theorem merge_groups_flatLayers :
    ((∀ tree ∈ flatLayers, Sorted tree) ∧ flatLayers.Pairwise Compatible) ∧
      merge ([flatLayers.take 1, [], flatLayers.drop 1].map merge) = merge flatLayers ∧
      merge (flatLayers.take 2).reverse = merge (flatLayers.take 2) := by
  have hsorted : ∀ tree ∈ flatLayers, Sorted tree := by decide
  have hcompatible : flatLayers.Pairwise Compatible := by
    simp only [flatLayers, List.pairwise_cons, List.forall_mem_cons, List.not_mem_nil,
      false_implies, implies_true, and_true, List.Pairwise.nil]
    refine ⟨⟨?_, ?_⟩, ?_⟩ <;>
      exact compatible_single (by decide) (by decide) (by decide) (by decide) _ _
  obtain ⟨hgroups, -, -, -⟩ := merge_groups hsorted hcompatible
  obtain ⟨-, -, -, horder⟩ := merge_groups (fun t ht => hsorted t (List.mem_of_mem_take ht))
    (hcompatible.sublist (List.take_sublist 2 flatLayers))
  refine ⟨⟨hsorted, hcompatible⟩, hgroups _ rfl, horder ?_ _ (List.reverse_perm _)⟩
  intro one hone other hother hne
  simp only [flatLayers, List.take_succ_cons, List.take_zero, List.mem_cons, List.not_mem_nil,
    or_false] at hone hother
  rcases hone with rfl | rfl <;> rcases hother with rfl | rfl
  · exact absurd rfl hne
  · exact scalarsApart_single (by decide) (by decide) (by decide) _ _
  · exact scalarsApart_single (by decide) (by decide) (by decide) _ _
  · exact absurd rfl hne

end LayeredConfig.Tree
