import LayeredConfig.Proofs.Entries
import LayeredConfig.Tree.Key
import LayeredConfig.Tree.Merge
import Mathlib.Data.List.Induction

/-!
# What merging trees does at one path

A tree is looked at through one path at a time: `shapeAt?` says whether there is a scalar, a nested
tree or nothing.  A tree *touches* a path if the way along the path does not end at a missing key
(`touches`); a scalar in the middle of the way counts, since it takes the place of all that other
trees have below it.

* **`shapeAt?_mergeInto`** — after laying one tree over another, a path looks as in the upper tree
  if that one touches it, and as in the lower tree otherwise;
* `scalar_merge_iff` — after laying a list of trees over each other, a scalar stands at a path
  exactly if some tree of the list has it there and no later one touches the path;
* `sorted_mergeInto` — merging keeps the keys of every level in increasing order.

The upper tree has to be sorted: its entries are laid down one after the other, so with a key given
twice both entries would leave their mark.
-/

namespace LayeredConfig

namespace Tree

/-! ## Sorted trees -/

theorem sortedEntries_iff {entries : List (Text × Node)} :
    SortedEntries entries ↔ ∀ entry ∈ entries, SortedNode entry.2 := by
  induction entries with
  | nil => simp [SortedEntries]
  | cons entry rest ih =>
    obtain ⟨key, node⟩ := entry
    simp only [SortedEntries, ih, List.forall_mem_cons]

mutual

/-- Whether a node is sorted can be decided. -/
def decidableSortedNode : (node : Node) → Decidable (SortedNode node)
  | .scalar _ => isTrue trivial
  | .branch entries =>
    have := decidableSortedEntries entries
    inferInstanceAs (Decidable (_ ∧ _))

/-- Whether the nodes of entries are sorted can be decided. -/
def decidableSortedEntries : (entries : List (Text × Node)) → Decidable (SortedEntries entries)
  | [] => isTrue trivial
  | (_, node) :: rest =>
    have := decidableSortedNode node
    have := decidableSortedEntries rest
    inferInstanceAs (Decidable (_ ∧ _))

end

instance decidableSorted (tree : Tree) : Decidable (Sorted tree) :=
  have := decidableSortedEntries tree
  inferInstanceAs (Decidable (_ ∧ _))

theorem sorted_nil : Sorted [] := ⟨trivial, trivial⟩

/-- The nodes of a sorted tree are sorted. -/
theorem Sorted.node {tree : Tree} (h : Sorted tree) {key : Text} {node : Node}
    (hget : Entries.get? key tree = some node) : SortedNode node :=
  sortedEntries_iff.mp h.2 _ (Entries.mem_of_get? hget)

theorem Sorted.tail {entry : Text × Node} {rest : Tree} (h : Sorted (entry :: rest)) :
    Sorted rest :=
  ⟨h.1.2, h.2.2⟩

theorem sorted_insert {tree : Tree} (h : Sorted tree) {node : Node} (hnode : SortedNode node)
    (key : Text) : Sorted (Entries.insert key node tree) := by
  refine ⟨Entries.increasing_insert h.1 key node, sortedEntries_iff.mpr ?_⟩
  intro entry hmem
  obtain ⟨k, other⟩ := entry
  rcases Entries.mem_insert hmem with heq | hmem
  · rw [(Prod.mk.inj heq).2]
    exact hnode
  · exact sortedEntries_iff.mp h.2 _ hmem

mutual

theorem sortedNode_over : ∀ (old new : Node), SortedNode old → SortedNode new →
    SortedNode (Node.over old new)
  | .branch old, .branch new, hold, hnew => by
    rw [Node.over]
    exact sorted_mergeInto old new hold hnew
  | .branch _, .scalar _, _, _ => trivial
  | .scalar _, .scalar _, _, _ => trivial
  | .scalar _, .branch _, _, hnew => hnew
termination_by structural _ new => new

/-- Merging keeps the keys of every level in increasing order. -/
theorem sorted_mergeInto : ∀ (base later : Tree), Sorted base → Sorted later →
    Sorted (mergeInto base later)
  | base, [], hbase, _ => hbase
  | base, (key, node) :: rest, hbase, hlater => by
    have hnode : SortedNode node := hlater.2.1
    rw [mergeInto]
    refine sorted_mergeInto _ rest (sorted_insert hbase ?_ key) hlater.tail
    split
    · next old hget => exact sortedNode_over old node (hbase.node hget) hnode
    · exact hnode
termination_by structural _ later => later

end

theorem merge_concat (trees : List Tree) (last : Tree) :
    merge (trees ++ [last]) = mergeInto (merge trees) last := by
  rw [merge, List.foldl_append]
  rfl

theorem sorted_merge {trees : List Tree} (h : ∀ tree ∈ trees, Sorted tree) :
    Sorted (merge trees) := by
  induction trees using List.reverseRecOn with
  | nil => exact sorted_nil
  | append_singleton trees tree ih =>
    rw [merge_concat]
    exact sorted_mergeInto _ tree (ih fun t ht => h t (by simp [ht])) (h tree (by simp))

/-! ## One key -/

theorem mergeInto_cons (base : Tree) (key : Text) (node : Node) (rest : Tree) :
    mergeInto base ((key, node) :: rest) =
      mergeInto (Entries.insert key (match Entries.get? key base with
        | some old => Node.over old node
        | none => node) base) rest :=
  rfl

/-- A tree laid over one whose keys all come before its own is put behind it. -/
theorem mergeInto_append {later : Tree} (hi : Entries.Increasing later) :
    ∀ base : Tree, (∀ low ∈ base, ∀ high ∈ later, low.1 < high.1) →
      mergeInto base later = base ++ later := by
  induction later with
  | nil =>
    intro base _
    rw [List.append_nil]
    rfl
  | cons entry rest ih =>
    obtain ⟨key, node⟩ := entry
    intro base hbase
    have hkey : ∀ low ∈ base, low.1 < key := fun low hlow => hbase low hlow _ List.mem_cons_self
    have hnone : Entries.get? key base = none := by
      rw [Entries.get?_eq_none_iff]
      intro hmem
      obtain ⟨low, hlow, heq⟩ := List.mem_map.mp hmem
      exact absurd (hkey low hlow) (heq ▸ lt_irrefl _)
    rw [mergeInto_cons, hnone, Entries.insert_last hkey, ih hi.2]
    · rw [List.append_assoc, List.singleton_append]
    · exact Entries.lt_of_mem_concat hkey hi.1

/-- A tree laid over nothing is itself. -/
theorem mergeInto_nil {tree : Tree} (hi : Entries.Increasing tree) : mergeInto [] tree = tree :=
  mergeInto_append hi [] (by simp)

/-- The nested tree under a key, empty if there is none. -/
def branchAt (key : Text) (tree : Tree) : Tree :=
  match Entries.get? key tree with
  | some (.branch entries) => entries
  | _ => []

theorem get?_mergeInto_of_none {later : Tree} (hi : Entries.Increasing later) (base : Tree)
    {key : Text} (h : Entries.get? key later = none) :
    Entries.get? key (mergeInto base later) = Entries.get? key base := by
  induction later generalizing base with
  | nil => rfl
  | cons entry rest ih =>
    obtain ⟨name, node⟩ := entry
    rw [Entries.get?_cons] at h
    split_ifs at h with hk
    rw [mergeInto_cons, ih hi.2 _ h, Entries.get?_insert_of_ne hk]

theorem get?_mergeInto_of_some {later : Tree} (hi : Entries.Increasing later) (base : Tree)
    {key : Text} {node : Node} (h : Entries.get? key later = some node) :
    Entries.get? key (mergeInto base later) =
      some (match Entries.get? key base with
        | some old => Node.over old node
        | none => node) := by
  induction later generalizing base with
  | nil => simp [Entries.get?] at h
  | cons entry rest ih =>
    obtain ⟨name, first⟩ := entry
    rw [mergeInto_cons]
    rw [Entries.get?_cons] at h
    by_cases hk : name = key
    · subst hk
      rw [if_pos rfl] at h
      obtain rfl := Option.some.inj h
      rw [get?_mergeInto_of_none hi.2 _ (Entries.get?_eq_none_of_lt hi.1),
        Entries.get?_insert_self]
    · rw [if_neg hk] at h
      rw [ih hi.2 _ h, Entries.get?_insert_of_ne hk]

/-- A scalar takes the place of whatever its key held. -/
theorem get?_mergeInto_scalar {later : Tree} (hi : Entries.Increasing later) (base : Tree)
    {key text : Text} (h : Entries.get? key later = some (.scalar text)) :
    Entries.get? key (mergeInto base later) = some (.scalar text) := by
  rw [get?_mergeInto_of_some hi base h]
  cases Entries.get? key base with
  | none => rfl
  | some old => cases old <;> rfl

/-- A nested tree is laid over the one that its key held, or over nothing. -/
theorem get?_mergeInto_branch {later : Tree} (hlater : Sorted later) (base : Tree) {key : Text}
    {entries : Tree} (h : Entries.get? key later = some (.branch entries)) :
    Entries.get? key (mergeInto base later) =
      some (.branch (mergeInto (branchAt key base) entries)) := by
  have hi : Entries.Increasing entries := (hlater.node h).1
  rw [get?_mergeInto_of_some hlater.1 base h, branchAt]
  cases Entries.get? key base with
  | none => simp only [mergeInto_nil hi]
  | some old =>
    cases old with
    | scalar text => simp only [Node.over, mergeInto_nil hi]
    | branch below => simp only [Node.over]

/-! ## One path -/

/-- What stands at a path: a scalar with its text, or a nested tree, or nothing. -/
def shapeAt? (path : List Text) (tree : Tree) : Option (Option Text) :=
  (walk? path tree).map Node.scalar?

/-- Whether the way along a path does not end at a missing key. -/
def touches : (path : List Text) → Tree → Bool
  | [], _ => true
  | key :: keys, tree =>
    match Entries.get? key tree with
    | none => false
    | some (.scalar _) => true
    | some (.branch entries) => touches keys entries

theorem shapeAt?_singleton (key : Text) (tree : Tree) :
    shapeAt? [key] tree = (Entries.get? key tree).map Node.scalar? := rfl

theorem shapeAt?_cons_cons (key next : Text) (keys : List Text) (tree : Tree) :
    shapeAt? (key :: next :: keys) tree = shapeAt? (next :: keys) (branchAt key tree) := by
  have hnil : walk? (next :: keys) [] = none := by cases keys <;> rfl
  simp only [shapeAt?, walk?, branchAt]
  cases Entries.get? key tree with
  | none => rw [hnil]
  | some node =>
    cases node with
    | scalar text => rw [hnil]
    | branch entries => rfl

theorem shapeAt?_eq_scalar_iff {path : List Text} {tree : Tree} {text : Text} :
    shapeAt? path tree = some (some text) ↔ walk? path tree = some (.scalar text) := by
  rw [shapeAt?, Option.map_eq_some_iff]
  constructor
  · intro hwalk
    obtain ⟨node, hnode, hscalar⟩ := hwalk
    cases node with
    | scalar value => exact hnode.trans (congrArg _ (congrArg _ (Option.some.inj hscalar)))
    | branch entries => simp [Node.scalar?] at hscalar
  · intro h
    exact ⟨_, h, rfl⟩

theorem shapeAt?_of_not_touches {path : List Text} (hp : path ≠ []) {tree : Tree}
    (h : touches path tree = false) : shapeAt? path tree = none := by
  induction path generalizing tree with
  | nil => exact absurd rfl hp
  | cons key keys ih =>
    rw [touches] at h
    cases hget : Entries.get? key tree with
    | none =>
      cases keys with
      | nil => rw [shapeAt?_singleton, hget, Option.map_none]
      | cons next keys => simp only [shapeAt?, walk?, hget, Option.map_none]
    | some node =>
      rw [hget] at h
      cases node with
      | scalar text => simp at h
      | branch entries =>
        cases keys with
        | nil => simp [touches] at h
        | cons next keys =>
          rw [shapeAt?_cons_cons, branchAt, hget]
          exact ih (List.cons_ne_nil _ _) h

theorem touches_of_shapeAt? {path : List Text} (hp : path ≠ []) {tree : Tree}
    {shape : Option Text} (h : shapeAt? path tree = some shape) : touches path tree = true := by
  by_contra hnot
  rw [shapeAt?_of_not_touches hp (by simpa using hnot)] at h
  simp at h

/-- **Merging at one path.**  By induction on the path: at each key the upper tree has nothing, or
a scalar that ends the way, or a nested tree that is merged with what is below it. -/
theorem shapeAt?_mergeInto {path : List Text} (hp : path ≠ []) {later : Tree}
    (hlater : Sorted later) (base : Tree) :
    shapeAt? path (mergeInto base later) =
      if touches path later then shapeAt? path later else shapeAt? path base := by
  induction path generalizing base later with
  | nil => exact absurd rfl hp
  | cons key keys ih =>
    cases hget : Entries.get? key later with
    | none =>
      have hkey := get?_mergeInto_of_none hlater.1 base hget
      rw [if_neg (by simp [touches, hget])]
      cases keys <;> simp only [shapeAt?, walk?, hkey]
    | some node =>
      cases node with
      | scalar text =>
        have hkey := get?_mergeInto_scalar hlater.1 base hget
        rw [if_pos (by simp [touches, hget])]
        cases keys <;> simp only [shapeAt?, walk?, hkey, hget]
      | branch entries =>
        have hkey := get?_mergeInto_branch hlater base hget
        cases keys with
        | nil =>
          rw [if_pos (by simp [touches, hget]), shapeAt?_singleton, shapeAt?_singleton, hkey, hget]
          rfl
        | cons next keys =>
          have hlow : branchAt key later = entries := by rw [branchAt, hget]
          have hmerged : branchAt key (mergeInto base later) =
              mergeInto (branchAt key base) entries := by rw [branchAt, hkey]
          have htouches : touches (key :: next :: keys) later = touches (next :: keys) entries := by
            rw [touches, hget]
          rw [htouches, shapeAt?_cons_cons, shapeAt?_cons_cons, shapeAt?_cons_cons, hlow, hmerged]
          exact ih (List.cons_ne_nil _ _) (hlater.node hget) _

/-- Where an entry of a list with one more at its end stands. -/
theorem split_concat {α : Type} {l before after : List α} {last a : α}
    (h : l ++ [last] = before ++ a :: after) :
    after = [] ∧ a = last ∨ ∃ front, after = front ++ [last] ∧ l = before ++ a :: front := by
  rcases List.eq_nil_or_concat' after with rfl | ⟨front, other, rfl⟩
  · obtain ⟨-, heq⟩ := List.append_inj' h rfl
    exact Or.inl ⟨rfl, (List.head_eq_of_cons_eq heq).symm⟩
  · rw [← List.cons_append, ← List.append_assoc] at h
    obtain ⟨hfront, heq⟩ := List.append_inj' h rfl
    rw [List.head_eq_of_cons_eq heq]
    exact Or.inr ⟨front, rfl, hfront⟩

/-- **Merging a list at one path.**  A scalar stands at a path exactly if some tree has it there
and no later tree of the list touches the path. -/
theorem scalar_merge_iff {trees : List Tree} (hsorted : ∀ tree ∈ trees, Sorted tree)
    {path : List Text} (hp : path ≠ []) {text : Text} :
    shapeAt? path (merge trees) = some (some text) ↔
      ∃ before tree after, trees = before ++ tree :: after ∧
        shapeAt? path tree = some (some text) ∧ ∀ later ∈ after, touches path later = false := by
  induction trees using List.reverseRecOn with
  | nil =>
    have hnone : shapeAt? path ([] : Tree) = none := shapeAt?_of_not_touches hp (by
      cases path with
      | nil => exact absurd rfl hp
      | cons key keys => rfl)
    simp [merge, hnone]
  | append_singleton trees last ih =>
    have hlast : Sorted last := hsorted last (by simp)
    rw [merge_concat, shapeAt?_mergeInto hp hlast]
    split_ifs with ht
    · constructor
      · intro h
        exact ⟨trees, last, [], rfl, h, by simp⟩
      · intro hwinner
        obtain ⟨before, tree, after, hsplit, hshape, hafter⟩ := hwinner
        rcases split_concat hsplit with ⟨-, rfl⟩ | ⟨front, rfl, -⟩
        · exact hshape
        · rw [hafter last (by simp)] at ht
          exact absurd ht (by decide)
    · rw [ih fun tree htree => hsorted tree (by simp [htree])]
      constructor
      · intro hwinner
        obtain ⟨before, tree, after, rfl, hshape, hafter⟩ := hwinner
        refine ⟨before, tree, after ++ [last], by simp, hshape, ?_⟩
        intro later hlater
        rcases List.mem_append.mp hlater with hlater | hlater
        · exact hafter later hlater
        · rw [List.mem_singleton.mp hlater]
          simpa using ht
      · intro hwinner
        obtain ⟨before, tree, after, hsplit, hshape, hafter⟩ := hwinner
        rcases split_concat hsplit with ⟨-, rfl⟩ | ⟨front, rfl, hfront⟩
        · exact absurd (touches_of_shapeAt? hp hshape) ht
        · exact ⟨before, tree, front, hfront, hshape, fun later hlater =>
            hafter later (List.mem_append_left _ hlater)⟩

end Tree

/-!
## Levels

Readers of nested formats admit only so many levels.  A tree counts as one level itself, and each
nested tree as one more, whether it has entries or not; a scalar is no level.
-/

mutual

/-- The number of levels of a node. -/
def Node.levels : Node → Nat
  | .scalar _ => 0
  | .branch entries => Tree.levelsBelow entries + 1

/-- The greatest number of levels of the nodes of some entries. -/
def Tree.levelsBelow : List (Text × Node) → Nat
  | [] => 0
  | (_, node) :: rest => max node.levels (Tree.levelsBelow rest)

end

/-- The number of levels of a tree, the tree itself included. -/
def Tree.levels (tree : Tree) : Nat :=
  (Node.branch tree).levels

end LayeredConfig
