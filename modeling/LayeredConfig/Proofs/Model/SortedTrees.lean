import LayeredConfig.Model.Compile
import LayeredConfig.Proofs.Collect
import LayeredConfig.Proofs.Tree.Merge
import Mathlib.Data.List.Forall2

/-!
# The trees of model files are sorted

Whatever the format of a model file and whatever it holds, the keys of its tree increase strictly
at every level.  So no key is there twice, and merging such trees acts key by key.

* `FileFormat.sorted_parse` — each format gives sorted trees;
* `ModelFile.sorted_load` — so does loading a file;
* `ModelFile.loadAll_eq_ok_iff` — several files are loaded one by one, in order.

JSON and YAML trees are built by insertion, property trees by merging one tree for each key.
-/

namespace LayeredConfig

/-! ## Objects and mappings -/

namespace Json

mutual

theorem sorted_node? : ∀ {value : Value} {node : Node}, node? value = .ok (some node) →
    Tree.SortedNode node
  | .null, node, h => by simp [node?] at h
  | .bool value, node, h => by
    simp only [node?, Except.ok.injEq, Option.some.injEq] at h
    exact h ▸ trivial
  | .number value, node, h => by
    simp only [node?, Except.ok.injEq, Option.some.injEq] at h
    exact h ▸ trivial
  | .string text, node, h => by
    simp only [node?, Except.ok.injEq, Option.some.injEq] at h
    exact h ▸ trivial
  | .array items, node, h => by
    rw [node?] at h
    obtain ⟨texts, -, hnode⟩ := Except.bind_eq_ok_iff.mp h
    obtain rfl := Option.some.inj (Except.ok.inj hnode)
    trivial
  | .object members, node, h => by
    rw [node?] at h
    obtain ⟨entries, hentries, hnode⟩ := Except.bind_eq_ok_iff.mp h
    obtain rfl := Option.some.inj (Except.ok.inj hnode)
    exact sorted_treeInto Tree.sorted_nil hentries

/-- Adding the nodes of members keeps a tree sorted. -/
theorem sorted_treeInto : ∀ {members : List (Text × Value)} {before after : Tree},
    Tree.Sorted before → treeInto before members = .ok after → Tree.Sorted after
  | [], before, after, hbefore, h => by
    rw [treeInto] at h
    exact Except.ok.inj h ▸ hbefore
  | (name, value) :: rest, before, after, hbefore, h => by
    rw [treeInto] at h
    obtain ⟨found, hfound, hrest⟩ := Except.bind_eq_ok_iff.mp h
    cases found with
    | none => exact sorted_treeInto hbefore hrest
    | some node =>
      exact sorted_treeInto (Tree.sorted_insert hbefore (sorted_node? hfound) name) hrest

end

end Json

namespace Yaml

mutual

theorem sorted_node? : ∀ {value : Value} {node : LayeredConfig.Node},
    node? value = .ok (some node) → Tree.SortedNode node
  | .null, node, h => by simp [node?] at h
  | .bool value, node, h => by
    simp only [node?, Except.ok.injEq, Option.some.injEq] at h
    exact h ▸ trivial
  | .number value, node, h => by
    simp only [node?, Except.ok.injEq, Option.some.injEq] at h
    exact h ▸ trivial
  | .string text, node, h => by
    simp only [node?, Except.ok.injEq, Option.some.injEq] at h
    exact h ▸ trivial
  | .sequence items, node, h => by
    rw [node?] at h
    obtain ⟨texts, -, hnode⟩ := Except.bind_eq_ok_iff.mp h
    obtain rfl := Option.some.inj (Except.ok.inj hnode)
    trivial
  | .mapping pairs, node, h => by
    rw [node?] at h
    obtain ⟨entries, hentries, hnode⟩ := Except.bind_eq_ok_iff.mp h
    obtain rfl := Option.some.inj (Except.ok.inj hnode)
    exact sorted_treeInto Tree.sorted_nil hentries
  | .tagged tag value, node, h => by
    rw [node?] at h
    exact sorted_node? h

/-- Adding the nodes of pairs keeps a tree sorted. -/
theorem sorted_treeInto : ∀ {pairs : List (Value × Value)} {before after : Tree},
    Tree.Sorted before → treeInto before pairs = .ok after → Tree.Sorted after
  | [], before, after, hbefore, h => by
    rw [treeInto] at h
    exact Except.ok.inj h ▸ hbefore
  | (key, value) :: rest, before, after, hbefore, h => by
    rw [treeInto] at h
    obtain ⟨name, -, hname⟩ := Except.bind_eq_ok_iff.mp h
    obtain ⟨found, hfound, hrest⟩ := Except.bind_eq_ok_iff.mp hname
    cases found with
    | none => exact sorted_treeInto hbefore hrest
    | some node =>
      exact sorted_treeInto (Tree.sorted_insert hbefore (sorted_node? hfound) name) hrest

end

end Yaml

/-! ## Properties -/

theorem Tree.sorted_single (keys : List Text) (value : Text) : Sorted (single keys value) := by
  induction keys with
  | nil => exact sorted_nil
  | cons key keys ih =>
    cases keys with
    | nil => exact ⟨⟨by simp, trivial⟩, trivial, trivial⟩
    | cons next keys => exact ⟨⟨by simp, trivial⟩, ih, trivial⟩

namespace Properties

theorem sorted_expandAll {properties : List (Text × Text)} {trees : List Tree}
    (h : expandAll properties = .ok trees) : ∀ tree ∈ trees, Tree.Sorted tree := by
  induction properties generalizing trees with
  | nil =>
    obtain rfl := Except.ok.inj h
    simp
  | cons property rest ih =>
    obtain ⟨key, value⟩ := property
    rw [expandAll] at h
    split at h
    · exact absurd h (by simp)
    · next first hfirst =>
      obtain ⟨others, hothers, rfl⟩ := Except.map_eq_ok_iff.mp h
      rw [Tree.expand?] at hfirst
      split_ifs at hfirst
      obtain rfl := Option.some.inj hfirst
      exact List.forall_mem_cons.mpr ⟨Tree.sorted_single _ value, ih hothers⟩

theorem sorted_tree {properties : List (Text × Text)} {result : Tree}
    (h : tree properties = .ok result) : Tree.Sorted result := by
  obtain ⟨trees, htrees, rfl⟩ := Except.map_eq_ok_iff.mp h
  exact Tree.sorted_merge (sorted_expandAll htrees)

end Properties

/-! ## Model files -/

/-- **Every format gives sorted trees.** -/
theorem FileFormat.sorted_parse {format : FileFormat} {file content : Text} {result : Tree}
    (h : format.parse file content = .ok result) : Tree.Sorted result := by
  cases format with
  | json =>
    have hparse : Json.parse content = .ok result := Except.mapError_eq_ok_iff.mp h
    rw [Json.parse] at hparse
    split at hparse
    · exact absurd hparse (by simp)
    · exact Json.sorted_treeInto Tree.sorted_nil hparse
    · exact absurd hparse (by simp)
  | yaml =>
    have hparse : Yaml.parse content = .ok result := Except.mapError_eq_ok_iff.mp h
    rw [Yaml.parse] at hparse
    split at hparse
    · exact absurd hparse (by simp)
    · exact Except.ok.inj hparse ▸ Tree.sorted_nil
    · exact Yaml.sorted_treeInto Tree.sorted_nil hparse
    · exact absurd hparse (by simp)
  | properties =>
    simp only [FileFormat.parse] at h
    split at h
    · exact absurd h (by simp)
    · exact Properties.sorted_tree h

namespace ModelFile

theorem sorted_load {file : ModelFile} {fs : FileSystem} {tree : Tree}
    (h : file.load fs = .ok tree) : Tree.Sorted tree := by
  rw [load] at h
  split at h
  · exact Except.ok.inj h ▸ Tree.sorted_nil
  · split at h
    · exact absurd h (by simp)
    · exact FileFormat.sorted_parse h

/-- Loading several files gives the tree of each file, in order. -/
theorem loadAll_eq_ok_iff {fs : FileSystem} {files : List ModelFile} {trees : List Tree} :
    loadAll fs files = .ok trees ↔
      List.Forall₂ (fun file tree => file.load fs = .ok tree) files trees := by
  induction files generalizing trees with
  | nil =>
    rw [loadAll, List.forall₂_nil_left_iff, Except.ok.injEq, eq_comm]
  | cons file files ih =>
    rw [loadAll, List.forall₂_cons_left_iff]
    constructor
    · intro h
      obtain ⟨tree, htree, hrest⟩ := Except.bind_eq_ok_iff.mp h
      obtain ⟨others, hothers, hresult⟩ := Except.bind_eq_ok_iff.mp hrest
      exact ⟨tree, others, htree, ih.mp hothers, (Except.ok.inj hresult).symm⟩
    · intro hloaded
      obtain ⟨tree, others, htree, hothers, rfl⟩ := hloaded
      exact Except.bind_eq_ok_iff.mpr ⟨tree, htree,
        Except.bind_eq_ok_iff.mpr ⟨others, ih.mpr hothers, rfl⟩⟩

end ModelFile

end LayeredConfig
