import LayeredConfig.Text.Basic

/-!
# Configuration trees

A tree maps keys to nodes, and a node is a scalar text or a tree again. `Tree.Sorted` says that
the keys increase at every level, so that equal trees are equal data. A configuration is made by
laying trees over each other.
-/

namespace LayeredConfig

/-- A node of a configuration tree. -/
inductive Node where
  /-- A value. -/
  | scalar (text : Text)
  /-- The entries of a nested tree. -/
  | branch (entries : List (Text × Node))
  deriving Inhabited

/-- A tree is the list of its entries. -/
abbrev Tree := Entries Node

namespace Node

/-- The text of a scalar. -/
def scalar? : Node → Option Text
  | .scalar text => some text
  | .branch _ => none

/-- The entries of a nested tree. -/
def branch? : Node → Option Tree
  | .scalar _ => none
  | .branch entries => some entries

end Node

namespace Tree

mutual

/-- A node in which the keys of every level increase strictly. -/
def SortedNode : Node → Prop
  | .scalar _ => True
  | .branch entries => Entries.Increasing entries ∧ SortedEntries entries

/-- Entries whose nodes are sorted. -/
def SortedEntries : List (Text × Node) → Prop
  | [] => True
  | (_, node) :: rest => SortedNode node ∧ SortedEntries rest

end

/-- A tree in which the keys of every level increase strictly. -/
def Sorted (tree : Tree) : Prop :=
  Entries.Increasing tree ∧ SortedEntries tree

end Tree

/-!
## Merging

Trees are laid over each other from left to right. Where both sides hold a nested tree the two
are merged, and in every other case the later node replaces the earlier one.
-/

mutual

/-- A node laid over the one that its key held before. -/
def Node.over : (old new : Node) → Node
  | .branch old, .branch new => .branch (Tree.mergeInto old new)
  | _, new => new
termination_by structural _ new => new

/-- A tree with the entries of a second one laid over it. -/
def Tree.mergeInto (base : Tree) : (later : Tree) → Tree
  | [] => base
  | (key, node) :: rest =>
    let merged :=
      match Entries.get? key base with
      | some old => Node.over old node
      | none => node
    Tree.mergeInto (Entries.insert key merged base) rest
termination_by structural later => later

end

/-- The trees of a list laid over each other, the last one on top. -/
def Tree.merge (trees : List Tree) : Tree :=
  trees.foldl Tree.mergeInto []

end LayeredConfig
