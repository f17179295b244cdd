import LayeredConfig.Error
import LayeredConfig.Tree.Merge

/-!
# Keys of a configuration

A dotted path names a node of a tree, and a flat key such as `host.name` names the place of a
value. This module reads values at their keys and makes the tree of a list of keys and values.
-/

namespace LayeredConfig

/-!
## Reading a tree

A dotted path names a node by the keys on the way to it. A value lies under the key `value` of
the branch that a path names, and its metadata lies beside that branch, under the same name
followed by `_metadata`.
-/

namespace Tree

/-- The key under which the value of a leaf is stored. -/
def valueKey : Text := "value".toList

/-- What follows a name to make the name of its metadata. -/
def metadataMark : Text := "_metadata".toList

/-- The node that a list of keys leads to. The empty list leads nowhere. -/
def walk? : List Text → Tree → Option Node
  | [], _ => none
  | [key], tree => Entries.get? key tree
  | key :: next :: keys, tree =>
    match Entries.get? key tree with
    | some (.branch entries) => walk? (next :: keys) entries
    | _ => none

/-- The node at a dotted path. -/
def nodeAt? (path : Text) (tree : Tree) : Option Node :=
  walk? (Text.splitAt '.' path) tree

/-- The scalar under `value` in the branch at a dotted path. -/
def valueAt? (path : Text) (tree : Tree) : Option Text := do
  let entries ← (← nodeAt? path tree).branch?
  (← Entries.get? valueKey entries).scalar?

/-- A value together with its metadata. -/
structure Leaf where
  /-- The value. -/
  value : Text
  /-- The scalars among the metadata, by name. -/
  metadata : Entries Text
  deriving DecidableEq

/-- The entries of a tree that are scalars. -/
def scalars (tree : Tree) : Entries Text :=
  tree.filterMap fun (key, node) => node.scalar?.map fun text => (key, text)

/-- The leaf at a dotted path. A leaf without a metadata branch has no metadata. -/
def leafAt? (path : Text) (tree : Tree) : Option Leaf := do
  let value ← valueAt? path tree
  let metadata := ((nodeAt? (path ++ metadataMark) tree).bind Node.branch?).getD []
  return ⟨value, scalars metadata⟩

/-!
## Flat keys

A flat key such as `host.name` stands for the tree with one scalar at the end of the path of its
segments. The value of a key is stored one level deeper, under `value`, except that a key with
`_metadata` in it names the place of its value itself. A key with an empty segment is no key.
-/

/-- The keys from the root to the scalar of a flat key. -/
def keyPath (key : Text) : List Text :=
  let segments := Text.splitAt '.' key
  if Text.includes metadataMark key then segments else segments ++ [valueKey]

/-- The tree with a single scalar, at the end of a list of keys. -/
def single : List Text → (value : Text) → Tree
  | [], _ => []
  | [key], value => [(key, .scalar value)]
  | key :: next :: keys, value => [(key, .branch (single (next :: keys) value))]

/-- The tree of one flat key, unless the key has an empty segment. -/
def expand? (key value : Text) : Option Tree :=
  if (Text.splitAt '.' key).any List.isEmpty then none else some (single (keyPath key) value)

end Tree

/-!
## The tree of a list of properties

Every property is a flat key with its value. The last value of a key counts. Keys are taken in
increasing order, so keys that need each other's place give the same tree in whatever order the
lines are, and the first key in that order that is not valid is the one that is reported.
-/

namespace Properties

/-- The tree of each entry. -/
def expandAll : List (Text × Text) → Except Error (List Tree)
  | [] => .ok []
  | (key, value) :: rest =>
    match Tree.expand? key value with
    | none => .error (.invalidKey key)
    | some tree => (expandAll rest).map (tree :: ·)

/-- The tree of a list of properties. -/
def tree (properties : List (Text × Text)) : Except Error Tree :=
  (expandAll (Entries.ofList properties)).map Tree.merge

end Properties

end LayeredConfig
