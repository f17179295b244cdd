import LayeredConfig.Yaml.Token.Basic

/-!
# Nodes of a YAML document

A document is a tree of scalars, sequences and mappings, in which a node can carry a label and
another place can refer to it by that label. A tag is kept in full, with its handle replaced by
what it stands for.
-/

namespace LayeredConfig.Yaml

/-- What a node carries besides its content. -/
structure Properties (ι : Type) where
  label : Option ι
  tag : Option Bytes
  deriving Inhabited

/-- A node whose labels are of some type. -/
inductive Node (ι : Type) where
  /-- The node that has a label. -/
  | reference (label : ι)
  /-- A scalar; a plain one is read as what it looks like. -/
  | scalar (properties : Properties ι) (plain : Bool) (text : Text)
  | sequence (properties : Properties ι) (items : List (Node ι))
  | mapping (properties : Properties ι) (pairs : List (Node ι × Node ι))
  deriving Inhabited

namespace Node

variable {ι : Type}

/-- The node that stands where nothing is written. -/
def empty : Node ι :=
  scalar ⟨none, none⟩ true []

/-! ## Size -/

mutual

/-- The number of marks that it takes to list a node: one for a scalar or a reference, two for a
collection besides its content. -/
def marks : Node ι → Nat
  | reference _ => 1
  | scalar .. => 1
  | sequence _ items => marksOfItems items + 2
  | mapping _ pairs => marksOfPairs pairs + 2

/-- The number of marks of a list of nodes. -/
def marksOfItems : List (Node ι) → Nat
  | [] => 0
  | item :: items => marks item + marksOfItems items

/-- The number of marks of a list of pairs of nodes. -/
def marksOfPairs : List (Node ι × Node ι) → Nat
  | [] => 0
  | (key, value) :: pairs => marks key + marks value + marksOfPairs pairs

end

/-! ## Labels -/

mutual

/-- The nodes with a label, with their labels, in the order in which they begin. -/
def labelled : Node ι → List (ι × Node ι)
  | reference _ => []
  | scalar properties plain text =>
    (properties.label.map fun label => (label, scalar properties plain text)).toList
  | sequence properties items =>
    (properties.label.map fun label => (label, sequence properties items)).toList ++
      labelledItems items
  | mapping properties pairs =>
    (properties.label.map fun label => (label, mapping properties pairs)).toList ++
      labelledPairs pairs

/-- The labelled nodes in a list of nodes. -/
def labelledItems : List (Node ι) → List (ι × Node ι)
  | [] => []
  | item :: items => labelled item ++ labelledItems items

/-- The labelled nodes in a list of pairs of nodes. -/
def labelledPairs : List (Node ι × Node ι) → List (ι × Node ι)
  | [] => []
  | (key, value) :: pairs => labelled key ++ labelled value ++ labelledPairs pairs

end

/-- The number that each name stands for so far, the latest meaning first. -/
abbrev Numbering := List (Text × Nat)

/-- A name given once more is numbered by how many different names there are, so a name given
again can come to share its number with the next new name. -/
def Numbering.add (numbering : Numbering) (name : Text) : Nat × Numbering :=
  let known := numbering.filter fun (n, _) => n ≠ name
  (numbering.length, (name, numbering.length) :: known)

/-- The properties of a node with its name replaced by a number. -/
def numberProperties (numbering : Numbering) (properties : Properties Text) :
    Properties Nat × Numbering :=
  match properties.label with
  | none => (⟨none, properties.tag⟩, numbering)
  | some name =>
    let (number, numbering) := numbering.add name
    (⟨some number, properties.tag⟩, numbering)

mutual

/-- A node with its names replaced by numbers in the order in which they are given, unless it
refers to a name that has not been given. -/
def number (numbering : Numbering) : Node Text → Option (Node Nat × Numbering)
  | reference name => (numbering.lookup name).map fun n => (reference n, numbering)
  | scalar properties plain text =>
    let (properties, numbering) := numberProperties numbering properties
    some (scalar properties plain text, numbering)
  | sequence properties items => do
    let (properties, numbering) := numberProperties numbering properties
    let (items, numbering) ← numberItems numbering items
    return (sequence properties items, numbering)
  | mapping properties pairs => do
    let (properties, numbering) := numberProperties numbering properties
    let (pairs, numbering) ← numberPairs numbering pairs
    return (mapping properties pairs, numbering)

/-- A list of nodes with their names replaced by numbers. -/
def numberItems (numbering : Numbering) :
    List (Node Text) → Option (List (Node Nat) × Numbering)
  | [] => some ([], numbering)
  | item :: items => do
    let (item, numbering) ← number numbering item
    let (items, numbering) ← numberItems numbering items
    return (item :: items, numbering)

/-- A list of pairs of nodes with their names replaced by numbers. -/
def numberPairs (numbering : Numbering) :
    List (Node Text × Node Text) → Option (List (Node Nat × Node Nat) × Numbering)
  | [] => some ([], numbering)
  | (key, value) :: pairs => do
    let (key, numbering) ← number numbering key
    let (value, numbering) ← number numbering value
    let (pairs, numbering) ← numberPairs numbering pairs
    return ((key, value) :: pairs, numbering)

end

end Node

end LayeredConfig.Yaml
