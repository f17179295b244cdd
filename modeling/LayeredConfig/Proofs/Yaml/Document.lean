import LayeredConfig.Model.Parse
import LayeredConfig.Proofs.Collect
import LayeredConfig.Proofs.Tree.Merge
import LayeredConfig.Proofs.Yaml.TreeTokens
import Mathlib.Data.List.Forall2

/-!
# From the tokens of a tree to the tree

The tokens of a printed tree make a document of mappings and strings without labels and tags, the
document has a value, and the value is the tree again.  Each step goes along the tree.  Main
statements:

* `readNode?_nodeTokens`, `document?_nodeTokens` — the tokens make the document of the tree, with
  one step of fuel for each token;
* `valueOf_documentNode` — the value of the document, where collections may be nested deep enough;
  the keys of a mapping differ because they are in order;
* `treeInto_ofEntries` — the pairs of the mapping are the entries of the tree again;
* **`parse_of_tokens`** — a file with the tokens of a tree is read as the tree.
-/

namespace LayeredConfig.Yaml

variable {handles : Handles} {fuel : Nat} {rest : List Token}

/-! ## The document -/

/-- A scalar without label and tag. -/
def scalarNode {ι : Type} (text : Text) : Node ι :=
  .scalar ⟨none, none⟩ (decide (scalarStyle text = .plain)) text

mutual

/-- The node of a document that a node is printed as. -/
def documentNode {ι : Type} : LayeredConfig.Node → Node ι
  | .scalar text => scalarNode text
  | .branch entries => .mapping ⟨none, none⟩ (documentPairs entries)

/-- The pairs of a mapping that entries are printed as. -/
def documentPairs {ι : Type} : List (Text × LayeredConfig.Node) → List (Node ι × Node ι)
  | [] => []
  | (key, node) :: rest => (scalarNode key, documentNode node) :: documentPairs rest

end

theorem endsBlockValue_nodeTokens (node : LayeredConfig.Node) (rest : List Token) :
    endsBlockValue (nodeTokens node ++ rest) = false := by
  cases node with
  | scalar text => rw [nodeTokens]; rfl
  | branch entries =>
    cases entries with
    | nil => rw [nodeTokens]; rfl
    | cons entry entries => rw [nodeTokens]; rfl

theorem readNode?_scalarToken (hfuel : 0 < fuel) (unindented : Bool) (text : Text) :
    readNode? handles fuel true unindented (scalarToken text :: rest) =
      some (scalarNode text, rest) := by
  obtain ⟨fuel, rfl⟩ := Nat.exists_eq_add_of_lt hfuel
  rw [scalarToken, Nat.zero_add, readNode?]
  · rfl
  · simp

mutual

/-- The tokens of a node are read as the node. -/
theorem readNode?_nodeTokens (handles : Handles) (unindented : Bool) :
    ∀ (node : LayeredConfig.Node) {fuel : Nat} (rest : List Token),
      (nodeTokens node).length ≤ fuel →
        readNode? handles fuel true unindented (nodeTokens node ++ rest) =
          some (documentNode node, rest)
  | .scalar text, fuel, rest, hfuel => by
    rw [nodeTokens] at hfuel ⊢
    exact readNode?_scalarToken hfuel unindented text
  | .branch [], fuel, rest, hfuel => by
    rw [nodeTokens] at hfuel ⊢
    obtain ⟨fuel, rfl⟩ : ∃ n, fuel = n + 2 := Nat.exists_eq_add_of_le' hfuel
    rw [List.cons_append, readNode?]
    · rfl
    · simp
  | .branch (entry :: entries), fuel, rest, hfuel => by
    rw [nodeTokens] at hfuel ⊢
    simp only [List.length_cons, List.length_append] at hfuel
    obtain ⟨fuel, rfl⟩ : ∃ n, fuel = n + 1 := ⟨fuel - 1, by omega⟩
    have hfuel' : (entryTokens (entry :: entries)).length < fuel :=
      Nat.lt_of_succ_le (by simpa using hfuel)
    have hpairs : readBlockPairs? handles fuel
        (entryTokens (entry :: entries) ++ .blockEnd :: rest) =
          some (documentPairs (entry :: entries), rest) :=
      readBlockPairs?_entryTokens handles (entry :: entries) rest hfuel'
    rw [List.cons_append, List.append_assoc, List.singleton_append, readNode?,
      show readProperties? handles (.blockMappingStart :: _) = some (⟨none, none⟩, _) from rfl]
    · simp only [Option.bind_eq_bind, Option.bind_some, if_true, hpairs]
      rfl
    · simp

/-- The tokens of entries are read as the pairs of a block mapping. -/
theorem readBlockPairs?_entryTokens (handles : Handles) :
    ∀ (entries : List (Text × LayeredConfig.Node)) {fuel : Nat} (rest : List Token),
      (entryTokens entries).length < fuel →
        readBlockPairs? handles fuel (entryTokens entries ++ .blockEnd :: rest) =
          some (documentPairs entries, rest)
  | [], fuel, rest, hfuel => by
    obtain ⟨fuel, rfl⟩ : ∃ n, fuel = n + 1 := ⟨fuel - 1, by omega⟩
    rw [entryTokens, List.nil_append, readBlockPairs?]
    rfl
  | (key, node) :: entries, fuel, rest, hfuel => by
    rw [entryTokens] at hfuel ⊢
    simp only [List.length_cons, List.length_append] at hfuel
    obtain ⟨fuel, rfl⟩ : ∃ n, fuel = n + 1 := ⟨fuel - 1, by omega⟩
    have hvalue : readNode? handles fuel true true
        (nodeTokens node ++ (entryTokens entries ++ .blockEnd :: rest)) =
          some (documentNode node, entryTokens entries ++ .blockEnd :: rest) :=
      readNode?_nodeTokens handles true node _ (by omega)
    have hpairs : readBlockPairs? handles fuel (entryTokens entries ++ .blockEnd :: rest) =
        some (documentPairs entries, rest) :=
      readBlockPairs?_entryTokens handles entries rest (by omega)
    rw [List.cons_append, readBlockPairs?]
    simp only [List.cons_append, List.append_assoc]
    rw [show endsBlockValue (scalarToken key :: _) = false from rfl, if_neg Bool.false_ne_true,
      readNode?_scalarToken (by omega)]
    simp only [Option.bind_eq_bind, Option.bind_some, endsBlockValue_nodeTokens,
      Bool.false_eq_true, if_false, hvalue, hpairs]
    rfl

end

/-- **The tokens of a tree make the document of the tree.** -/
theorem document?_nodeTokens (tree : Tree) :
    document? (nodeTokens (.branch tree)) = some (documentNode (.branch tree)) := by
  have hread : readNode? defaultHandles (4 * (nodeTokens (.branch tree)).length + 4) true false
      (nodeTokens (.branch tree) ++ []) = some (documentNode (.branch tree), []) :=
    readNode?_nodeTokens defaultHandles false (.branch tree) [] (by omega)
  rw [List.append_nil] at hread
  cases tree with
  | nil => rfl
  | cons entry entries =>
    rw [nodeTokens] at hread ⊢
    rw [document?]
    · rw [show startsExplicitly (.blockMappingStart :: _) = false from rfl,
        if_neg Bool.false_ne_true, hread]
      rfl
    · simp

/-! ## Numbers for labels -/

mutual

theorem number_documentNode (numbering : Node.Numbering) : ∀ node : LayeredConfig.Node,
    Node.number numbering (documentNode node) = some (documentNode node, numbering)
  | .scalar _ => rfl
  | .branch entries => by
    rw [documentNode, Node.number]
    show (Node.numberPairs numbering (documentPairs entries)).bind _ = _
    rw [numberPairs_documentPairs numbering entries]
    rfl

theorem numberPairs_documentPairs (numbering : Node.Numbering) :
    ∀ entries : List (Text × LayeredConfig.Node),
      Node.numberPairs numbering (documentPairs entries) = some (documentPairs entries, numbering)
  | [] => rfl
  | (key, node) :: entries => by
    rw [documentPairs, Node.numberPairs, show Node.number numbering (scalarNode key) =
      some (scalarNode key, numbering) from rfl]
    simp only [Option.bind_eq_bind, Option.bind_some, number_documentNode numbering node,
      numberPairs_documentPairs numbering entries]
    rfl

end

mutual

theorem labelled_documentNode {ι : Type} : ∀ node : LayeredConfig.Node,
    (documentNode node : Node ι).labelled = []
  | .scalar _ => rfl
  | .branch entries => by
    rw [documentNode, Node.labelled, labelledPairs_documentPairs entries]
    rfl

theorem labelledPairs_documentPairs {ι : Type} : ∀ entries : List (Text × LayeredConfig.Node),
    Node.labelledPairs (documentPairs entries : List (Node ι × Node ι)) = []
  | [] => rfl
  | (key, node) :: entries => by
    rw [documentPairs, Node.labelledPairs, labelled_documentNode node,
      labelledPairs_documentPairs entries]
    rfl

end

/-! ## The value -/

mutual

/-- The value of the mapping or the string that a node is printed as. -/
def ofNode : LayeredConfig.Node → Value
  | .scalar text => .string text
  | .branch entries => .mapping (ofEntries entries)

/-- The pairs of the mapping that entries are printed as. -/
def ofEntries : List (Text × LayeredConfig.Node) → List (Value × Value)
  | [] => []
  | (key, node) :: rest => (.string key, ofNode node) :: ofEntries rest

end

/-- A string is read as a string, plain or not. -/
theorem scalarValue?_scalarStyle (text : Text) :
    scalarValue? (decide (scalarStyle text = .plain)) text = some (.string text) := by
  by_cases hplain : scalarStyle text = .plain
  · simp [scalarValue?, hplain, (plainText_of_scalarStyle hplain).isString]
  · simp [scalarValue?, hplain]

theorem exists_of_mem_ofEntries {pair : Value × Value} :
    ∀ {entries : List (Text × LayeredConfig.Node)}, pair ∈ ofEntries entries →
      ∃ entry ∈ entries, pair.1 = .string entry.1
  | [], h => by simp [ofEntries] at h
  | (key, node) :: entries, h => by
    rw [ofEntries] at h
    rcases List.mem_cons.mp h with rfl | h
    · exact ⟨_, List.mem_cons_self, rfl⟩
    · obtain ⟨entry, hentry, hkey⟩ := exists_of_mem_ofEntries h
      exact ⟨entry, List.mem_cons_of_mem _ hentry, hkey⟩

/-- Keys in increasing order differ. -/
theorem keysDiffer_ofEntries : ∀ {entries : List (Text × LayeredConfig.Node)},
    Tree.Sorted entries → keysDiffer (ofEntries entries) = true
  | [], _ => rfl
  | (key, node) :: entries, hsorted => by
    have hkey : ∀ pair ∈ ofEntries entries, (!Value.same (.string key) pair.1) = true := by
      intro pair hpair
      obtain ⟨entry, hentry, hpair⟩ := exists_of_mem_ofEntries hpair
      simp [hpair, Value.same, (hsorted.1.1 entry hentry).ne]
    rw [ofEntries, keysDiffer, keysDiffer_ofEntries hsorted.tail, Bool.and_true]
    exact List.all_eq_true.mpr hkey

theorem mapM_eq_of_forall₂ {α β σ : Type} {f : α → StateT σ Option β} {state : σ} {items : List α}
    {results : List β} (h : List.Forall₂ (fun item result => f item state = some (result, state))
      items results) : items.mapM f state = some (results, state) := by
  induction h with
  | nil => rfl
  | cons hhead _ ih =>
    rw [List.mapM_cons]
    show ((f _ state).bind fun result => (List.mapM f _ result.2).bind _) = _
    rw [hhead, Option.bind_some, ih]
    rfl

theorem valueOf_scalarNode (depth left : Nat) (text : Text) :
    valueOf [] depth false (scalarNode text) left = some (.string text, left) := by
  rw [scalarNode, valueOf.eq_def]
  simp [localTag?, scalarValue?_scalarStyle]

theorem follow_documentNode (node : LayeredConfig.Node) :
    follow [] (documentNode node) = pure (documentNode node) := by
  cases node <;> rfl

mutual

/-- The value of a printed node, where collections may be nested deep enough. -/
theorem valueOf_documentNode (left : Nat) : ∀ (node : LayeredConfig.Node) {depth : Nat},
    node.levels ≤ depth → Tree.SortedNode node →
      valueOf [] depth false (documentNode node) left = some (ofNode node, left)
  | .scalar text, depth, _, _ => valueOf_scalarNode depth left text
  | .branch entries, depth, hlevels, hsorted => by
    rw [LayeredConfig.Node.levels] at hlevels
    obtain ⟨depth, rfl⟩ : ∃ n, depth = n + 1 := ⟨depth - 1, by omega⟩
    have hpairs := values_documentPairs left entries (Nat.le_of_succ_le_succ hlevels) hsorted
    rw [documentNode, valueOf]
    show (List.mapM (m := Counted) _ (documentPairs entries) left).bind _ = _
    rw [mapM_eq_of_forall₂ (hpairs.imp ?_)]
    · rw [Option.bind_some]
      show (if keysDiffer (ofEntries entries) then _ else _ : Counted Value) left = _
      rw [if_pos (keysDiffer_ofEntries hsorted)]
      rfl
    · rintro ⟨_, node⟩ ⟨_, value⟩ ⟨text, rfl, rfl, hfollow, hvalue⟩
      show ((valueOf [] depth false (scalarNode text) left).bind fun key =>
        ((follow [] node key.2).bind _)) = _
      rw [valueOf_scalarNode, Option.bind_some, hfollow]
      show ((valueOf [] depth false node left).bind _) = _
      rw [hvalue]
      rfl

theorem values_documentPairs (left : Nat) :
    ∀ (entries : List (Text × LayeredConfig.Node)) {depth : Nat},
    Tree.levelsBelow entries ≤ depth → Tree.Sorted entries →
      List.Forall₂ (fun (pair : Node Nat × Node Nat) (value : Value × Value) =>
        ∃ text, pair.1 = scalarNode text ∧ value.1 = .string text ∧
          follow [] pair.2 = pure pair.2 ∧
            valueOf [] depth false pair.2 left = some (value.2, left))
        (documentPairs entries) (ofEntries entries)
  | [], _, _, _ => .nil
  | (key, node) :: entries, depth, hlevels, hsorted => by
    rw [Tree.levelsBelow] at hlevels
    refine .cons ⟨key, rfl, rfl, follow_documentNode node,
      valueOf_documentNode left node (by omega) hsorted.2.1⟩
        (values_documentPairs left entries (by omega) hsorted.tail)

end

/-- A text with the tokens of a tree has the value of the tree. -/
theorem read?_of_tokens {text : Text} {tree : Tree}
    (htokens : tokens? text = some (nodeTokens (.branch tree))) (hsorted : tree.Sorted)
    (hlevels : tree.levels ≤ deepest) : read? text = some (ofNode (.branch tree)) := by
  rw [read?, htokens]
  simp only [Option.bind_eq_bind, Option.bind_some, document?_nodeTokens, number_documentNode,
    labelled_documentNode, List.reverse_nil, follow_documentNode]
  show (valueOf [] deepest false (documentNode (.branch tree)) _).bind _ = _
  rw [valueOf_documentNode _ _ hlevels hsorted]
  rfl

/-! ## The tree -/

mutual

theorem node?_ofNode : ∀ node : LayeredConfig.Node, Tree.SortedNode node →
    node? (ofNode node) = .ok (some node)
  | .scalar _, _ => rfl
  | .branch entries, h => by
    rw [ofNode, node?, treeInto_ofEntries entries [] h (by simp)]
    rfl

/-- Entries become pairs and entries again. -/
theorem treeInto_ofEntries : ∀ (entries : List (Text × LayeredConfig.Node)) (before : Tree),
    Tree.Sorted entries → (∀ low ∈ before, ∀ high ∈ entries, low.1 < high.1) →
      treeInto before (ofEntries entries) = .ok (before ++ entries)
  | [], before, _, _ => by
    rw [List.append_nil]
    rfl
  | (key, node) :: entries, before, hsorted, hbefore => by
    have hkey : ∀ low ∈ before, low.1 < key := fun low hlow => hbefore low hlow _ List.mem_cons_self
    rw [ofEntries, treeInto, keyText, node?_ofNode node hsorted.2.1]
    show treeInto (Entries.insert key node before) (ofEntries entries) = _
    rw [Entries.insert_last hkey, treeInto_ofEntries entries _ hsorted.tail
      (Entries.lt_of_mem_concat hkey hsorted.1.1), List.append_assoc, List.singleton_append]

end

/-- **A file with the tokens of a tree is read as the tree.** -/
theorem parse_of_tokens {text : Text} {tree : Tree} (file : Text)
    (htokens : tokens? text = some (nodeTokens (.branch tree))) (hsorted : tree.Sorted)
    (hlevels : tree.levels ≤ deepest) : FileFormat.yaml.parse file text = .ok tree := by
  have htree : Yaml.tree (ofEntries tree) = .ok tree :=
    treeInto_ofEntries tree [] hsorted (by simp)
  rw [FileFormat.parse, Yaml.parse, read?_of_tokens htokens hsorted hlevels]
  exact Except.mapError_eq_ok_iff.mpr htree

end LayeredConfig.Yaml
