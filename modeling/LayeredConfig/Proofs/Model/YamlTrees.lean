import LayeredConfig.Model.Parse
import LayeredConfig.Proofs.Collect
import LayeredConfig.Tree.Key
import LayeredConfig.Yaml.Document

/-!
# What a YAML mapping keeps

The keys of a mapping are different values, but their texts need not be different: the number 1 and
the string `1` become the same key of the tree.  Then the later pair replaces the earlier one, and
nothing tells so.

* `tree_eq_ok_iff` — the tree of a mapping is the map of the entries that its pairs become;
* `get?_tree_of_last` — of the pairs whose keys have one text the last one that is not null counts;
* `keeps_iff` — every pair that is not null is in the tree exactly if the texts of their keys are
  different;
* **`keepsAll_iff`** — both for a mapping with all the mappings in it, level by level;
* `pair_lost` — a mapping with different keys of which one is lost.

Local tags do not count, so a value is null or a mapping with them or without.
-/

namespace LayeredConfig

/-- The nested tree that a list of keys leads to. The empty list leads to the tree itself. -/
def Tree.within? : List Text → Tree → Option Tree
  | [], tree => some tree
  | key :: keys, tree =>
    match Entries.get? key tree with
    | some (.branch entries) => within? keys entries
    | _ => none

theorem Tree.within?_concat (keys : List Text) (key : Text) (tree : Tree) :
    within? (keys ++ [key]) tree =
      (within? keys tree).bind fun entries => (Entries.get? key entries).bind Node.branch? := by
  induction keys generalizing tree with
  | nil =>
    rw [List.nil_append, within?, within?, Option.bind_some]
    cases Entries.get? key tree with
    | none => rfl
    | some node => cases node <;> rfl
  | cons first keys ih =>
    rw [List.cons_append, within?, within?]
    cases Entries.get? first tree with
    | none => rfl
    | some node =>
      cases node with
      | scalar text => rfl
      | branch entries => exact ih entries

namespace Yaml

namespace Value

/-- A value without its local tags. -/
def untagged : Value → Value
  | .tagged _ value => untagged value
  | value => value

/-- Whether a value is null, its tags aside. -/
def isVacant : Value → Bool
  | .null => true
  | .tagged _ value => isVacant value
  | _ => false

end Value

variable {key value : Value} {pairs : List (Value × Value)} {name : Text} {result : Tree}

/-! ## One pair -/

theorem node?_untagged : ∀ value : Value, node? value.untagged = node? value
  | .tagged _ value => node?_untagged value
  | .null | .bool _ | .number _ | .string _ | .sequence _ | .mapping _ => rfl

theorem isVacant_untagged : ∀ value : Value, value.untagged.isVacant = value.isVacant
  | .tagged _ value => isVacant_untagged value
  | .null | .bool _ | .number _ | .string _ | .sequence _ | .mapping _ => rfl

theorem node?_sequence (items : List Value) :
    node? (.sequence items) =
      (items.mapM itemText).map fun texts => some (.scalar (Text.join [','] texts)) := by
  rw [node?]
  cases items.mapM itemText <;> rfl

theorem node?_mapping (pairs : List (Value × Value)) :
    node? (.mapping pairs) = (tree pairs).map fun entries => some (.branch entries) := by
  rw [node?, tree]
  cases treeInto [] pairs <;> rfl

/-- A value becomes nothing exactly if it is null, its tags aside. -/
theorem node?_eq_none_iff : ∀ {value : Value}, node? value = .ok none ↔ value.isVacant = true
  | .tagged _ value => by rw [node?, Value.isVacant]; exact node?_eq_none_iff
  | .sequence items => by rw [node?_sequence, Except.map_eq_ok_iff]; simp [Value.isVacant]
  | .mapping pairs => by rw [node?_mapping, Except.map_eq_ok_iff]; simp [Value.isVacant]
  | .null | .bool _ | .number _ | .string _ => by simp [node?, Value.isVacant]

/-- The entry that a pair becomes. -/
def entryOf? (pair : Value × Value) : Except ModelFault (Option (Text × LayeredConfig.Node)) := do
  let name ← keyText pair.1
  let found ← node? pair.2
  return found.map fun node => (name, node)

theorem entryOf?_eq_ok_iff {pair : Value × Value} {found : Option (Text × LayeredConfig.Node)} :
    entryOf? pair = .ok found ↔ ∃ name node, keyText pair.1 = .ok name ∧ node? pair.2 = .ok node ∧
      found = node.map fun node => (name, node) := by
  rw [entryOf?, Except.bind_eq_ok_iff]
  refine exists_congr fun name => ?_
  rw [exists_and_left, Except.bind_eq_ok_iff]
  simp [pure, Except.pure, eq_comm]

theorem entryOf?_eq_some_iff {pair : Value × Value} {node : LayeredConfig.Node} :
    entryOf? pair = .ok (some (name, node)) ↔
      keyText pair.1 = .ok name ∧ node? pair.2 = .ok (some node) := by
  rw [entryOf?_eq_ok_iff]
  constructor
  · intro h
    obtain ⟨text, found, htext, hfound, heq⟩ := h
    obtain ⟨other, rfl, hpair⟩ := Option.map_eq_some_iff.mp heq.symm
    obtain ⟨rfl, rfl⟩ := Prod.mk.inj hpair
    exact ⟨htext, hfound⟩
  · intro h
    exact ⟨name, some node, h.1, h.2, rfl⟩

/-! ## One mapping -/

theorem treeInto_eq_collect (pairs : List (Value × Value)) (map : Tree) :
    treeInto map pairs = Entries.collect entryOf? map pairs := by
  induction pairs generalizing map with
  | nil => rfl
  | cons pair rest ih =>
    obtain ⟨key, value⟩ := pair
    rw [treeInto, Entries.collect, entryOf?]
    cases keyText key with
    | error fault => rfl
    | ok name =>
      cases node? value with
      | error fault => rfl
      | ok found =>
        cases found with
        | none => exact ih map
        | some node => exact ih (Entries.insert name node map)

/-- The tree of a mapping is the map of the entries that its pairs become. -/
theorem tree_eq_ok_iff :
    tree pairs = .ok result ↔
      (∀ pair ∈ pairs, ∃ found, entryOf? pair = .ok found) ∧
        result = Entries.ofList (Entries.entriesOf entryOf? pairs) := by
  rw [tree, treeInto_eq_collect, Entries.collect_eq_ok_iff]
  rfl

/-- A pair that is not null becomes an entry. -/
theorem exists_entry (h : tree pairs = .ok result) {pair : Value × Value} (hmem : pair ∈ pairs)
    (hvalue : pair.2.isVacant = false) :
    ∃ name node, keyText pair.1 = .ok name ∧ node? pair.2 = .ok (some node) := by
  obtain ⟨found, hfound⟩ := (tree_eq_ok_iff.mp h).1 pair hmem
  obtain ⟨name, node, hname, hnode, -⟩ := entryOf?_eq_ok_iff.mp hfound
  cases node with
  | none =>
    rw [node?_eq_none_iff.mp hnode] at hvalue
    simp at hvalue
  | some node => exact ⟨name, node, hname, hnode⟩

/-- Only a pair that is not null becomes an entry. -/
theorem isVacant_of_node? {node : LayeredConfig.Node} (h : node? value = .ok (some node)) :
    value.isVacant = false := by
  rw [← Bool.not_eq_true, ← node?_eq_none_iff, h]
  simp

/-- **The last pair of a text counts.**  A pair that is not null is in the tree if no later one that
is not null has a key of the same text. -/
theorem get?_tree_of_last {before after : List (Value × Value)}
    (h : tree (before ++ (key, value) :: after) = .ok result) (hvalue : value.isVacant = false)
    (hlast : ∀ later ∈ after, later.2.isVacant = false → keyText later.1 ≠ keyText key) :
    ∃ name node, keyText key = .ok name ∧ node? value = .ok (some node) ∧
      Entries.get? name result = some node := by
  have hmem : (key, value) ∈ before ++ (key, value) :: after := by simp
  obtain ⟨name, node, hname, hnode⟩ := exists_entry h hmem hvalue
  refine ⟨name, node, hname, hnode, ?_⟩
  have hentry : entryOf? (key, value) = .ok (some (name, node)) :=
    entryOf?_eq_some_iff.mpr ⟨hname, hnode⟩
  have hsplit : Entries.entriesOf entryOf? (before ++ (key, value) :: after) =
      Entries.entriesOf entryOf? before ++ (name, node) :: Entries.entriesOf entryOf? after := by
    rw [Entries.entriesOf, List.filterMap_append]
    exact congrArg _ (Entries.entriesOf_cons hentry after)
  rw [(tree_eq_ok_iff.mp h).2, hsplit]
  apply Entries.get?_ofList_of_last
  intro hmem
  obtain ⟨⟨text, other⟩, hother, rfl⟩ := List.mem_map.mp hmem
  obtain ⟨later, hlater, hfound⟩ := Entries.mem_entriesOf.mp hother
  obtain ⟨htext, hnode'⟩ := entryOf?_eq_some_iff.mp hfound
  exact hlast later hlater (isVacant_of_node? hnode') (htext.trans hname.symm)

/-! ## Nothing is lost -/

/-- The pairs of a mapping that are not null. -/
def present (pairs : List (Value × Value)) : List (Value × Value) :=
  pairs.filter fun pair => !pair.2.isVacant

/-- The keys of the pairs that are not null have different texts. -/
def TextsDiffer (pairs : List (Value × Value)) : Prop :=
  (present pairs).Pairwise fun pair other => keyText pair.1 ≠ keyText other.1

instance (pairs : List (Value × Value)) : Decidable (TextsDiffer pairs) :=
  inferInstanceAs (Decidable (List.Pairwise _ _))

/-- A tree has all pairs of a mapping that are not null: under the text of its key each of them has
the node that its value becomes, and there are as many keys. -/
structure Keeps (pairs : List (Value × Value)) (entries : Tree) : Prop where
  get?_eq : ∀ pair ∈ present pairs, ∃ name node, keyText pair.1 = .ok name ∧
    node? pair.2 = .ok (some node) ∧ Entries.get? name entries = some node
  length_eq : entries.length = (present pairs).length

theorem mem_present {pair : Value × Value} :
    pair ∈ present pairs ↔ pair ∈ pairs ∧ pair.2.isVacant = false := by
  rw [present, List.mem_filter, Bool.not_eq_true']

theorem length_entriesOf (h : ∀ pair ∈ pairs, ∃ found, entryOf? pair = .ok found) :
    (Entries.entriesOf entryOf? pairs).length = (present pairs).length := by
  induction pairs with
  | nil => rfl
  | cons pair rest ih =>
    obtain ⟨found, hfound⟩ := h pair List.mem_cons_self
    obtain ⟨name, node, hname, hnode, rfl⟩ := entryOf?_eq_ok_iff.mp hfound
    have hrest := ih fun other hother => h other (List.mem_cons_of_mem _ hother)
    rw [Entries.entriesOf_cons hfound, List.length_append, hrest]
    cases node with
    | none => simp [present, node?_eq_none_iff.mp hnode]
    | some node => simp [present, isVacant_of_node? hnode, Nat.add_comm]

/-- The texts of the keys differ exactly if the entries have different keys. -/
theorem textsDiffer_iff (h : tree pairs = .ok result) :
    TextsDiffer pairs ↔ ((Entries.entriesOf entryOf? pairs).map Prod.fst).Nodup := by
  rw [Entries.nodup_entriesOf_iff, TextsDiffer, present, List.pairwise_filter]
  constructor
  · refine fun hdiffer => hdiffer.imp ?_
    intro pair other hne entry hentry later hlater
    obtain ⟨hname, hnode⟩ := entryOf?_eq_some_iff.mp hentry
    obtain ⟨hname', hnode'⟩ := entryOf?_eq_some_iff.mp hlater
    intro heq
    exact hne (by simp [isVacant_of_node? hnode]) (by simp [isVacant_of_node? hnode'])
      (hname.trans (heq ▸ hname'.symm))
  · refine fun hdiffer => hdiffer.imp_of_mem ?_
    intro pair other hpair hother hne hvalue hvalue' heq
    obtain ⟨name, node, hname, hnode⟩ := exists_entry h hpair (by simpa using hvalue)
    obtain ⟨name', node', hname', hnode'⟩ := exists_entry h hother (by simpa using hvalue')
    have hsame : name = name' := Except.ok.inj (hname.symm.trans (heq.trans hname'))
    exact hne _ (entryOf?_eq_some_iff.mpr ⟨hname, hnode⟩)
      _ (entryOf?_eq_some_iff.mpr ⟨hname', hnode'⟩) hsame

/-- **One mapping loses nothing exactly if the texts of its keys differ.** -/
theorem keeps_iff (h : tree pairs = .ok result) : Keeps pairs result ↔ TextsDiffer pairs := by
  obtain ⟨hall, hresult⟩ := tree_eq_ok_iff.mp h
  rw [textsDiffer_iff h]
  constructor
  · intro hkeeps
    have hlength := hkeeps.length_eq
    rw [hresult, ← length_entriesOf hall] at hlength
    exact Entries.length_ofList_eq_iff.mp hlength
  · intro hnodup
    refine ⟨fun pair hpair => ?_, ?_⟩
    · obtain ⟨hmem, hvalue⟩ := mem_present.mp hpair
      obtain ⟨name, node, hname, hnode⟩ := exists_entry h hmem hvalue
      refine ⟨name, node, hname, hnode, ?_⟩
      rw [hresult, Entries.get?_ofList_iff hnodup]
      exact Entries.mem_entriesOf.mpr ⟨pair, hmem, entryOf?_eq_some_iff.mpr ⟨hname, hnode⟩⟩
    · rw [hresult, ← length_entriesOf hall]
      exact Entries.length_ofList_eq_iff.mpr hnodup

/-! ## All levels -/

/-- The mappings in a mapping with the texts of the keys that lead to them: the mapping itself, and
what is below one of them as the value of a pair, with tags or without. -/
inductive LevelAt (pairs : List (Value × Value)) : List Text → List (Value × Value) → Prop
  | root : LevelAt pairs [] pairs
  | nested {path : List Text} {level inner : List (Value × Value)} {key value : Value}
      {name : Text} : LevelAt pairs path level → (key, value) ∈ level → keyText key = .ok name →
      value.untagged = .mapping inner → LevelAt pairs (path ++ [name]) inner

/-- Where nothing is lost at a level, the mappings below it are in the tree. -/
theorem within?_nested {path : List Text} {level inner : List (Value × Value)} {entries : Tree}
    (hplace : Tree.within? path result = some entries) (hkeeps : Keeps level entries)
    (hmem : (key, value) ∈ level) (hname : keyText key = .ok name)
    (hinner : value.untagged = .mapping inner) :
    ∃ nested, tree inner = .ok nested ∧ Tree.within? (path ++ [name]) result = some nested := by
  have hvalue : value.isVacant = false := by
    rw [← isVacant_untagged, hinner]
    rfl
  obtain ⟨text, node, htext, hnode, hget⟩ := hkeeps.get?_eq _ (mem_present.mpr ⟨hmem, hvalue⟩)
  obtain rfl : text = name := Except.ok.inj (htext.symm.trans hname)
  rw [← node?_untagged, hinner, node?_mapping] at hnode
  obtain ⟨nested, hnested, heq⟩ := Except.map_eq_ok_iff.mp hnode
  obtain rfl := Option.some.inj heq
  refine ⟨nested, hnested, ?_⟩
  rw [Tree.within?_concat, hplace, Option.bind_some, hget]
  rfl

/-- **What a mapping keeps.**  Let a mapping have a tree.  Of its pairs that are not null and whose
keys have one text the last one is in the tree.  At every level all pairs that are not null are
kept, each mapping being converted to the nested tree at its place, if and only if at every level
the keys of these pairs have different texts. -/
theorem keepsAll_iff (h : tree pairs = .ok result) :
    (∀ before key value after, pairs = before ++ (key, value) :: after →
      value.isVacant = false →
      (∀ later ∈ after, later.2.isVacant = false → keyText later.1 ≠ keyText key) →
      ∃ name node, keyText key = .ok name ∧ node? value = .ok (some node) ∧
        Entries.get? name result = some node) ∧
    ((∀ path level, LevelAt pairs path level → ∃ entries, tree level = .ok entries ∧
        Tree.within? path result = some entries ∧ Keeps level entries) ↔
      ∀ path level, LevelAt pairs path level → TextsDiffer level) := by
  refine ⟨?_, ?_, ?_⟩
  · intro before key value after hsplit hvalue hlast
    subst hsplit
    exact get?_tree_of_last h hvalue hlast
  · intro hkept path level hlevel
    obtain ⟨entries, hentries, -, hkeeps⟩ := hkept path level hlevel
    exact (keeps_iff hentries).mp hkeeps
  · intro hdiffer path level hlevel
    induction hlevel with
    | root => exact ⟨result, h, rfl, (keeps_iff h).mpr (hdiffer [] pairs .root)⟩
    | nested hlevel hmem hname hinner ih =>
      obtain ⟨entries, -, hplace, hkeeps⟩ := ih
      obtain ⟨nested, hnested, hbelow⟩ := within?_nested hplace hkeeps hmem hname hinner
      have hhere := hdiffer _ _ (.nested hlevel hmem hname hinner)
      exact ⟨nested, hnested, hbelow, (keeps_iff hnested).mpr hhere⟩

/-- A mapping with two keys of one text, of which one is null. -/
def switches : List (Value × Value) :=
  [(.bool true, .null), (.string "true".toList, .string ['x'])]

/-- A mapping with that one in it, under a number and behind a tag. -/
def ports : List (Value × Value) :=
  [(.number (.integer 80), .tagged ['t'] (.mapping switches)),
    (.string ['p'], .sequence [.null, .bool false])]

theorem keepsAll_iff_ports :
    ∃ result, tree ports = .ok result ∧ ∃ entries,
      Tree.within? [['8', '0']] result = some entries ∧ Keeps switches entries := by
  have hlevels : ∀ path level, LevelAt ports path level → level = ports ∨ level = switches := by
    intro path level hlevel
    induction hlevel with
    | root => exact Or.inl rfl
    | nested _ hmem _ hinner ih =>
      rcases ih with rfl | rfl
      · rcases List.mem_pair.mp hmem with heq | heq
        · obtain ⟨rfl, rfl⟩ := Prod.mk.inj heq
          exact Or.inr (Value.mapping.inj hinner).symm
        · obtain ⟨rfl, rfl⟩ := Prod.mk.inj heq
          simp [Value.untagged] at hinner
      · rcases List.mem_pair.mp hmem with heq | heq <;>
        · obtain ⟨rfl, rfl⟩ := Prod.mk.inj heq
          simp [Value.untagged] at hinner
  have hdiffer : ∀ path level, LevelAt ports path level → TextsDiffer level := by
    intro path level hlevel
    rcases hlevels path level hlevel with rfl | rfl <;> decide
  have hplace : LevelAt ports [['8', '0']] switches :=
    .nested .root List.mem_cons_self rfl rfl
  obtain ⟨result, htree⟩ : ∃ result, tree ports = .ok result := ⟨_, rfl⟩
  obtain ⟨-, hkept⟩ := keepsAll_iff htree
  obtain ⟨entries, -, hwithin, hkeeps⟩ := hkept.mpr hdiffer _ _ hplace
  exact ⟨result, htree, entries, hwithin, hkeeps⟩

/-- Two different keys with one text. -/
def collision : List (Value × Value) :=
  [(.number (.integer 1), .string ['a']), (.string ['1'], .string ['b'])]

/-- **A pair is lost.**  The keys are different and the mapping has a tree, but the first pair is
not in it. -/
theorem pair_lost :
    keysDiffer collision = true ∧ tree collision = .ok [(['1'], .scalar ['b'])] ∧
      ¬Keeps collision [(['1'], .scalar ['b'])] :=
  ⟨by decide, rfl, fun hkeeps => absurd hkeeps.length_eq (by decide)⟩

end Yaml

end LayeredConfig
