import LayeredConfig.Model.Parse
import LayeredConfig.Proofs.Collect
import LayeredConfig.Proofs.Json.Ordered
import LayeredConfig.Tree.Key

/-!
# What a JSON object means

The tree of an object is read off the object itself: a path leads to a value through objects alone
(`walk?`), and what this value is decides what stands at the path in the tree.

* `Value.Spells` — the text of a scalar, or of an array of scalars;
* `node?_eq_scalar_iff`, `node?_eq_branch_iff`, `node?_eq_none_iff` — what a value becomes;
* `walk?_tree_iff` — each node of the tree is the node of the value at its path;
* `tree_fails_iff` — an object has no tree exactly if objects alone lead to a nested array;
* **`tree_exact`** — the conversion fails exactly if an array that objects lead to holds an array or
  an object, and otherwise branches are objects, scalars are what spells them, and a null is
  nothing.

The loop over the members is `Entries.collect`, so all that is left to say is about one value.  No
name may be there twice in an object (`Value.Ordered`), as holds for all that is read.
-/

namespace LayeredConfig.Json

/-! ## Reading an object by paths -/

/-- The value that a list of names leads to, through objects alone. The empty list leads nowhere. -/
def walk? : List Text → Members → Option Value
  | [], _ => none
  | [name], members => Entries.get? name members
  | name :: next :: names, members =>
    match Entries.get? name members with
    | some (.object inner) => walk? (next :: names) inner
    | _ => none

namespace Value

/-- Whether a value is an array or an object. -/
def isCollection : Value → Bool
  | .array _ => true
  | .object _ => true
  | _ => false

/-- The text of a truth value, a number or a string. -/
def scalarText? : Value → Option Text
  | .bool value => some (boolText value)
  | .number value => some (value.text floatStyle)
  | .string text => some text
  | _ => none

/-- The text of an item of an array: null is the empty text. -/
def elementText? : Value → Option Text
  | .null => some []
  | value => value.scalarText?

/-- The text that a value has in a tree: its own if it is a scalar, and the texts of its items with
commas between them if it is an array. -/
inductive Spells : Value → Text → Prop
  | scalar {value : Value} {text : Text} : value.scalarText? = some text → Spells value text
  | array {items : List Value} {texts : List Text} :
      List.Forall₂ (fun item text => item.elementText? = some text) items texts →
      Spells (.array items) (Text.join [','] texts)

end Value

/-! ## What one value becomes -/

variable {value : Value} {members : Members} {name text : Text} {fault : ModelFault}

theorem itemText_eq_ok_iff : itemText value = .ok text ↔ value.elementText? = some text := by
  cases value <;> simp [itemText, Value.elementText?, Value.scalarText?]

theorem itemText_eq_error_iff :
    itemText value = .error fault ↔ value.isCollection = true ∧ fault = .nestedSequence := by
  cases value <;> simp [itemText, Value.isCollection, eq_comm]

theorem node?_array (items : List Value) :
    node? (.array items) =
      (items.mapM itemText).map fun texts => some (.scalar (Text.join [','] texts)) := by
  rw [node?]
  cases items.mapM itemText <;> rfl

theorem node?_object (members : Members) :
    node? (.object members) = (tree members).map fun entries => some (.branch entries) := by
  rw [node?, tree]
  cases treeInto [] members <;> rfl

theorem node?_eq_none_iff : node? value = .ok none ↔ value = .null := by
  cases value with
  | array items => rw [node?_array, Except.map_eq_ok_iff]; simp
  | object members => rw [node?_object, Except.map_eq_ok_iff]; simp
  | _ => simp [node?]

/-- A value becomes a scalar exactly with the text that it spells. -/
theorem node?_eq_scalar_iff : node? value = .ok (some (.scalar text)) ↔ value.Spells text := by
  have hscalar : value.scalarText? = some text → value.Spells text := .scalar
  constructor
  · intro h
    cases value with
    | null => simp [node?] at h
    | bool value => exact hscalar (by simpa [node?, Value.scalarText?] using h)
    | number value => exact hscalar (by simpa [node?, Value.scalarText?] using h)
    | string text => exact hscalar (by simpa [node?, Value.scalarText?] using h)
    | array items =>
      rw [node?_array] at h
      obtain ⟨texts, htexts, heq⟩ := Except.map_eq_ok_iff.mp h
      obtain rfl := Node.scalar.inj (Option.some.inj heq)
      exact .array ((Except.mapM_eq_ok_iff.mp htexts).imp fun _ _ => itemText_eq_ok_iff.mp)
    | object members =>
      rw [node?_object] at h
      obtain ⟨entries, -, heq⟩ := Except.map_eq_ok_iff.mp h
      simp at heq
  · intro h
    cases h with
    | scalar h =>
      cases value <;> simp [Value.scalarText?] at h <;> simp [node?, h]
    | array h =>
      rw [node?_array]
      exact Except.map_eq_ok_iff.mpr
        ⟨_, Except.mapM_eq_ok_iff.mpr (h.imp fun _ _ => itemText_eq_ok_iff.mpr), rfl⟩

/-- A value becomes a branch exactly if it is an object, and this branch is the tree of it. -/
theorem node?_eq_branch_iff {entries : Tree} :
    node? value = .ok (some (.branch entries)) ↔
      ∃ inner, value = .object inner ∧ tree inner = .ok entries := by
  cases value with
  | array items => rw [node?_array, Except.map_eq_ok_iff]; simp
  | object members => rw [node?_object, Except.map_eq_ok_iff]; simp
  | _ => simp [node?]

/-! ## Members -/

/-- The entry that a member becomes. -/
def entryOf? (member : Text × Value) : Except ModelFault (Option (Text × Node)) :=
  (node? member.2).map fun found => found.map fun node => (member.1, node)

theorem entryOf?_eq_ok_iff {member : Text × Value} {key : Text} {node : Node} :
    entryOf? member = .ok (some (key, node)) ↔
      member.1 = key ∧ node? member.2 = .ok (some node) := by
  rw [entryOf?, Except.map_eq_ok_iff]
  simp [and_comm]

theorem entryOf?_eq_error_iff {member : Text × Value} :
    entryOf? member = .error fault ↔ node? member.2 = .error fault :=
  Except.map_eq_error_iff

theorem treeInto_eq_collect (members : Members) (map : Tree) :
    treeInto map members = Entries.collect entryOf? map members := by
  induction members generalizing map with
  | nil => rfl
  | cons member rest ih =>
    obtain ⟨name, value⟩ := member
    rw [treeInto, Entries.collect, entryOf?]
    cases node? value with
    | error fault => rfl
    | ok found =>
      cases found with
      | none => exact ih map
      | some node => exact ih (Entries.insert name node map)

theorem nodup_entriesOf (hi : Entries.Increasing members) :
    ((Entries.entriesOf entryOf? members).map Prod.fst).Nodup := by
  refine Entries.nodup_entriesOf_iff.mpr ((Entries.increasing_iff_pairwise.mp hi).imp ?_)
  intro member other hlt entry hentry later hlater
  rw [← (entryOf?_eq_ok_iff.mp hentry).1, ← (entryOf?_eq_ok_iff.mp hlater).1]
  exact ne_of_lt hlt

/-- The tree of an object is the map of the entries that its members become. -/
theorem tree_eq_ok_iff {result : Tree} :
    tree members = .ok result ↔
      (∀ member ∈ members, ∃ found, node? member.2 = .ok found) ∧
        result = Entries.ofList (Entries.entriesOf entryOf? members) := by
  rw [tree, treeInto_eq_collect, Entries.collect_eq_ok_iff]
  refine and_congr_left fun _ => forall₂_congr fun member _ => ?_
  constructor
  · intro h
    obtain ⟨found, hfound⟩ := h
    obtain ⟨node, hnode, -⟩ := Except.map_eq_ok_iff.mp hfound
    exact ⟨node, hnode⟩
  · intro h
    obtain ⟨found, hfound⟩ := h
    exact ⟨_, Except.map_eq_ok_iff.mpr ⟨found, hfound, rfl⟩⟩

/-- The tree has under a name what the member of that name becomes. -/
theorem get?_tree_iff (hi : Entries.Increasing members) {result : Tree}
    (h : tree members = .ok result) {node : Node} :
    Entries.get? name result = some node ↔
      ∃ value, Entries.get? name members = some value ∧ node? value = .ok (some node) := by
  rw [(tree_eq_ok_iff.mp h).2, Entries.get?_ofList_iff (nodup_entriesOf hi), Entries.mem_entriesOf]
  constructor
  · intro hmember
    obtain ⟨⟨first, value⟩, hmem, hentry⟩ := hmember
    obtain ⟨rfl, hnode⟩ := entryOf?_eq_ok_iff.mp hentry
    exact ⟨value, Entries.get?_of_mem hi hmem, hnode⟩
  · intro hvalue
    obtain ⟨value, hget, hnode⟩ := hvalue
    exact ⟨(name, value), Entries.mem_of_get? hget, entryOf?_eq_ok_iff.mpr ⟨rfl, hnode⟩⟩

/-! ## Paths -/

/-- In an object that has a tree, each value at a path becomes a node or nothing. -/
theorem node?_of_walk? {path : List Text} {result : Tree} (h : tree members = .ok result)
    (hwalk : walk? path members = some value) : ∃ found, node? value = .ok found := by
  induction path generalizing members result with
  | nil => simp [walk?] at hwalk
  | cons name names ih =>
    have hmember : ∀ {first : Value}, Entries.get? name members = some first →
        ∃ found, node? first = .ok found := fun hget =>
      (tree_eq_ok_iff.mp h).1 _ (Entries.mem_of_get? hget)
    cases names with
    | nil => exact hmember hwalk
    | cons next names =>
      rw [walk?] at hwalk
      split at hwalk
      · next inner hget =>
        obtain ⟨found, hfound⟩ := hmember hget
        rw [node?_object] at hfound
        obtain ⟨entries, hentries, -⟩ := Except.map_eq_ok_iff.mp hfound
        exact ih hentries hwalk
      · simp at hwalk

/-- **Each node of the tree is the node of the value at its path.** -/
theorem walk?_tree_iff {path : List Text} (ho : (Value.object members).Ordered) {result : Tree}
    (h : tree members = .ok result) {node : Node} :
    Tree.walk? path result = some node ↔
      ∃ value, walk? path members = some value ∧ node? value = .ok (some node) := by
  induction path generalizing members result with
  | nil => simp [Tree.walk?, walk?]
  | cons name names ih =>
    have hget : ∀ {node : Node}, Entries.get? name result = some node ↔
        ∃ value, Entries.get? name members = some value ∧ node? value = .ok (some node) :=
      get?_tree_iff ho.increasing h
    cases names with
    | nil => exact hget
    | cons next names =>
      rw [Tree.walk?, walk?]
      constructor
      · intro hwalk
        split at hwalk
        · next entries hbranch =>
          obtain ⟨value, hvalue, hnode⟩ := hget.mp hbranch
          obtain ⟨inner, rfl, hinner⟩ := node?_eq_branch_iff.mp hnode
          rw [hvalue]
          exact (ih (ho.member hvalue) hinner).mp hwalk
        · simp at hwalk
      · intro hvalue
        obtain ⟨value, hwalk, hnode⟩ := hvalue
        split at hwalk
        · next inner hinner =>
          have hwalked : walk? [name] members = some (.object inner) := hinner
          obtain ⟨found, hfound⟩ := node?_of_walk? h hwalked
          rw [node?_object] at hfound
          obtain ⟨entries, hentries, -⟩ := Except.map_eq_ok_iff.mp hfound
          rw [hget.mpr ⟨_, hinner, node?_eq_branch_iff.mpr ⟨inner, rfl, hentries⟩⟩]
          exact (ih (ho.member hinner) hentries).mpr ⟨value, hwalk, hnode⟩
        · simp at hwalk

/-- The branches of the tree are the objects. -/
theorem exists_branch_tree_iff {path : List Text} (ho : (Value.object members).Ordered)
    {result : Tree} (h : tree members = .ok result) :
    (∃ entries, Tree.walk? path result = some (.branch entries)) ↔
      ∃ inner, walk? path members = some (.object inner) := by
  constructor
  · intro hbranch
    obtain ⟨entries, hentries⟩ := hbranch
    obtain ⟨value, hwalk, hnode⟩ := (walk?_tree_iff ho h).mp hentries
    obtain ⟨inner, rfl, -⟩ := node?_eq_branch_iff.mp hnode
    exact ⟨inner, hwalk⟩
  · intro hobject
    obtain ⟨inner, hwalk⟩ := hobject
    obtain ⟨found, hfound⟩ := node?_of_walk? h hwalk
    rw [node?_object] at hfound
    obtain ⟨entries, hentries, -⟩ := Except.map_eq_ok_iff.mp hfound
    exact ⟨entries, (walk?_tree_iff ho h).mpr
      ⟨_, hwalk, node?_eq_branch_iff.mpr ⟨inner, rfl, hentries⟩⟩⟩

/-- The tree has nothing where the object has no value or null. -/
theorem walk?_tree_eq_none_iff {path : List Text} (ho : (Value.object members).Ordered)
    {result : Tree} (h : tree members = .ok result) :
    Tree.walk? path result = none ↔
      walk? path members = none ∨ walk? path members = some .null := by
  constructor
  · intro hnone
    cases hwalk : walk? path members with
    | none => exact Or.inl rfl
    | some value =>
      obtain ⟨found, hfound⟩ := node?_of_walk? h hwalk
      cases found with
      | none => exact Or.inr (congrArg some (node?_eq_none_iff.mp hfound))
      | some node =>
        rw [(walk?_tree_iff ho h).mpr ⟨value, hwalk, hfound⟩] at hnone
        simp at hnone
  · intro hnone
    refine Option.eq_none_iff_forall_ne_some.mpr fun node hnode => ?_
    obtain ⟨value, hwalk, hvalue⟩ := (walk?_tree_iff ho h).mp hnode
    rcases hnone with hnone | hnull
    · rw [hwalk] at hnone
      simp at hnone
    · obtain rfl := Option.some.inj (hwalk.symm.trans hnull)
      simp [node?] at hvalue

/-! ## Faults -/

/-- An array with something else than scalars in it. -/
def NestedArray (value : Value) : Prop :=
  ∃ items, value = .array items ∧ ∃ item ∈ items, item.isCollection = true

/-- Nested arrays are what fails, and nothing else does: a value is one, or it is an object and
objects alone lead from it to one. -/
theorem nestedArray_of_error : ∀ value : Value, value.Ordered → node? value = .error fault →
    fault = .nestedSequence ∧ (NestedArray value ∨
      ∃ inner, value = .object inner ∧ ∃ path nested, walk? path inner = some nested ∧
        NestedArray nested)
  | .array items, _, h => by
    rw [node?_array] at h
    obtain ⟨item, hitem, hfault⟩ := Except.exists_of_mapM_eq_error (Except.map_eq_error_iff.mp h)
    obtain ⟨hcollection, hnested⟩ := itemText_eq_error_iff.mp hfault
    exact ⟨hnested, Or.inl ⟨items, rfl, item, hitem, hcollection⟩⟩
  | .object members, ho, h => by
    rw [node?_object, Except.map_eq_error_iff, tree, treeInto_eq_collect] at h
    obtain ⟨⟨name, value⟩, hmem, hentry⟩ := Entries.exists_of_collect_eq_error h
    have hget := Entries.get?_of_mem ho.increasing hmem
    have hsmaller : sizeOf value < 1 + sizeOf members := by
      have hsize := List.sizeOf_lt_of_mem hmem
      simp only [Prod.mk.sizeOf_spec] at hsize
      omega
    obtain ⟨hnested, hplace⟩ :=
      nestedArray_of_error value (ho.member hget) (entryOf?_eq_error_iff.mp hentry)
    refine ⟨hnested, Or.inr ⟨members, rfl, ?_⟩⟩
    rcases hplace with hhere | ⟨inner, rfl, path, nested, hwalk, hthere⟩
    · exact ⟨[name], value, hget, hhere⟩
    · refine ⟨name :: path, nested, ?_, hthere⟩
      cases path with
      | nil => simp [walk?] at hwalk
      | cons next names => rw [walk?, hget]; exact hwalk
  | .null, _, h | .bool _, _, h | .number _, _, h | .string _, _, h => by simp [node?] at h
termination_by value => sizeOf value

/-- A nested array fails. -/
theorem not_ok_of_nestedArray (h : NestedArray value) {found : Option Node} :
    node? value ≠ .ok found := by
  intro hfound
  obtain ⟨items, rfl, item, hitem, hcollection⟩ := h
  rw [node?_array] at hfound
  obtain ⟨texts, htexts, -⟩ := Except.map_eq_ok_iff.mp hfound
  obtain ⟨text, htext⟩ := Except.exists_of_mapM_eq_ok htexts item hitem
  rw [itemText_eq_error_iff.mpr ⟨hcollection, rfl⟩] at htext
  simp at htext

/-- An object has no tree exactly if objects alone lead to a nested array. -/
theorem tree_fails_iff (ho : (Value.object members).Ordered) :
    (∃ fault, tree members = .error fault) ↔
      ∃ path items, walk? path members = some (.array items) ∧
        ∃ item ∈ items, item.isCollection = true := by
  constructor
  · intro h
    obtain ⟨fault, hfault⟩ := h
    have hnode : node? (.object members) = .error fault := by
      rw [node?_object, hfault]
      rfl
    rcases (nestedArray_of_error _ ho hnode).2 with ⟨items, heq, -⟩ | ⟨inner, heq, hplace⟩
    · simp at heq
    · obtain rfl := Value.object.inj heq
      obtain ⟨path, value, hwalk, items, rfl, hitems⟩ := hplace
      exact ⟨path, items, hwalk, hitems⟩
  · intro h
    obtain ⟨path, items, hwalk, hitems⟩ := h
    cases htree : tree members with
    | error fault => exact ⟨fault, rfl⟩
    | ok result =>
      obtain ⟨found, hfound⟩ := node?_of_walk? htree hwalk
      exact absurd hfound (not_ok_of_nestedArray ⟨items, rfl, hitems⟩)

/-- **The tree of an object, path by path.**  The conversion fails exactly if objects alone lead to
an array that holds an array or an object.  Otherwise there is a branch at a path exactly if the
value there is an object, a scalar exactly with the text that the value there spells, and nothing
exactly if there is no value or null. -/
theorem tree_exact (ho : (Value.object members).Ordered) :
    ((∃ fault, tree members = .error fault) ↔
      ∃ path items, walk? path members = some (.array items) ∧
        ∃ item ∈ items, item.isCollection = true) ∧
    ∀ result, tree members = .ok result → ∀ path,
      ((∃ entries, Tree.walk? path result = some (.branch entries)) ↔
        ∃ inner, walk? path members = some (.object inner)) ∧
      (∀ text, Tree.walk? path result = some (.scalar text) ↔
        ∃ value, walk? path members = some value ∧ value.Spells text) ∧
      (Tree.walk? path result = none ↔
        walk? path members = none ∨ walk? path members = some .null) := by
  refine ⟨tree_fails_iff ho, fun result h path => ⟨?_, ?_, ?_⟩⟩
  · exact exists_branch_tree_iff ho h
  · intro text
    rw [walk?_tree_iff ho h]
    simp only [node?_eq_scalar_iff]
  · exact walk?_tree_eq_none_iff ho h

/-- A null among the members and one among the items, an empty object and an empty array. -/
def mixedObject : Members :=
  [(['a'], .object [(['b'], .array [.null, .number (.integer (-1)), .string ['x']]),
      (['c'], .null)]),
    (['d'], .object []), (['e'], .array [])]

theorem tree_exact_mixedObject :
    (Value.object mixedObject).Ordered ∧ ∃ result, tree mixedObject = .ok result ∧
      Tree.walk? [['a'], ['b']] result = some (.scalar [',', '-', '1', ',', 'x']) ∧
      Tree.walk? [['a'], ['c']] result = none ∧
      ∃ entries, Tree.walk? [['d']] result = some (.branch entries) := by
  have ho : (Value.object mixedObject).Ordered :=
    ⟨by decide, ⟨⟨by decide, ⟨trivial, trivial, trivial, trivial⟩, trivial, trivial⟩,
      ⟨trivial, trivial⟩, trivial, trivial⟩⟩
  obtain ⟨-, hresult⟩ := tree_exact ho
  obtain ⟨-, htext, -⟩ := hresult _ rfl [['a'], ['b']]
  obtain ⟨-, -, hnull⟩ := hresult _ rfl [['a'], ['c']]
  obtain ⟨hbranch, -, -⟩ := hresult _ rfl [['d']]
  have hitems : List.Forall₂ (fun item text => Value.elementText? item = some text)
      [.null, .number (.integer (-1)), .string ['x']] [[], ['-', '1'], ['x']] :=
    .cons rfl (.cons rfl (.cons rfl .nil))
  exact ⟨ho, _, rfl, (htext _).mpr ⟨_, rfl, .array hitems⟩, hnull.mpr (Or.inr rfl),
    hbranch.mpr ⟨[], rfl⟩⟩

end LayeredConfig.Json
