import LayeredConfig.Proofs.Model.JsonTrees
import LayeredConfig.Proofs.Model.YamlTrees

/-!
# JSON values in YAML

A JSON value can be written in YAML: as the value of the same kind, with the members of an object in
any order and with local tags on any value below the root.  `Image` says when a YAML value is such
an image, and then both are turned into the same.

* `itemText_of_image` — they have the same text as items;
* `node?_of_image` — they become the same node, or nothing, or have the same fault;
* **`tree_of_image`** — an object and a mapping that is its image have the same tree, or the same
  fault.

Floating-point numbers are no part of this, since a positive exponent has a plus sign in JSON and
none in YAML.  The pairs of a mapping may come in another order than the members of the object, so
two conversions that fail need not fail at the same place; but there is only one fault that values
with strings as keys can have.
-/

namespace LayeredConfig

/-- A YAML value that is the image of a JSON value: null, truth values, integers, strings and arrays
are themselves, an object is a mapping with the same names as keys, in any order, and with an image
of each member under its name, and an image may have any local tags. -/
inductive Image : Json.Value → Yaml.Value → Prop
  | null : Image .null .null
  | bool (value : Bool) : Image (.bool value) (.bool value)
  | integer (value : Int) : Image (.number (.integer value)) (.number (.integer value))
  | string (text : Text) : Image (.string text) (.string text)
  | array {items : List Json.Value} {images : List Yaml.Value} : items.length = images.length →
      (∀ item image, (item, image) ∈ items.zip images → Image item image) →
      Image (.array items) (.sequence images)
  | object {members : Json.Members} {pairs : List (Yaml.Value × Yaml.Value)} :
      (members.map fun member => Yaml.Value.string member.1).Perm (pairs.map Prod.fst) →
      (∀ name value image, (name, value) ∈ members → (.string name, image) ∈ pairs →
        Image value image) →
      Image (.object members) (.mapping pairs)
  | tagged {value : Json.Value} {image : Yaml.Value} (tag : Text) : Image value image →
      Image value (.tagged tag image)

namespace Image

variable {value : Json.Value} {image : Yaml.Value} {members : Json.Members}
  {pairs : List (Yaml.Value × Yaml.Value)}

/-! ## Items -/

theorem boolText_eq (value : Bool) : Yaml.Value.boolText value = Json.boolText value := by
  cases value <;> rfl

/-- An image has the same text as an item. -/
theorem itemText_of_image (h : Image value image) : Yaml.itemText image = Json.itemText value := by
  induction h with
  | bool value => exact congrArg Except.ok (boolText_eq value)
  | tagged tag _ ih => exact ih
  | _ => rfl

theorem mapM_itemText {items : List Json.Value} {images : List Yaml.Value}
    (hlength : items.length = images.length)
    (h : ∀ item image, (item, image) ∈ items.zip images → Image item image) :
    images.mapM Yaml.itemText = items.mapM Json.itemText := by
  have hall : List.Forall₂ Image items images :=
    List.forall₂_iff_zip.mpr ⟨hlength, fun hmem => h _ _ hmem⟩
  clear hlength h
  induction hall with
  | nil => rfl
  | cons hfirst _ ih => rw [List.mapM_cons, List.mapM_cons, itemText_of_image hfirst, ih]

/-! ## Members -/

/-- The keys of a mapping that is the image of an object are different. -/
theorem nodup_entriesOf (hi : Entries.Increasing members)
    (hkeys : (members.map fun member => Yaml.Value.string member.1).Perm (pairs.map Prod.fst)) :
    ((Entries.entriesOf Yaml.entryOf? pairs).map Prod.fst).Nodup := by
  have hnames : (members.map fun member => Yaml.Value.string member.1).Nodup := by
    rw [List.Nodup, List.pairwise_map]
    refine (Entries.increasing_iff_pairwise.mp hi).imp fun hlt heq => ?_
    exact ne_of_lt hlt (Yaml.Value.string.inj heq)
  have hdiffer : pairs.Pairwise fun pair other => pair.1 ≠ other.1 :=
    List.pairwise_map.mp (hkeys.nodup_iff.mp hnames)
  refine Entries.nodup_entriesOf_iff.mpr (hdiffer.imp_of_mem ?_)
  intro pair other hpair hother hne entry hentry later hlater heq
  obtain ⟨member, -, hmember⟩ := List.mem_map.mp (hkeys.mem_iff.mpr (List.mem_map_of_mem hpair))
  obtain ⟨member', -, hmember'⟩ :=
    List.mem_map.mp (hkeys.mem_iff.mpr (List.mem_map_of_mem hother))
  have hname := (Yaml.entryOf?_eq_some_iff.mp hentry).1
  have hname' := (Yaml.entryOf?_eq_some_iff.mp hlater).1
  rw [← hmember, Yaml.keyText, Except.ok.injEq] at hname
  rw [← hmember', Yaml.keyText, Except.ok.injEq] at hname'
  exact hne (by rw [← hmember, ← hmember', hname, hname', heq])

/-- If each member of an object and its image become the same, then so do the object and the
mapping. -/
theorem tree_of_entries (ho : (Json.Value.object members).Ordered)
    (hkeys : (members.map fun member => Yaml.Value.string member.1).Perm (pairs.map Prod.fst))
    (h : ∀ name value image, (name, value) ∈ members → (.string name, image) ∈ pairs →
      Yaml.node? image = Json.node? value) :
    Yaml.tree pairs = Json.tree members := by
  have hentry : ∀ name value image, (name, value) ∈ members → (.string name, image) ∈ pairs →
      Yaml.entryOf? (.string name, image) = Json.entryOf? (name, value) := by
    intro name value image hmember hpair
    rw [Yaml.entryOf?, Json.entryOf?, Yaml.keyText, h name value image hmember hpair]
    cases Json.node? value <;> rfl
  have hfault : ∀ member ∈ members, ∀ fault, Json.entryOf? member = .error fault →
      fault = .nestedSequence := by
    intro member hmember fault hfault
    have hvalue := ho.member (Entries.get?_of_mem ho.increasing hmember)
    exact (Json.nestedArray_of_error member.2 hvalue (Json.entryOf?_eq_error_iff.mp hfault)).1
  rw [Yaml.tree, Json.tree, Yaml.treeInto_eq_collect, Json.treeInto_eq_collect, eq_comm]
  refine Entries.collect_eq_collect ?_ ?_ (Json.nodup_entriesOf ho.increasing)
    (nodup_entriesOf ho.increasing hkeys) hfault
  · intro member hmember
    have hkey := hkeys.mem_iff.mp (List.mem_map_of_mem hmember)
    obtain ⟨⟨key, image⟩, hpair, rfl⟩ := List.mem_map.mp hkey
    exact ⟨_, hpair, (hentry member.1 member.2 image hmember hpair).symm⟩
  · intro pair hpair
    have hkey := hkeys.mem_iff.mpr (List.mem_map_of_mem hpair)
    obtain ⟨member, hmember, heq⟩ := List.mem_map.mp hkey
    obtain ⟨key, image⟩ := pair
    obtain rfl : Yaml.Value.string member.1 = key := heq
    exact ⟨_, hmember, (hentry member.1 member.2 image hmember hpair).symm⟩

/-! ## Values -/

/-- An image becomes the same node as the value.  By induction on the image: the members of an
object are converted one by one, and a tag is passed over. -/
theorem node?_of_image (h : Image value image) (ho : value.Ordered) :
    Yaml.node? image = Json.node? value := by
  induction h with
  | null => rfl
  | bool value => simp only [Yaml.node?, Json.node?, boolText_eq]
  | integer value => rfl
  | string text => rfl
  | array hlength hitems =>
    rw [Yaml.node?_sequence, Json.node?_array, mapM_itemText hlength hitems]
  | object hkeys _ ih =>
    rw [Yaml.node?_mapping, Json.node?_object, tree_of_entries ho hkeys]
    intro name value image hmember hpair
    exact ih name value image hmember hpair
      (ho.member (Entries.get?_of_mem ho.increasing hmember))
  | tagged tag _ ih => exact ih ho

end Image

/-- **JSON and YAML mean the same.**  A JSON object and a YAML mapping that is its image are turned
into the same tree, or have the same fault. -/
theorem tree_of_image {members : Json.Members} {pairs : List (Yaml.Value × Yaml.Value)}
    (ho : (Json.Value.object members).Ordered) (h : Image (.object members) (.mapping pairs)) :
    Yaml.tree pairs = Json.tree members := by
  cases h with
  | object hkeys himages =>
    refine Image.tree_of_entries ho hkeys fun name value image hmember hpair => ?_
    exact Image.node?_of_image (himages name value image hmember hpair)
      (ho.member (Entries.get?_of_mem ho.increasing hmember))

/-- An object with a null among the members and one among the items. -/
def plainObject : Json.Members :=
  [(['a'], .array [.null, .number (.integer 7)]),
    (['b'], .object [(['c'], .null), (['d'], .bool true)])]

/-- The same in YAML, with the members turned around and tags on some of the values. -/
def taggedMapping : List (Yaml.Value × Yaml.Value) :=
  [(.string ['b'], .tagged ['t'] (.tagged ['u']
      (.mapping [(.string ['d'], .bool true), (.string ['c'], .tagged ['t'] .null)]))),
    (.string ['a'], .sequence [.null, .tagged ['t'] (.number (.integer 7))])]

theorem tree_of_image_taggedMapping :
    ((Json.Value.object plainObject).Ordered ∧
        Image (.object plainObject) (.mapping taggedMapping)) ∧
      Yaml.tree taggedMapping = Json.tree plainObject ∧
      ∃ result, Yaml.tree taggedMapping = .ok result := by
  have ho : (Json.Value.object plainObject).Ordered :=
    ⟨by decide, ⟨trivial, trivial, trivial⟩, ⟨by decide, trivial, trivial, trivial⟩, trivial⟩
  have hitems : Image (.array [.null, .number (.integer 7)])
      (.sequence [.null, .tagged ['t'] (.number (.integer 7))]) := by
    refine .array rfl fun item image hmem => ?_
    rcases List.mem_pair.mp hmem with heq | heq <;> obtain ⟨rfl, rfl⟩ := Prod.mk.inj heq
    · exact .null
    · exact .tagged _ (.integer 7)
  have hinner : Image (.object [(['c'], .null), (['d'], .bool true)])
      (.mapping [(.string ['d'], .bool true), (.string ['c'], .tagged ['t'] .null)]) := by
    refine .object (List.Perm.swap _ _ _) fun name value image hmember hpair => ?_
    rcases List.mem_pair.mp hmember with heq | heq <;> obtain ⟨rfl, rfl⟩ := Prod.mk.inj heq
    · obtain rfl : image = .tagged ['t'] .null := by simpa using hpair
      exact .tagged _ .null
    · obtain rfl : image = .bool true := by simpa using hpair
      exact .bool true
  have himage : Image (.object plainObject) (.mapping taggedMapping) := by
    refine .object (List.Perm.swap _ _ _) fun name value image hmember hpair => ?_
    rcases List.mem_pair.mp hmember with heq | heq <;> obtain ⟨rfl, rfl⟩ := Prod.mk.inj heq
    · obtain rfl : image = _ := by simpa [taggedMapping] using hpair
      exact hitems
    · obtain rfl : image = _ := by simpa [taggedMapping] using hpair
      exact .tagged _ (.tagged _ hinner)
  exact ⟨⟨ho, himage⟩, tree_of_image ho himage, _, rfl⟩

end LayeredConfig
