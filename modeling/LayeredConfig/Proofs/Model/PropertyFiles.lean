import LayeredConfig.Model.Parse
import LayeredConfig.Proofs.Model.SortedTrees
import LayeredConfig.Proofs.Tree.FlatKeys

/-!
# What a property file says

A property file is a map from flat keys to values.  Its keys may overlap in any way: `host` needs a
scalar where `host.value.x` needs a branch.  Since keys are taken in increasing order, and a key
whose path goes on beyond the path of another one comes later, the longer path always wins.

* `tree_of_sound`, `tree_eq_invalidKey_iff` — the keys give the trees that are merged, or the first
  key with an empty segment is refused;
* `walk?_merge_singles_iff` — the scalars of the merged tree are those of the keys whose path no
  other key goes on;
* **`parse_properties`** — the result of a file in terms of the last value of each key.
-/

namespace LayeredConfig.Properties

/-- The value of a key in a list of properties: the last one that is given. -/
def valueOf? (key : Text) (properties : List (Text × Text)) : Option Text :=
  Entries.get? key properties.reverse

/-- Whether a list of properties has a key. -/
def Has (properties : List (Text × Text)) (key : Text) : Prop :=
  (valueOf? key properties).isSome

/-- Whether a key names no place because one of its segments is empty. -/
def Broken (key : Text) : Prop :=
  [] ∈ Text.splitAt '.' key

instance decidableBroken (key : Text) : Decidable (Broken key) :=
  inferInstanceAs (Decidable (_ ∈ _))

/-- The key that is refused: of the keys with an empty segment the one with the least octets. -/
structure FirstBroken (properties : List (Text × Text)) (key : Text) : Prop where
  has : Has properties key
  broken : Broken key
  least : ∀ other, Has properties other → Broken other → Utf8.encode key ≤ Utf8.encode other

variable {properties : List (Text × Text)} {key : Text}

theorem mem_ofList_iff {value : Text} :
    (key, value) ∈ Entries.ofList properties ↔ valueOf? key properties = some value := by
  rw [Entries.mem_iff_get? (Entries.increasing_ofList properties), Entries.get?_ofList, valueOf?]

theorem has_iff : Has properties key ↔ ∃ value, (key, value) ∈ Entries.ofList properties := by
  simp only [Has, Option.isSome_iff_exists, mem_ofList_iff]

/-! ## Expanding the keys -/

theorem expand?_of_broken (h : Broken key) (value : Text) : Tree.expand? key value = none :=
  if_pos (List.any_eq_true.mpr ⟨[], h, rfl⟩)

theorem expand?_of_sound (h : ¬Broken key) (value : Text) :
    Tree.expand? key value = some (Tree.single (Tree.keyPath key) value) := by
  refine if_neg fun hany => h ?_
  obtain ⟨segment, hmem, hempty⟩ := List.any_eq_true.mp hany
  rwa [List.isEmpty_iff.mp hempty] at hmem

/-- The trees of entries, each with one scalar. -/
def singles (entries : List (Text × Text)) : List Tree :=
  entries.map fun entry => Tree.single (Tree.keyPath entry.1) entry.2

theorem sorted_singles {entries : List (Text × Text)} :
    ∀ tree ∈ singles entries, Tree.Sorted tree := by
  intro tree htree
  obtain ⟨entry, -, rfl⟩ := List.mem_map.mp htree
  exact Tree.sorted_single _ _

theorem expandAll_of_sound {entries : List (Text × Text)}
    (h : ∀ entry ∈ entries, ¬Broken entry.1) : expandAll entries = .ok (singles entries) := by
  induction entries with
  | nil => rfl
  | cons entry rest ih =>
    obtain ⟨key, value⟩ := entry
    have hrest := ih fun entry hentry => h entry (List.mem_cons_of_mem _ hentry)
    rw [expandAll, expand?_of_sound (h _ List.mem_cons_self) value, hrest]
    rfl

theorem expandAll_of_broken {before after : List (Text × Text)} {value : Text}
    (hbefore : ∀ entry ∈ before, ¬Broken entry.1) (hkey : Broken key) :
    expandAll (before ++ (key, value) :: after) = .error (.invalidKey key) := by
  induction before with
  | nil => rw [List.nil_append, expandAll, expand?_of_broken hkey]
  | cons entry before ih =>
    obtain ⟨first, text⟩ := entry
    rw [List.cons_append, expandAll, expand?_of_sound (hbefore _ List.mem_cons_self) text,
      ih fun entry hentry => hbefore entry (List.mem_cons_of_mem _ hentry)]
    rfl

theorem tree_of_sound (h : ∀ key, Has properties key → ¬Broken key) :
    tree properties = .ok (Tree.merge (singles (Entries.ofList properties))) := by
  have hsound : ∀ entry ∈ Entries.ofList properties, ¬Broken entry.1 := fun entry hentry =>
    h entry.1 (has_iff.mpr ⟨entry.2, hentry⟩)
  rw [tree, expandAll_of_sound hsound]
  rfl

/-- Of the keys with an empty segment the one that is met first has the least octets. -/
theorem firstBroken_of_split {before after : List (Text × Text)} {value : Text}
    (hsplit : Entries.ofList properties = before ++ (key, value) :: after)
    (hbefore : ∀ entry ∈ before, ¬Broken entry.1) (hkey : Broken key) :
    FirstBroken properties key := by
  have hi := Entries.increasing_ofList properties
  rw [hsplit] at hi
  refine ⟨has_iff.mpr ⟨value, by simp [hsplit]⟩, hkey, fun other hother hbroken => ?_⟩
  obtain ⟨value', hmem⟩ := has_iff.mp hother
  rw [← List.not_lt, Utf8.encode_lt_encode]
  rw [hsplit] at hmem
  rcases List.mem_append.mp hmem with hmem | hmem
  · exact absurd hbroken (hbefore _ hmem)
  · rcases List.mem_cons.mp hmem with heq | hmem
    · rw [(Prod.mk.inj heq).1]
      exact lt_irrefl _
    · exact lt_asymm ((Entries.lt_of_split hi).2 _ hmem)

/-- If a key has an empty segment, the first one in the order of texts is refused. -/
theorem exists_firstBroken (h : ∃ key, Has properties key ∧ Broken key) :
    ∃ key, FirstBroken properties key ∧ tree properties = .error (.invalidKey key) := by
  obtain ⟨other, hother, hbroken⟩ := h
  obtain ⟨value, hmem⟩ := has_iff.mp hother
  cases hfind : (Entries.ofList properties).find? fun entry => decide (Broken entry.1) with
  | none =>
    exact absurd (decide_eq_true hbroken) (List.find?_eq_none.mp hfind _ hmem)
  | some entry =>
    obtain ⟨key, value⟩ := entry
    obtain ⟨hkey, before, after, hsplit, hbefore⟩ := List.find?_eq_some_iff_append.mp hfind
    have hkey : Broken key := of_decide_eq_true hkey
    have hbefore : ∀ entry ∈ before, ¬Broken entry.1 := by simpa using hbefore
    refine ⟨key, firstBroken_of_split hsplit hbefore hkey, ?_⟩
    rw [tree, hsplit, expandAll_of_broken hbefore hkey]
    rfl

theorem FirstBroken.unique {other : Text} (h : FirstBroken properties key)
    (h' : FirstBroken properties other) : key = other := by
  have hle := h.least other h'.has h'.broken
  have hge := h'.least key h.has h.broken
  rw [← List.not_lt, Utf8.encode_lt_encode] at hle hge
  exact le_antisymm (not_lt.mp hle) (not_lt.mp hge)

theorem tree_eq_invalidKey_iff :
    tree properties = .error (.invalidKey key) ↔ FirstBroken properties key := by
  constructor
  · intro h
    by_cases hbroken : ∃ key, Has properties key ∧ Broken key
    · obtain ⟨first, hfirst, htree⟩ := exists_firstBroken hbroken
      rw [htree] at h
      obtain rfl : first = key := by simpa using h
      exact hfirst
    · rw [tree_of_sound fun key hkey hkeyBroken => hbroken ⟨key, hkey, hkeyBroken⟩] at h
      simp at h
  · intro h
    obtain ⟨first, hfirst, htree⟩ := exists_firstBroken ⟨key, h.has, h.broken⟩
    rw [htree, hfirst.unique h]

/-! ## The scalars of the tree -/

/-- No tree of a later key touches the path of a key exactly if no other key goes on this path: such
a key comes later, and of the later ones no other touches the path. -/
theorem untouched_after_iff {before after : List (Text × Text)} {value : Text}
    (hi : Entries.Increasing (before ++ (key, value) :: after)) :
    (∀ later ∈ singles after, Tree.touches (Tree.keyPath key) later = false) ↔
      ∀ entry ∈ before ++ (key, value) :: after, entry.1 ≠ key →
        ¬Tree.keyPath key <+: Tree.keyPath entry.1 := by
  obtain ⟨hbefore, hafter⟩ := Entries.lt_of_split hi
  constructor
  · intro h entry hentry hne hbegins
    have hlt := Tree.lt_of_keyPath_begins hbegins (Ne.symm hne)
    rcases List.mem_append.mp hentry with hmem | hmem
    · exact lt_asymm hlt (hbefore _ hmem)
    · rcases List.mem_cons.mp hmem with rfl | hmem
      · exact hne rfl
      · have huntouched := h _ (List.mem_map_of_mem hmem)
        rw [(Tree.touches_single (Tree.keyPath_ne_nil _) _).mpr (Or.inl hbegins)] at huntouched
        exact absurd huntouched (by decide)
  · intro h later hlater
    obtain ⟨entry, hentry, rfl⟩ := List.mem_map.mp hlater
    have hlt := hafter _ hentry
    rw [← Bool.not_eq_true, Tree.touches_single (Tree.keyPath_ne_nil _)]
    rintro (hbegins | hbegins)
    · exact h entry (by simp [hentry]) (ne_of_gt hlt) hbegins
    · exact lt_asymm hlt (Tree.lt_of_keyPath_begins hbegins (ne_of_gt hlt))

/-- **The longer path wins.**  The scalar of a key is in the merged tree exactly if no other key
goes on its path. -/
theorem walk?_merge_singles_iff {entries : Entries Text} (hi : Entries.Increasing entries)
    {path : List Text} {text : Text} :
    Tree.walk? path (Tree.merge (singles entries)) = some (.scalar text) ↔
      ∃ key, (key, text) ∈ entries ∧ Tree.keyPath key = path ∧
        ∀ entry ∈ entries, entry.1 ≠ key → ¬Tree.keyPath key <+: Tree.keyPath entry.1 := by
  by_cases hp : path = []
  · subst hp
    simp [Tree.walk?, Tree.keyPath_ne_nil]
  rw [← Tree.shapeAt?_eq_scalar_iff, Tree.scalar_merge_iff sorted_singles hp]
  constructor
  · rintro ⟨trees, winner, trees', hsplit, hshape, hafter⟩
    obtain ⟨before, rest, rfl, rfl, hrest⟩ := List.map_eq_append_iff.mp hsplit
    obtain ⟨⟨key, value⟩, after, rfl, rfl, rfl⟩ := List.map_eq_cons_iff.mp hrest
    obtain ⟨rfl, rfl⟩ := (Tree.walk?_single_iff (Tree.keyPath_ne_nil key)).mp
      (Tree.shapeAt?_eq_scalar_iff.mp hshape)
    exact ⟨key, by simp, rfl, (untouched_after_iff hi).mp hafter⟩
  · rintro ⟨key, hmem, rfl, hlonger⟩
    obtain ⟨before, after, rfl⟩ := List.append_of_mem hmem
    have hscalar : Tree.walk? (Tree.keyPath key) (Tree.single (Tree.keyPath key) text) =
        some (.scalar text) :=
      (Tree.walk?_single_iff (Tree.keyPath_ne_nil key)).mpr ⟨rfl, rfl⟩
    exact ⟨singles before, _, singles after, List.map_append,
      Tree.shapeAt?_eq_scalar_iff.mpr hscalar, (untouched_after_iff hi).mpr hlonger⟩

/-! ## The result of a file -/

/-- **What a property file says.**  A file that can be read is refused exactly if a key has an empty
segment, and the first such key in the order of octets is named.  Otherwise different keys have
different paths, and the scalars of the tree are the last values of the keys at their paths, except
of keys whose path begins the path of another key.  Only the last value of each key counts. -/
theorem parse_properties {content : Text} {properties : List (Text × Text)}
    (h : read? content = some properties) (file : Text) :
    ((∃ key, FileFormat.properties.parse file content = .error (.invalidKey key)) ↔
        ∃ key, Has properties key ∧ Broken key) ∧
      (∀ key, FileFormat.properties.parse file content = .error (.invalidKey key) ↔
        FirstBroken properties key) ∧
      ((∀ key, Has properties key → ¬Broken key) →
        (∀ key other, Has properties key → Has properties other →
          Tree.keyPath key = Tree.keyPath other → key = other) ∧
        ∃ tree, FileFormat.properties.parse file content = .ok tree ∧
          ∀ path text, Tree.walk? path tree = some (.scalar text) ↔
            ∃ key, valueOf? key properties = some text ∧ Tree.keyPath key = path ∧
              ∀ other, Has properties other → other ≠ key →
                ¬Tree.keyPath key <+: Tree.keyPath other) ∧
      ∀ content' properties', read? content' = some properties' →
        (∀ key, valueOf? key properties' = valueOf? key properties) →
        FileFormat.properties.parse file content' = FileFormat.properties.parse file content := by
  have hparse : ∀ {content properties}, read? content = some properties →
      FileFormat.properties.parse file content = tree properties := by
    intro content properties h
    simp only [FileFormat.parse, h]
  rw [hparse h]
  refine ⟨⟨?_, ?_⟩, fun key => tree_eq_invalidKey_iff, fun hsound => ⟨?_, ?_⟩, ?_⟩
  · rintro ⟨key, hkey⟩
    have hfirst := tree_eq_invalidKey_iff.mp hkey
    exact ⟨key, hfirst.has, hfirst.broken⟩
  · intro hbroken
    obtain ⟨key, -, htree⟩ := exists_firstBroken hbroken
    exact ⟨key, htree⟩
  · intro key other _ _ hpath
    exact Tree.keyPath_injective hpath
  · refine ⟨_, tree_of_sound hsound, fun path text => ?_⟩
    rw [walk?_merge_singles_iff (Entries.increasing_ofList properties)]
    refine exists_congr fun key => ?_
    rw [mem_ofList_iff]
    refine and_congr_right fun _ => and_congr_right fun _ => ⟨?_, ?_⟩
    · intro hlonger other hother
      obtain ⟨value, hmem⟩ := has_iff.mp hother
      exact hlonger _ hmem
    · intro hlonger entry hentry
      exact hlonger entry.1 (has_iff.mpr ⟨entry.2, hentry⟩)
  · intro content' properties' h' hsame
    have hmaps : Entries.ofList properties' = Entries.ofList properties := by
      refine Entries.eq_of_get?_eq (Entries.increasing_ofList _) (Entries.increasing_ofList _) ?_
      intro key
      rw [Entries.get?_ofList, Entries.get?_ofList]
      exact hsame key
    rw [hparse h', tree, hmaps, tree]

/-- Two keys of which the first one goes on the path of the second one. -/
def overlapping : Text :=
  "host.value.x=2\nhost=1\n".toList

/-- What the two lines say. -/
def overlappingPairs : List (Text × Text) :=
  [("host.value.x".toList, ['2']), ("host".toList, ['1'])]

theorem forall_has_overlappingPairs {p : Text → Prop}
    (h : ∀ entry ∈ Entries.ofList overlappingPairs, p entry.1) :
    ∀ key, Has overlappingPairs key → p key := by
  intro key hkey
  obtain ⟨value, hmem⟩ := has_iff.mp hkey
  exact h _ hmem

theorem parse_properties_overlapping :
    read? overlapping = some overlappingPairs ∧
      (∀ key, Has overlappingPairs key → ¬Broken key) ∧
      ∃ tree, FileFormat.properties.parse ['m'] overlapping = .ok tree ∧
        Tree.walk? (Tree.keyPath "host.value.x".toList) tree = some (.scalar ['2']) ∧
        ∀ text, Tree.walk? (Tree.keyPath "host".toList) tree ≠ some (.scalar text) := by
  have hread : read? overlapping = some overlappingPairs := by decide +kernel
  have hsound : ∀ key, Has overlappingPairs key → ¬Broken key :=
    forall_has_overlappingPairs (by decide)
  obtain ⟨-, tree, htree, hscalars⟩ := (parse_properties hread ['m']).2.2.1 hsound
  refine ⟨hread, hsound, tree, htree, (hscalars _ _).mpr ⟨_, rfl, rfl, ?_⟩, fun text htext => ?_⟩
  · exact forall_has_overlappingPairs (by decide)
  · obtain ⟨key, -, hpath, hlonger⟩ := (hscalars _ _).mp htext
    obtain rfl := Tree.keyPath_injective hpath
    exact hlonger "host.value.x".toList rfl (by decide) (by decide)

end LayeredConfig.Properties
