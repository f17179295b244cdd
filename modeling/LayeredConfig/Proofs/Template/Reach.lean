import LayeredConfig.Proofs.Template.Substitution
import LayeredConfig.Proofs.Tree.Layers
import LayeredConfig.Tree.Key

/-!
# What a template reaches

The names that a template *reaches* are the names of its tokens, the names in their values, and so
on along references.  Rendering asks the configuration for the values of these names and for
nothing else, and every name that it reports as missing is one of them.

* `expand_congr` — what is put for a name depends on the values of the names that references lead
  to from it;
* **`render_of_reached`** — a template is rendered alike in two configurations that agree on the
  names it reaches, so a tree that is merged elsewhere does not count;
* `mem_reported_iff` — where the budget is no limit, the names reported for a name are those that
  lie on the way from it to an undefined one;
* **`missing_of_reached`** — the same for a template, and a token stays as it is exactly if its own
  name is missing.

References may lead into a circle.  The first result holds there too, as it is an induction on the
budget; the second one asks for walks that the budget covers, and these never come round.
-/

namespace LayeredConfig.Template

/-- Whether references lead from a token of a text to a name. -/
def Reached (config : Tree) (text name : Text) : Prop :=
  ∃ first ∈ names text, Relation.ReflTransGen (RefersTo config) first name

/-! ## Where references lead -/

section References

variable {config : Tree} {name value : Text}

/-- From a name one comes to itself and to what the names in its value lead to. -/
theorem leadsTo_iff_of_value (h : valueOf? config name = some value) {x : Text} :
    Relation.ReflTransGen (RefersTo config) name x ↔
      x = name ∨ ∃ other ∈ names value, Relation.ReflTransGen (RefersTo config) other x := by
  rw [Relation.ReflTransGen.cases_head_iff, eq_comm]
  refine or_congr_right (exists_congr fun other => and_congr_left fun _ => ?_)
  constructor
  · rintro ⟨value', hvalue', hother⟩
    obtain rfl := Option.some.inj (h.symm.trans hvalue')
    exact hother
  · exact fun hother => ⟨value, h, hother⟩

/-- An undefined name leads nowhere else. -/
theorem leadsTo_iff_of_undefined (h : valueOf? config name = none) {x : Text} :
    Relation.ReflTransGen (RefersTo config) name x ↔ x = name := by
  rw [Relation.ReflTransGen.cases_head_iff, eq_comm, or_iff_left]
  rintro ⟨other, ⟨value, hvalue, -⟩, -⟩
  rw [h] at hvalue
  simp at hvalue

end References

/-! ## Agreement on what is reached -/

theorem fill_congr {f g : Text → Expansion} {text : Text}
    (h : ∀ name ∈ names text, f name = g name) : fill f text = fill g text := by
  have hknown : expansions f text = expansions g text :=
    List.map_congr_left fun name hname => by rw [h name hname]
  simp only [fill, hknown]

/-- Two configurations that agree on everything that references lead to from a name expand it alike.
With each value the names in it take the place of the name, so the induction is on the budget for
all names. -/
theorem expand_congr {config other : Tree} (budget : Nat) {name : Text}
    (h : ∀ x, Relation.ReflTransGen (RefersTo config) name x →
      valueOf? other x = valueOf? config x) :
    expand other budget name = expand config budget name := by
  induction budget generalizing name with
  | zero => simp only [expand_eq, h name .refl]
  | succ budget ih =>
    rw [expand_eq, expand_eq, h name .refl]
    cases hvalue : valueOf? config name with
    | none => rfl
    | some value =>
      have hfill : fill (expand other budget) value = fill (expand config budget) value :=
        fill_congr fun first hfirst => ih fun x hx =>
          h x ((leadsTo_iff_of_value hvalue).mpr (Or.inr ⟨first, hfirst, hx⟩))
      simp only [hfill]

/-- The path at which the value of a name stands. -/
def valuePath (name : Text) : List Text :=
  Text.splitAt '.' (Text.trimSpace name) ++ [Tree.valueKey]

theorem valuePath_ne_nil (name : Text) : valuePath name ≠ [] := by
  simp [valuePath]

theorem valueOf?_eq_shapeAt? (config : Tree) (name : Text) :
    valueOf? config name = (Tree.shapeAt? (valuePath name) config).bind id :=
  Tree.valueAt?_eq_shapeAt? _ _

/-- **Rendering reads what it reaches.**  A configuration that gives the reached names the values
they have renders a text alike, within any budget.  So a tree may be merged in, under or over the
others, as long as it does not touch the path of a value that is reached: metadata beside the
values, values of other names, or anything else. -/
theorem render_of_reached (config : Tree) (text : Text) :
    (∀ other, (∀ name, Reached config text name → valueOf? other name = valueOf? config name) →
      ∀ budget, renderWithin budget other text = renderWithin budget config text) ∧
    ∀ before extra after, (∀ tree ∈ before ++ extra :: after, Tree.Sorted tree) →
      config = Tree.merge (before ++ after) →
      (∀ name, Reached config text name → Tree.touches (valuePath name) extra = false) →
      ∀ budget, renderWithin budget (Tree.merge (before ++ extra :: after)) text =
        renderWithin budget config text := by
  have hagree : ∀ other, (∀ name, Reached config text name →
      valueOf? other name = valueOf? config name) →
      ∀ budget, renderWithin budget other text = renderWithin budget config text := by
    intro other h budget
    exact fill_congr fun first hfirst =>
      expand_congr budget fun name hname => h name ⟨first, hfirst, hname⟩
  refine ⟨hagree, ?_⟩
  rintro before extra after hsorted rfl huntouched
  apply hagree
  intro name hname
  rw [valueOf?_eq_shapeAt?, valueOf?_eq_shapeAt?,
    Tree.shapeAt?_merge_insert hsorted (valuePath_ne_nil name) (huntouched name hname)]

/-- The tree of a value. -/
def portTree : Tree := Tree.single (Tree.keyPath "host.port".toList) "80".toList

/-- The tree of metadata beside it. -/
def unitTree : Tree := Tree.single (Tree.keyPath "host.port_metadata.unit".toList) "tcp".toList

/-- Metadata counts neither for the value beside it nor for a token with the name of the metadata.
-/
theorem render_of_reached_metadata :
    (∀ tree ∈ [portTree, unitTree], Tree.Sorted tree) ∧
      (∀ name,
        Reached (Tree.merge [portTree]) "{{host.port}} {{host.port_metadata}}".toList name →
        Tree.touches (valuePath name) unitTree = false) ∧
      render (Tree.merge [portTree, unitTree]) "{{host.port}} {{host.port_metadata}}".toList =
        render (Tree.merge [portTree]) "{{host.port}} {{host.port_metadata}}".toList := by
  have hsorted : ∀ tree ∈ [portTree, unitTree], Tree.Sorted tree := by decide +kernel
  have hnames : names "{{host.port}} {{host.port_metadata}}".toList =
      ["host.port".toList, "host.port_metadata".toList] := by decide +kernel
  have hport : valueOf? (Tree.merge [portTree]) "host.port".toList = some "80".toList := by
    decide +kernel
  have hfinal : names "80".toList = [] := by decide +kernel
  have hmetadata : valueOf? (Tree.merge [portTree]) "host.port_metadata".toList = none := by
    decide +kernel
  have huntouched : ∀ name,
      Reached (Tree.merge [portTree]) "{{host.port}} {{host.port_metadata}}".toList name →
      Tree.touches (valuePath name) unitTree = false := by
    rintro name ⟨first, hfirst, hreach⟩
    rw [hnames, List.mem_pair] at hfirst
    rcases hfirst with rfl | rfl
    · rw [leadsTo_iff_of_value hport, hfinal] at hreach
      obtain rfl : name = "host.port".toList := by simpa using hreach
      decide +kernel
    · obtain rfl := (leadsTo_iff_of_undefined hmetadata).mp hreach
      decide +kernel
  exact ⟨hsorted, huntouched,
    (render_of_reached _ _).2 [portTree] unitTree [] hsorted rfl huntouched defaultBudget⟩

/-! ## Walks that the budget covers -/

/-- Whether every walk from a name holds at most so many names. -/
def WalksWithin (config : Tree) (limit : Nat) (name : Text) : Prop :=
  ∀ walk, List.IsChain (RefersTo config) (name :: walk) → (name :: walk).length ≤ limit

theorem not_walksWithin_zero (config : Tree) (name : Text) : ¬WalksWithin config 0 name := by
  intro h
  simpa using h [] (List.isChain_singleton _)

theorem walksWithin_of_undefined {config : Tree} {name : Text} (h : valueOf? config name = none)
    (limit : Nat) : WalksWithin config (limit + 1) name := by
  intro walk hwalk
  cases walk with
  | nil => simp
  | cons other walk =>
    obtain ⟨⟨value, hvalue, -⟩, -⟩ := List.isChain_cons_cons.mp hwalk
    rw [h] at hvalue
    simp at hvalue

theorem walksWithin_succ_iff {config : Tree} {name value : Text}
    (h : valueOf? config name = some value) (limit : Nat) :
    WalksWithin config (limit + 1) name ↔
      ∀ other ∈ names value, WalksWithin config limit other := by
  rw [WalksWithin, forall_walk_iff h (P := fun walk => (name :: walk).length ≤ limit + 1)]
  simp [WalksWithin]

/-- Whether the walks from a name are short can be decided by following the references. -/
instance decidableWalksWithin (config : Tree) :
    (limit : Nat) → (name : Text) → Decidable (WalksWithin config limit name)
  | 0, name => isFalse (not_walksWithin_zero config name)
  | limit + 1, name =>
    match h : valueOf? config name with
    | none => isTrue (walksWithin_of_undefined h limit)
    | some value =>
      have := decidableWalksWithin config limit
      decidable_of_iff (∀ other ∈ names value, WalksWithin config limit other)
        (walksWithin_succ_iff h limit).symm

/-! ## What is missing -/

/-- Whether references lead from a name to an undefined one. -/
def Dangling (config : Tree) (name : Text) : Prop :=
  ∃ last, Relation.ReflTransGen (RefersTo config) name last ∧ ¬Defined config last

theorem dangling_of_undefined {config : Tree} {name : Text} (h : valueOf? config name = none) :
    Dangling config name :=
  ⟨name, .refl, by simp [Defined, h]⟩

theorem Dangling.of_leadsTo {config : Tree} {first name : Text}
    (hreach : Relation.ReflTransGen (RefersTo config) first name) (h : Dangling config name) :
    Dangling config first := by
  obtain ⟨last, hlast, hundefined⟩ := h
  exact ⟨last, hreach.trans hlast, hundefined⟩

theorem dangling_iff_of_value {config : Tree} {name value : Text}
    (h : valueOf? config name = some value) :
    Dangling config name ↔ ∃ other ∈ names value, Dangling config other := by
  constructor
  · rintro ⟨last, hreach, hundefined⟩
    rcases (leadsTo_iff_of_value h).mp hreach with rfl | ⟨other, hother, hlast⟩
    · exact absurd (by simp [Defined, h]) hundefined
    · exact ⟨other, hother, last, hlast, hundefined⟩
  · rintro ⟨other, hother, hdangling⟩
    exact hdangling.of_leadsTo ((leadsTo_iff_of_value h).mpr (Or.inr ⟨other, hother, .refl⟩))

theorem mem_fill_missing_iff {expand : Text → Expansion} {text x : Text} :
    x ∈ (fill expand text).missing ↔ ∃ name ∈ names text, x ∈ reported (expand name) := by
  show x ∈ missingOf (expansions expand text) ↔ _
  rw [missingOf_eq, List.mem_eraseDups, expansions, List.flatMap_map, List.mem_flatMap]

/-- What is reported for a name whose value holds tokens. -/
theorem reported_expand_of_value {config : Tree} {name value : Text}
    (h : valueOf? config name = some value) (hnames : names value ≠ []) (budget : Nat) {x : Text} :
    x ∈ reported (expand config (budget + 1) name) ↔
      (∃ y, y ∈ (fill (expand config budget) value).missing) ∧
        (x ∈ (fill (expand config budget) value).missing ∨ x = name) := by
  rw [expand_eq, h]
  simp only [if_neg hnames, Rendered.complete, List.isEmpty_iff]
  split_ifs with hcomplete
  · simp [reported, hcomplete]
  · rw [reported, mem_addNew, and_iff_right (List.exists_mem_of_ne_nil _ hcomplete)]

theorem mem_reported_iff_of_undefined {config : Tree} {name : Text}
    (h : valueOf? config name = none) (budget : Nat) {x : Text} :
    x ∈ reported (expand config budget name) ↔
      Relation.ReflTransGen (RefersTo config) name x ∧ Dangling config x := by
  have hexpand : expand config budget name = .error [name] := by rw [expand_eq, h]
  rw [hexpand, reported, List.mem_singleton, leadsTo_iff_of_undefined h]
  constructor
  · rintro rfl
    exact ⟨rfl, dangling_of_undefined h⟩
  · exact And.left

theorem mem_reported_iff_of_final {config : Tree} {name value : Text}
    (h : valueOf? config name = some value) (hfinal : names value = []) (budget : Nat) {x : Text} :
    x ∈ reported (expand config budget name) ↔
      Relation.ReflTransGen (RefersTo config) name x ∧ Dangling config x := by
  have hexpand : expand config budget name = .ok value := by
    rw [expand_eq, h]
    simp only [if_pos hfinal]
  have hsound : ¬Dangling config name := by
    rw [dangling_iff_of_value h, hfinal]
    simp
  rw [hexpand]
  refine iff_of_false List.not_mem_nil fun hx => ?_
  exact hsound (hx.2.of_leadsTo hx.1)

/-- **What is reported for a name.**  The names that lie on the way to an undefined one.  The
induction is on the budget, which covers every walk from the name: where it is used up there is no
token left in a value. -/
theorem mem_reported_iff {config : Tree} {budget : Nat} {name : Text}
    (hwalks : WalksWithin config (budget + 1) name) {x : Text} :
    x ∈ reported (expand config budget name) ↔
      Relation.ReflTransGen (RefersTo config) name x ∧ Dangling config x := by
  induction budget generalizing name x with
  | zero =>
    cases h : valueOf? config name with
    | none => exact mem_reported_iff_of_undefined h 0
    | some value =>
      refine mem_reported_iff_of_final h (List.eq_nil_iff_forall_not_mem.mpr ?_) 0
      intro other hother
      exact not_walksWithin_zero config other ((walksWithin_succ_iff h 0).mp hwalks other hother)
  | succ budget ih =>
    cases h : valueOf? config name with
    | none => exact mem_reported_iff_of_undefined h _
    | some value =>
      by_cases hfinal : names value = []
      · exact mem_reported_iff_of_final h hfinal _
      · have hbelow := (walksWithin_succ_iff h (budget + 1)).mp hwalks
        have hinner : ∀ y, y ∈ (fill (expand config budget) value).missing ↔
            ∃ other ∈ names value,
              Relation.ReflTransGen (RefersTo config) other y ∧ Dangling config y := by
          intro y
          rw [mem_fill_missing_iff]
          exact exists_congr fun other => and_congr_right fun hother => ih (hbelow other hother)
        have hname : (∃ y, y ∈ (fill (expand config budget) value).missing) ↔
            Dangling config name := by
          simp only [hinner, dangling_iff_of_value h]
          constructor
          · rintro ⟨y, other, hother, hreach, hdangling⟩
            exact ⟨other, hother, hdangling.of_leadsTo hreach⟩
          · rintro ⟨other, hother, hdangling⟩
            exact ⟨other, other, hother, .refl, hdangling⟩
        rw [reported_expand_of_value h hfinal, hname, hinner, leadsTo_iff_of_value h]
        constructor
        · rintro ⟨hdangling, ⟨other, hother, hreach, hx⟩ | rfl⟩
          · exact ⟨Or.inr ⟨other, hother, hreach⟩, hx⟩
          · exact ⟨Or.inl rfl, hdangling⟩
        · rintro ⟨rfl | ⟨other, hother, hreach⟩, hx⟩
          · exact ⟨hx, Or.inr rfl⟩
          · refine ⟨hx.of_leadsTo ?_, Or.inl ⟨other, hother, hreach, hx⟩⟩
            exact (leadsTo_iff_of_value h).mpr (Or.inr ⟨other, hother, hreach⟩)

/-- A name that is not expanded is among the names reported for it. -/
theorem mem_reported_self_iff {config : Tree} {budget : Nat} {name : Text}
    (hwalks : WalksWithin config (budget + 1) name) :
    name ∈ reported (expand config budget name) ↔
      ∃ blamed, expand config budget name = .error blamed := by
  constructor
  · intro h
    cases hexpand : expand config budget name with
    | ok value => simp [hexpand, reported] at h
    | error blamed => exact ⟨blamed, rfl⟩
  · rintro ⟨blamed, hexpand⟩
    obtain ⟨x, hx⟩ := List.exists_mem_of_ne_nil _ (expand_error_ne_nil hexpand)
    have hreported : x ∈ reported (expand config budget name) := by rwa [hexpand]
    obtain ⟨hreach, hdangling⟩ := (mem_reported_iff hwalks).mp hreported
    exact (mem_reported_iff hwalks).mpr ⟨.refl, hdangling.of_leadsTo hreach⟩

/-- **What is missing.**  Where no walk from a token of the text holds more than one name more than
the budget, the missing names are the reached names from which references lead to an undefined one.
Between the gaps stands for each token its expansion, or the token itself if there is none, and the
latter exactly for the tokens whose names are missing. -/
theorem missing_of_reached {config : Tree} {budget : Nat} {text : Text}
    (hwalks : ∀ name ∈ names text, WalksWithin config (budget + 1) name) :
    (∀ name, name ∈ (renderWithin budget config text).missing ↔
      Reached config text name ∧ Dangling config name) ∧
    ∃ parts last, Segments text parts last ∧
      (renderWithin budget config text).text =
        parts.flatMap (fun part => part.1 ++ standing part.2 (expand config budget part.2)) ++
          last ∧
      ∀ part ∈ parts, (part.2 ∈ (renderWithin budget config text).missing ↔
        ∃ blamed, expand config budget part.2 = .error blamed) := by
  have hmissing : ∀ name, name ∈ (renderWithin budget config text).missing ↔
      Reached config text name ∧ Dangling config name := by
    intro name
    rw [renderWithin, mem_fill_missing_iff, Reached]
    constructor
    · rintro ⟨first, hfirst, hname⟩
      obtain ⟨hreach, hdangling⟩ := (mem_reported_iff (hwalks first hfirst)).mp hname
      exact ⟨⟨first, hfirst, hreach⟩, hdangling⟩
    · rintro ⟨⟨first, hfirst, hreach⟩, hdangling⟩
      exact ⟨first, hfirst, (mem_reported_iff (hwalks first hfirst)).mpr ⟨hreach, hdangling⟩⟩
  obtain ⟨parts, last, h⟩ := exists_segments text
  refine ⟨hmissing, parts, last, h, fill_text_eq _ h, fun part hpart => ?_⟩
  have hname : part.2 ∈ names text := h.mem_names_iff.mpr ⟨part, hpart, rfl⟩
  rw [← mem_reported_self_iff (hwalks _ hname), mem_reported_iff (hwalks _ hname), hmissing]
  exact and_congr_left fun _ => iff_of_true ⟨_, hname, .refl⟩ .refl

/-- Values that refer to each other.  The name `d` in the value of `b` is not defined, and `e`
refers to itself. -/
def linkedValues : Tree :=
  [("a", "{{b}}{{ c }}"), ("b", "{{ c }}{{d}}"), ("c", "ok"), ("e", "<{{e}}>"), ("f", "{{g}}"),
    ("g", "{{c}}")].map fun entry =>
      (entry.1.toList, .branch [(Tree.valueKey, .scalar entry.2.toList)])

/-- The walks of three names that begin at `a` lead to the undefined name `d` and, with white space
around it, to the defined name `c`. -/
theorem missing_of_reached_linkedValues :
    (∀ name ∈ names "{{a}} {{c}}".toList, WalksWithin linkedValues (2 + 1) name) ∧
      (renderWithin 2 linkedValues "{{a}} {{c}}".toList).missing =
        ["d".toList, "b".toList, "a".toList] ∧
      (renderWithin 2 linkedValues "{{a}} {{c}}".toList).text = "{{a}} ok".toList ∧
      (Reached linkedValues "{{a}} {{c}}".toList "b".toList ∧ Dangling linkedValues "b".toList) ∧
      ¬(Reached linkedValues "{{a}} {{c}}".toList " c ".toList ∧
        Dangling linkedValues " c ".toList) := by
  have hwalks : ∀ name ∈ names "{{a}} {{c}}".toList, WalksWithin linkedValues (2 + 1) name := by
    decide +kernel
  obtain ⟨hmissing, -⟩ := missing_of_reached hwalks
  exact ⟨hwalks, by decide +kernel, by decide +kernel, (hmissing _).mp (by decide +kernel),
    fun h => absurd ((hmissing _).mpr h) (by decide +kernel)⟩

end LayeredConfig.Template
