import LayeredConfig.Template.Render
import Mathlib.Data.List.Chain
import Mathlib.Data.List.Induction
import Mathlib.Logic.Relation

/-!
# When a template is rendered completely

A name *refers to* the names of the tokens in its value.  Rendering follows these references as
far as its budget of nested expansions lasts, so what decides is how long the walks along
references are that begin at the tokens of the text.

* `mem_missingOf_iff`, `expand_error_ne_nil` — a name is missing exactly if the expansion of some
  token of the text reports it, and an expansion that fails reports at least one name;
* `expand_isOk_iff` — a name is expanded within a budget exactly if every walk from it meets only
  defined names and takes at most as many references as the budget allows;
* **`complete_iff_walks`** — rendering within a budget `m` is complete exactly if every walk from a
  token of the text meets only defined names and holds at most `m + 1` of them; so a text from
  which a cycle of references can be reached is complete within no budget.

Both directions count exactly: a walk of `m + 1` names needs `m` nested expansions, and a last name
whose value holds a token would begin a longer walk.
-/

namespace LayeredConfig.Template

/-! ## References -/

/-- The value that a name stands for. -/
def valueOf? (config : Tree) (name : Text) : Option Text :=
  Tree.valueAt? (Text.trimSpace name) config

/-- Whether a name stands for a value. -/
def Defined (config : Tree) (name : Text) : Prop :=
  (valueOf? config name).isSome = true

/-- Whether the value of a name holds a token with another name. -/
def RefersTo (config : Tree) (name other : Text) : Prop :=
  ∃ value, valueOf? config name = some value ∧ other ∈ names value

/-! ## What is missing -/

theorem mem_addNew {items : List Text} {item x : Text} :
    x ∈ Text.addNew items item ↔ x ∈ items ∨ x = item := by
  rw [Text.addNew]
  split_ifs with h
  · constructor
    · exact Or.inl
    · intro hx
      rcases hx with hx | rfl
      · exact hx
      · exact h
  · rw [List.mem_append, List.mem_singleton]

theorem mem_foldl_addNew {items new : List Text} {x : Text} :
    x ∈ new.foldl Text.addNew items ↔ x ∈ items ∨ x ∈ new := by
  induction new generalizing items with
  | nil => simp
  | cons first rest ih =>
    rw [List.foldl_cons, ih, mem_addNew, List.mem_cons, or_assoc]

theorem addNew_ne_nil (items : List Text) (item : Text) : Text.addNew items item ≠ [] :=
  List.ne_nil_of_mem (mem_addNew.mpr (Or.inr rfl))

theorem missingOf_concat_ok (known : List (Text × Expansion)) (name value : Text) :
    missingOf (known ++ [(name, .ok value)]) = missingOf known := by
  simp only [missingOf, List.foldl_append, List.foldl_cons, List.foldl_nil]

theorem missingOf_concat_error (known : List (Text × Expansion)) (name : Text)
    (reported : List Text) :
    missingOf (known ++ [(name, .error reported)]) =
      reported.foldl Text.addNew (missingOf known) := by
  simp only [missingOf, List.foldl_append, List.foldl_cons, List.foldl_nil]

/-- A name is missing exactly if some expansion reports it. -/
theorem mem_missingOf_iff {known : List (Text × Expansion)} {x : Text} :
    x ∈ missingOf known ↔ ∃ name reported, (name, .error reported) ∈ known ∧ x ∈ reported := by
  induction known using List.reverseRecOn with
  | nil => simp [missingOf]
  | append_singleton rest entry ih =>
    obtain ⟨first, expansion⟩ := entry
    cases expansion with
    | ok value =>
      rw [missingOf_concat_ok, ih]
      simp
    | error reported =>
      rw [missingOf_concat_error, mem_foldl_addNew, ih]
      constructor
      · intro hx
        rcases hx with ⟨name, other, hmem, hx⟩ | hx
        · exact ⟨name, other, List.mem_append_left _ hmem, hx⟩
        · exact ⟨first, reported, List.mem_append_right _ List.mem_cons_self, hx⟩
      · intro hx
        obtain ⟨name, other, hmem, hx⟩ := hx
        rcases List.mem_append.mp hmem with hmem | hmem
        · exact Or.inl ⟨name, other, hmem, hx⟩
        · obtain ⟨-, heq⟩ := Prod.mk.inj (List.mem_singleton.mp hmem)
          obtain rfl := Except.error.inj heq
          exact Or.inr hx

/-- What the expansion of a name comes to. -/
theorem expand_eq (config : Tree) (budget : Nat) (name : Text) :
    expand config budget name =
      match valueOf? config name with
      | none => .error [name]
      | some value =>
        if names value = [] then .ok value
        else
          match budget with
          | 0 => .error (Text.addNew (names value) name)
          | budget + 1 =>
            if (fill (expand config budget) value).complete then
              .ok (fill (expand config budget) value).text
            else .error (Text.addNew (fill (expand config budget) value).missing name) := by
  rw [expand.eq_def]
  rfl

/-- An expansion that fails reports at least one name. -/
theorem expand_error_ne_nil {config : Tree} {budget : Nat} {name : Text} {reported : List Text}
    (h : expand config budget name = .error reported) : reported ≠ [] := by
  rw [expand_eq] at h
  split at h
  · exact Except.error.inj h ▸ List.cons_ne_nil _ _
  · split_ifs at h
    split at h
    · exact Except.error.inj h ▸ addNew_ne_nil _ _
    · split_ifs at h
      exact Except.error.inj h ▸ addNew_ne_nil _ _

/-- A text is complete exactly if the name of each of its tokens is expanded. -/
theorem complete_fill_iff {config : Tree} {budget : Nat} {text : Text} :
    (fill (expand config budget) text).complete = true ↔
      ∀ name ∈ names text, ∃ value, expand config budget name = .ok value := by
  rw [Rendered.complete, List.isEmpty_iff]
  constructor
  · intro h name hname
    cases hexpand : expand config budget name with
    | ok value => exact ⟨value, rfl⟩
    | error reported =>
      obtain ⟨x, hx⟩ := List.exists_mem_of_ne_nil _ (expand_error_ne_nil hexpand)
      have hmem : (name, Except.error reported) ∈ expansions (expand config budget) text :=
        List.mem_map.mpr ⟨name, hname, by rw [hexpand]⟩
      have hmissing : x ∈ (fill (expand config budget) text).missing :=
        mem_missingOf_iff.mpr ⟨name, reported, hmem, hx⟩
      rw [h] at hmissing
      exact absurd hmissing List.not_mem_nil
  · intro h
    rw [List.eq_nil_iff_forall_not_mem]
    intro x hx
    obtain ⟨name, reported, hmem, -⟩ := mem_missingOf_iff.mp hx
    obtain ⟨name', hname, heq⟩ := List.mem_map.mp hmem
    obtain ⟨value, hvalue⟩ := h name' hname
    rw [hvalue] at heq
    exact absurd (Prod.mk.inj heq).2 (by simp)

/-! ## Walks along references -/

/-- A value with tokens is expanded with one more unit of the budget exactly if each name in it
is expanded without that unit. -/
theorem expand_succ_isOk_iff {config : Tree} {name value : Text}
    (h : valueOf? config name = some value) (hnames : names value ≠ []) (budget : Nat) :
    (∃ text, expand config (budget + 1) name = .ok text) ↔
      ∀ other ∈ names value, ∃ text, expand config budget other = .ok text := by
  rw [expand_eq, h, ← complete_fill_iff]
  simp only [if_neg hnames]
  cases (fill (expand config budget) value).complete with
  | true => simp
  | false => simp

/-- The walks from a name: the name alone, or a reference and a walk from there. -/
theorem forall_walk_iff {config : Tree} {name value : Text}
    (h : valueOf? config name = some value) {P : List Text → Prop} :
    (∀ walk, List.IsChain (RefersTo config) (name :: walk) → P walk) ↔
      P [] ∧ ∀ other ∈ names value, ∀ walk,
        List.IsChain (RefersTo config) (other :: walk) → P (other :: walk) := by
  constructor
  · intro hall
    refine ⟨hall [] (List.isChain_singleton _), fun other hother walk hwalk => ?_⟩
    exact hall _ (List.isChain_cons_cons.mpr ⟨⟨value, h, hother⟩, hwalk⟩)
  · intro hall walk hwalk
    obtain ⟨hnil, hcons⟩ := hall
    cases walk with
    | nil => exact hnil
    | cons other walk =>
      obtain ⟨⟨value', hvalue', hother⟩, hrest⟩ := List.isChain_cons_cons.mp hwalk
      obtain rfl := Option.some.inj (h.symm.trans hvalue')
      exact hcons other hother walk hrest

theorem expand_isOk_iff_of_undefined {config : Tree} {name : Text}
    (h : valueOf? config name = none) (budget : Nat) :
    (∃ text, expand config budget name = .ok text) ↔
      ∀ walk, List.IsChain (RefersTo config) (name :: walk) →
        (∀ x ∈ name :: walk, Defined config x) ∧ walk.length ≤ budget := by
  refine iff_of_false ?_ fun hall => ?_
  · rw [expand_eq, h]
    simp
  · have hdefined := (hall [] (List.isChain_singleton _)).1 name List.mem_cons_self
    rw [Defined, h] at hdefined
    exact absurd hdefined (by decide)

theorem expand_isOk_iff_of_final {config : Tree} {name value : Text}
    (h : valueOf? config name = some value) (hfinal : names value = []) (budget : Nat) :
    (∃ text, expand config budget name = .ok text) ↔
      ∀ walk, List.IsChain (RefersTo config) (name :: walk) →
        (∀ x ∈ name :: walk, Defined config x) ∧ walk.length ≤ budget := by
  refine iff_of_true ⟨value, ?_⟩ ((forall_walk_iff h).mpr ?_)
  · rw [expand_eq, h]
    simp only [if_pos hfinal]
  · rw [hfinal]
    simp [Defined, h]

/-- **The reach of a budget.**  By induction on the budget: one reference of a walk is one nested
expansion. -/
theorem expand_isOk_iff (config : Tree) (budget : Nat) (name : Text) :
    (∃ text, expand config budget name = .ok text) ↔
      ∀ walk, List.IsChain (RefersTo config) (name :: walk) →
        (∀ x ∈ name :: walk, Defined config x) ∧ walk.length ≤ budget := by
  induction budget generalizing name with
  | zero =>
    cases h : valueOf? config name with
    | none => exact expand_isOk_iff_of_undefined h 0
    | some value =>
      by_cases hfinal : names value = []
      · exact expand_isOk_iff_of_final h hfinal 0
      · refine iff_of_false ?_ fun hall => ?_
        · rw [expand_eq, h]
          simp [hfinal]
        · obtain ⟨other, hother⟩ := List.exists_mem_of_ne_nil _ hfinal
          have hshort := ((forall_walk_iff h).mp hall).2 other hother [] (List.isChain_singleton _)
          exact absurd hshort.2 (by simp)
  | succ budget ih =>
    cases h : valueOf? config name with
    | none => exact expand_isOk_iff_of_undefined h _
    | some value =>
      by_cases hfinal : names value = []
      · exact expand_isOk_iff_of_final h hfinal _
      · have hname : Defined config name := by rw [Defined, h]; rfl
        rw [expand_succ_isOk_iff h hfinal, forall_walk_iff h]
        constructor
        · intro hall
          refine ⟨⟨by simpa using hname, Nat.zero_le _⟩, fun other hother walk hwalk => ?_⟩
          obtain ⟨hdefined, hlength⟩ := (ih other).mp (hall other hother) walk hwalk
          exact ⟨List.forall_mem_cons.mpr ⟨hname, hdefined⟩, Nat.succ_le_succ hlength⟩
        · intro hdefined other hother
          obtain ⟨-, hall⟩ := hdefined
          refine (ih other).mpr fun walk hwalk => ?_
          obtain ⟨hdefined, hlength⟩ := hall other hother walk hwalk
          exact ⟨(List.forall_mem_cons.mp hdefined).2, Nat.le_of_succ_le_succ hlength⟩

/-- From a name that reaches a cycle there are walks of any length. -/
theorem exists_long_walk {config : Tree} {y : Text}
    (hcycle : Relation.TransGen (RefersTo config) y y) (n : Nat) :
    ∀ x, Relation.ReflTransGen (RefersTo config) x y →
      ∃ walk, List.IsChain (RefersTo config) (x :: walk) ∧ walk.length = n := by
  induction n with
  | zero => exact fun x _ => ⟨[], List.isChain_singleton _, rfl⟩
  | succ n ih =>
    intro x hx
    have hstep : ∃ z, RefersTo config x z ∧ Relation.ReflTransGen (RefersTo config) z y := by
      rcases Relation.ReflTransGen.cases_head hx with rfl | hstep
      · exact Relation.TransGen.head'_iff.mp hcycle
      · exact hstep
    obtain ⟨z, hxz, hzy⟩ := hstep
    obtain ⟨walk, hwalk, hlength⟩ := ih z hzy
    exact ⟨z :: walk, List.isChain_cons_cons.mpr ⟨hxz, hwalk⟩, congrArg (· + 1) hlength⟩

/-- **When rendering is complete.**  Rendering within a budget is complete exactly if every walk
along references from a token of the text meets only defined names and holds at most one name more
than the budget; and a text from which a cycle can be reached is complete within no budget. -/
theorem complete_iff_walks (config : Tree) (text : Text) :
    (∀ budget, (renderWithin budget config text).complete = true ↔
      ∀ x ∈ names text, ∀ walk, List.IsChain (RefersTo config) (x :: walk) →
        (∀ y ∈ x :: walk, Defined config y) ∧ (x :: walk).length ≤ budget + 1) ∧
    ((∃ x ∈ names text, ∃ y, Relation.ReflTransGen (RefersTo config) x y ∧
        Relation.TransGen (RefersTo config) y y) →
      ∀ budget, (renderWithin budget config text).complete = false) := by
  have hwalks : ∀ budget, (renderWithin budget config text).complete = true ↔
      ∀ x ∈ names text, ∀ walk, List.IsChain (RefersTo config) (x :: walk) →
        (∀ y ∈ x :: walk, Defined config y) ∧ (x :: walk).length ≤ budget + 1 := by
    intro budget
    rw [renderWithin, complete_fill_iff]
    refine forall₂_congr fun x _ => ?_
    rw [expand_isOk_iff]
    simp only [List.length_cons, Nat.add_le_add_iff_right]
  refine ⟨hwalks, ?_⟩
  intro hcycle budget
  obtain ⟨x, hx, y, hreach, hcycle⟩ := hcycle
  rw [← Bool.not_eq_true, hwalks]
  intro hall
  obtain ⟨walk, hwalk, hlength⟩ := exists_long_walk hcycle (budget + 1) x hreach
  have hshort := (hall x hx walk hwalk).2
  rw [List.length_cons, hlength] at hshort
  omega

end LayeredConfig.Template
