import LayeredConfig.Proofs.Text.Pieces
import Mathlib.Data.List.Infix

/-!
# Occurrences of a pattern

A pattern occurs in a text as a run of neighbouring characters.  Searching a text finds it exactly
then, and removing it cuts out occurrences, from the left and as long as there are any.

* `includes_iff` — what searching finds;
* `infix_append_cons`, `prefix_append_cons`, `append_cons_prefix_iff` — occurrences beside a
  separator;
* `infix_flatten_iff` — a pattern occurs in texts put together exactly if it occurs in one of them
  or lies across places where they meet;
* `removeAll_append_self`, `removeAll_append_of_free` — what removing does where the pattern begins
  a text, and where it does not;
* **`removeAll_induction`** — whatever is kept when one occurrence is cut out, wherever it stands,
  is kept by removing.
-/

namespace LayeredConfig.Text

variable {pattern text : Text} {c : Char}

/-! ## Searching -/

theorem includes_iff : includes pattern text = true ↔ pattern <:+: text := by
  induction text with
  | nil => rw [includes, List.isEmpty_iff, List.infix_nil]
  | cons c rest ih =>
    rw [includes, Bool.or_eq_true, ih, List.isPrefixOf_iff_prefix, List.infix_cons_iff]

/-! ## Separators -/

theorem prefix_append_cons {before after : Text} (hc : c ∉ pattern) :
    pattern <+: before ++ c :: after ↔ pattern <+: before := by
  constructor
  · intro h
    by_contra hnot
    obtain ⟨rest, hrest⟩ := h
    rcases List.append_eq_append_iff.mp hrest with ⟨u, hu, -⟩ | ⟨u, hu, htail⟩
    · exact hnot ⟨u, hu.symm⟩
    · cases u with
      | nil => exact hnot (by rw [hu, List.append_nil])
      | cons d u =>
        obtain ⟨rfl, -⟩ := List.cons.inj htail
        exact hc (by simp [hu])
  · intro h
    exact h.trans (List.prefix_append _ _)

theorem prefix_cons_iff_eq_nil {after : Text} (hc : c ∉ pattern) :
    pattern <+: c :: after ↔ pattern = [] := by
  rw [← List.nil_append (c :: after), prefix_append_cons hc, List.prefix_nil]

theorem infix_append_cons {before after : Text} (hc : c ∉ pattern) :
    pattern <:+: before ++ c :: after ↔ pattern <:+: before ∨ pattern <:+: after := by
  constructor
  · intro h
    rcases List.infix_append_iff.mp h with h | h | ⟨u, v, rfl, hu, hv⟩
    · exact Or.inl h
    · rcases List.infix_cons_iff.mp h with h | h
      · exact Or.inl ((prefix_cons_iff_eq_nil hc).mp h ▸ List.nil_infix)
      · exact Or.inr h
    · rw [prefix_cons_iff_eq_nil fun h => hc (List.mem_append_right _ h)] at hv
      rw [hv, List.append_nil]
      exact Or.inl hu.isInfix
  · rintro (h | h)
    · exact h.trans (List.infix_append [] _ _)
    · exact h.trans ((List.suffix_cons _ _).trans (List.suffix_append _ _)).isInfix

/-- The first separators of two texts stand at the same place. -/
theorem append_cons_prefix_iff {first second before after : Text} (hfirst : c ∉ first)
    (hbefore : c ∉ before) :
    first ++ c :: second <+: before ++ c :: after ↔ first = before ∧ second <+: after := by
  constructor
  · intro h
    obtain ⟨rest, hrest⟩ := h
    rw [List.append_assoc, List.cons_append] at hrest
    have hsplit := List.append_eq_append_iff.mp hrest
    rcases hsplit with ⟨u, rfl, htail⟩ | ⟨u, rfl, htail⟩
    · cases u with
      | nil => exact ⟨by simp, ⟨rest, (List.cons.inj htail).2⟩⟩
      | cons d u =>
        obtain ⟨rfl, -⟩ := List.cons.inj htail
        exact absurd (by simp) hbefore
    · cases u with
      | nil => exact ⟨by simp, ⟨rest, (List.cons.inj htail).2.symm⟩⟩
      | cons d u =>
        obtain ⟨rfl, -⟩ := List.cons.inj htail
        exact absurd (by simp) hfirst
  · rintro ⟨rfl, h⟩
    exact (List.prefix_append_right_inj _).mpr (List.cons_prefix_cons.mpr ⟨rfl, h⟩)

/-! ## Texts put together -/

/-- Whether a pattern can be cut so that one of several texts ends in the first part of it and the
texts after that one begin with the second part. -/
def Straddles (pattern : Text) (texts : List Text) : Prop :=
  ∃ front text back first second, texts = front ++ text :: back ∧ pattern = first ++ second ∧
    first ≠ [] ∧ second ≠ [] ∧ first <:+ text ∧ second <+: back.flatten

theorem Straddles.cons {texts : List Text} (h : Straddles pattern texts) (text : Text) :
    Straddles pattern (text :: texts) := by
  obtain ⟨front, piece, back, first, second, rfl, hcut⟩ := h
  exact ⟨text :: front, piece, back, first, second, rfl, hcut⟩

theorem Straddles.isInfix {texts : List Text} (h : Straddles pattern texts) :
    pattern <:+: texts.flatten := by
  obtain ⟨front, text, back, first, second, rfl, rfl, -, -, ⟨before, rfl⟩, ⟨after, hafter⟩⟩ := h
  refine ⟨front.flatten ++ before, after, ?_⟩
  rw [List.flatten_append, List.flatten_cons, ← hafter]
  simp only [List.append_assoc]

/-- Where a pattern occurs in texts put together. -/
theorem infix_flatten_iff (hpattern : pattern ≠ []) {texts : List Text} :
    pattern <:+: texts.flatten ↔
      (∃ text ∈ texts, pattern <:+: text) ∨ Straddles pattern texts := by
  constructor
  · intro h
    induction texts with
    | nil => exact absurd (List.infix_nil.mp h) hpattern
    | cons text texts ih =>
      have hlater : pattern <:+: texts.flatten →
          (∃ piece ∈ text :: texts, pattern <:+: piece) ∨ Straddles pattern (text :: texts) := by
        intro h
        rcases ih h with ⟨piece, hpiece, hoccurs⟩ | hstraddles
        · exact Or.inl ⟨piece, List.mem_cons_of_mem _ hpiece, hoccurs⟩
        · exact Or.inr (hstraddles.cons text)
      rw [List.flatten_cons, List.infix_append_iff] at h
      rcases h with h | h | ⟨first, second, hcut, hfirst, hsecond⟩
      · exact Or.inl ⟨text, List.mem_cons_self, h⟩
      · exact hlater h
      · by_cases hnone : first = []
        · rw [hnone, List.nil_append] at hcut
          exact hlater (hcut ▸ hsecond.isInfix)
        · by_cases hall : second = []
          · rw [hall, List.append_nil] at hcut
            exact Or.inl ⟨text, List.mem_cons_self, hcut ▸ hfirst.isInfix⟩
          · exact Or.inr ⟨[], text, texts, first, second, rfl, hcut, hnone, hall, hfirst, hsecond⟩
  · rintro (⟨text, htext, h⟩ | h)
    · exact h.trans (List.infix_of_mem_flatten htext)
    · exact h.isInfix

/-! ## Removing -/

/-- The characters of an occurrence that has been found are skipped. -/
theorem removeFrom_eq (pattern : Text) (skip : Nat) (text : Text) :
    removeFrom pattern skip text = removeAll pattern (text.drop skip) := by
  induction text generalizing skip with
  | nil => simp [removeAll, removeFrom]
  | cons c rest ih =>
    cases skip with
    | zero => rfl
    | succ skip => exact ih skip

@[simp] theorem removeAll_nil (text : Text) : removeAll [] text = text := by
  induction text with
  | nil => rfl
  | cons c rest ih => exact congrArg (c :: ·) ih

theorem removeAll_append_self (hpattern : pattern ≠ []) (rest : Text) :
    removeAll pattern (pattern ++ rest) = removeAll pattern rest := by
  cases pattern with
  | nil => exact absurd rfl hpattern
  | cons c tail =>
    have hbegins : (c :: tail).isPrefixOf (c :: (tail ++ rest)) = true :=
      List.isPrefixOf_iff_prefix.mpr (List.prefix_append (c :: tail) rest)
    rw [List.cons_append, removeAll, removeFrom, if_pos ⟨hpattern, hbegins⟩, removeFrom_eq,
      List.length_cons, Nat.add_sub_cancel, List.drop_left]

theorem removeAll_cons_of_not_begins {rest : Text} (h : ¬pattern <+: c :: rest) :
    removeAll pattern (c :: rest) = c :: removeAll pattern rest := by
  rw [← List.isPrefixOf_iff_prefix] at h
  rw [removeAll, removeFrom, if_neg fun hand => h hand.2, removeAll]

/-- What is before the first occurrence is kept. -/
theorem removeAll_append_of_free {gap rest : Text}
    (h : ∀ v, v ≠ [] → v <:+ gap → ¬pattern <+: v ++ rest) :
    removeAll pattern (gap ++ rest) = gap ++ removeAll pattern rest := by
  induction gap with
  | nil => rfl
  | cons c gap ih =>
    have hhead : ¬pattern <+: c :: (gap ++ rest) :=
      h (c :: gap) (List.cons_ne_nil _ _) (List.suffix_refl _)
    have htail := ih fun v hne hv => h v hne (hv.trans (List.suffix_cons _ _))
    rw [List.cons_append, removeAll_cons_of_not_begins hhead, htail, List.cons_append]

/-- **What cutting keeps, removing keeps.**  The induction is on what is left to search; `front` is
what has been searched, with nothing to be cut in it any more. -/
theorem removeAll_induction {p : Text → Prop} (hpattern : pattern ≠ [])
    (hcut : ∀ before after, p (before ++ (pattern ++ after)) → p (before ++ after))
    (h : p text) : p (removeAll pattern text) := by
  suffices hall : ∀ n (front rest : Text), rest.length ≤ n → p (front ++ rest) →
      p (front ++ removeAll pattern rest) from hall _ [] text le_rfl h
  intro n
  induction n with
  | zero =>
    intro front rest hlength hrest
    rwa [List.length_eq_zero_iff.mp (Nat.le_zero.mp hlength)] at hrest ⊢
  | succ n ih =>
    intro front rest hlength hrest
    by_cases hbegins : pattern <+: rest
    · obtain ⟨after, rfl⟩ := hbegins
      rw [removeAll_append_self hpattern]
      have hpos := List.length_pos_iff.mpr hpattern
      rw [List.length_append] at hlength
      exact ih front after (by omega) (hcut front after hrest)
    · cases rest with
      | nil => exact hrest
      | cons c rest =>
        rw [removeAll_cons_of_not_begins hbegins, List.append_cons]
        rw [List.append_cons] at hrest
        exact ih (front ++ [c]) rest (Nat.le_of_succ_le_succ hlength) hrest

end LayeredConfig.Text
