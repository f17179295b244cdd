import LayeredConfig.Proofs.Text.Occurrences
import LayeredConfig.Proofs.Text.Order
import LayeredConfig.Proofs.Tree.Layers
import LayeredConfig.Tree.Key

/-!
# The places of flat keys

A flat key names the place of its value by a path.  Where the path of one key is the beginning of
the path of another one the two need the same place, one for a scalar and one for a branch.

* `splitAt_prefix_of_keyPath` — then the segments of the first key begin those of the second one;
* `keyPath_injective` — different keys have different paths, with metadata or without;
* `lt_of_keyPath_begins` — of two keys that need one place, the one with the shorter path comes
  first in the order of texts;
* `touches_single`, `walk?_single_iff` — what the tree of one key holds.
-/

namespace LayeredConfig.Tree

variable {key other : Text}

/-! ## Segments -/

/-- A key whose segments begin those of another one begins it. -/
theorem prefix_of_segments (h : Text.splitAt '.' key <+: Text.splitAt '.' other) :
    key <+: other := by
  obtain ⟨rest, hrest⟩ := h
  rw [← Text.join_splitAt '.' key, ← Text.join_splitAt '.' other, ← hrest]
  by_cases hnil : rest = []
  · rw [hnil, List.append_nil]
  · rw [Text.join_append _ (Text.splitAt_ne_nil _ _) hnil, List.append_assoc]
    exact List.prefix_append _ _

theorem splitAt_injective (h : Text.splitAt '.' key = Text.splitAt '.' other) : key = other := by
  rw [← Text.join_splitAt '.' key, h, Text.join_splitAt]

theorem splitAt_value (key : Text) :
    Text.splitAt '.' (key ++ '.' :: valueKey) = Text.splitAt '.' key ++ [valueKey] := by
  rw [Text.splitAt_append]
  rfl

/-- A value has no mark of metadata in its path that its key does not have. -/
theorem includes_of_splitAt_eq_concat
    (h : Text.splitAt '.' other = Text.splitAt '.' key ++ [valueKey]) :
    Text.includes metadataMark other = Text.includes metadataMark key := by
  have hother : other = key ++ '.' :: valueKey := by
    apply splitAt_injective
    rw [h, splitAt_value]
  have hvalue : ¬metadataMark <:+: valueKey := by decide
  rw [Bool.eq_iff_iff, Text.includes_iff, Text.includes_iff, hother,
    Text.infix_append_cons (by decide), or_iff_left hvalue]

/-! ## Paths of keys -/

theorem keyPath_of_metadata (h : Text.includes metadataMark key = true) :
    keyPath key = Text.splitAt '.' key := if_pos h

theorem keyPath_of_value (h : Text.includes metadataMark key = false) :
    keyPath key = Text.splitAt '.' key ++ [valueKey] := if_neg (by rw [h]; decide)

theorem keyPath_ne_nil (key : Text) : keyPath key ≠ [] := by
  cases h : Text.includes metadataMark key with
  | true => exact keyPath_of_metadata h ▸ Text.splitAt_ne_nil '.' key
  | false => simp [keyPath_of_value h]

/-- A key whose path begins the path of another one begins with its segments the segments of that
one.  Only the step `value` at the end of a path could stand against this; the cases are which of
the two paths have it. -/
theorem splitAt_prefix_of_keyPath (h : keyPath key <+: keyPath other) :
    Text.splitAt '.' key <+: Text.splitAt '.' other := by
  cases hkey : Text.includes metadataMark key with
  | false =>
    rw [keyPath_of_value hkey] at h
    cases hother : Text.includes metadataMark other with
    | true =>
      rw [keyPath_of_metadata hother] at h
      exact (List.prefix_append _ _).trans h
    | false =>
      rw [keyPath_of_value hother] at h
      rcases List.prefix_concat_iff.mp h with heq | hshort
      · rw [(List.append_inj' heq rfl).1]
      · exact (List.prefix_append _ _).trans hshort
  | true =>
    rw [keyPath_of_metadata hkey] at h
    cases hother : Text.includes metadataMark other with
    | true => rwa [keyPath_of_metadata hother] at h
    | false =>
      rw [keyPath_of_value hother] at h
      rcases List.prefix_concat_iff.mp h with heq | hshort
      · have hsame := includes_of_splitAt_eq_concat heq
        rw [hkey, hother] at hsame
        exact absurd hsame (by decide)
      · exact hshort

/-- **Different keys have different paths.** -/
theorem keyPath_injective (h : keyPath key = keyPath other) : key = other := by
  have hthere : Text.splitAt '.' key <+: Text.splitAt '.' other :=
    splitAt_prefix_of_keyPath (by rw [h])
  have hback : Text.splitAt '.' other <+: Text.splitAt '.' key :=
    splitAt_prefix_of_keyPath (by rw [h])
  exact splitAt_injective (hthere.eq_of_length (le_antisymm hthere.length_le hback.length_le))

/-- **The longer path comes later.** -/
theorem lt_of_keyPath_begins (h : keyPath key <+: keyPath other) (hne : key ≠ other) :
    key < other := by
  have hbegins := prefix_of_segments (splitAt_prefix_of_keyPath h)
  exact lt_of_le_of_ne (not_lt.mp (List.not_lt.mpr hbegins.le)) hne

/-! ## The tree of one key -/

/-- The tree of one path touches what is on the path and what is below its end. -/
theorem touches_single {path keys : List Text} (hkeys : keys ≠ []) (value : Text) :
    touches path (single keys value) = true ↔ path <+: keys ∨ keys <+: path := by
  induction keys generalizing path with
  | nil => exact absurd rfl hkeys
  | cons key keys ih =>
    cases path with
    | nil => simp [touches]
    | cons name path =>
      by_cases hname : key = name
      · subst hname
        cases keys with
        | nil => simp [touches, single, Entries.get?]
        | cons next keys =>
          simp only [touches, single, Entries.get?_cons, if_pos, ih (List.cons_ne_nil _ _),
            List.cons_prefix_cons, true_and]
      · cases keys <;> simp [touches, single, Entries.get?, hname, Ne.symm hname]

/-- The tree of one path has one scalar, at the end of the path. -/
theorem walk?_single_iff {path keys : List Text} (hkeys : keys ≠ []) {value text : Text} :
    walk? path (single keys value) = some (.scalar text) ↔ path = keys ∧ text = value := by
  induction keys generalizing path with
  | nil => exact absurd rfl hkeys
  | cons key keys ih =>
    cases path with
    | nil => simp [walk?]
    | cons name path =>
      by_cases hname : name = key
      · subst hname
        cases keys with
        | nil => cases path <;> simp [walk?, single, Entries.get?, eq_comm]
        | cons next keys =>
          cases path with
          | nil => simp [walk?, single, Entries.get?]
          | cons below path =>
            simp only [walk?, single, Entries.get?_cons, if_pos, ih (List.cons_ne_nil _ _),
              List.cons.injEq, true_and]
      · cases keys <;> cases path <;> simp [walk?, single, Entries.get?, hname, Ne.symm hname]

end LayeredConfig.Tree
