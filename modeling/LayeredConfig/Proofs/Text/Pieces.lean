import LayeredConfig.Text.Basic
import Mathlib.Tactic.Common

/-!
# Pieces between separators, and trimming

Splitting at a character and joining with it undo each other, so a text can be read as the list
of its pieces.  Main statements:

* `splitAt_eq_splitOn`, `join_eq_intercalate` — both are the operations on lists;
* `join_splitAt`, `splitAt_join` — **the round trips**;
* `splitAt_append`, `join_append` — concatenation at a separator;
* `exists_splitAt_append` — what has no separator goes on the last piece;
* `afterLast?_append`, `suffix_of_afterLast?` — the text after the last separator.

Trimming the end of a text cuts off the longest end that is made of characters of a class:

* `trimEnd_append` — what does not end in the class is kept, and what is made of it is cut off;
* `exists_trimEnd` — what is trimmed and what is left;
* `trimEnd_self` — a text that does not end in the class is left as it is.
-/

namespace LayeredConfig.Text

variable {c : Char} {piece text : Text} {pieces : List Text}

theorem splitAt_eq_splitOn (c : Char) (text : Text) : splitAt c text = text.splitOn c := by
  induction text with
  | nil => rfl
  | cons d rest ih =>
    rw [splitAt, List.splitOn_cons_eq_if_modifyHead, ih]
    by_cases h : d = c
    · simp [h]
    · rw [if_neg h, if_neg (by simpa using h)]
      cases hs : List.splitOn c rest with
      | nil => exact absurd hs (List.splitOn_ne_nil c rest)
      | cons p ps => rfl

theorem join_eq_intercalate (separator : Text) (pieces : List Text) :
    join separator pieces = separator.intercalate pieces := by
  induction pieces with
  | nil => rfl
  | cons p ps ih =>
    cases ps with
    | nil => simp [join, List.intercalate]
    | cons q qs => simp [join, List.intercalate, ih, List.append_assoc]

theorem splitAt_ne_nil (c : Char) (text : Text) : splitAt c text ≠ [] := by
  rw [splitAt_eq_splitOn]
  exact List.splitOn_ne_nil c text

@[simp] theorem join_splitAt (c : Char) (text : Text) : join [c] (splitAt c text) = text := by
  rw [splitAt_eq_splitOn, join_eq_intercalate]
  exact List.intercalate_splitOn c

theorem splitAt_join (hne : pieces ≠ []) (h : ∀ piece ∈ pieces, c ∉ piece) :
    splitAt c (join [c] pieces) = pieces := by
  rw [splitAt_eq_splitOn, join_eq_intercalate]
  exact List.splitOn_intercalate c h hne

theorem splitAt_append (c : Char) (before after : Text) :
    splitAt c (before ++ c :: after) = splitAt c before ++ splitAt c after := by
  simp only [splitAt_eq_splitOn]
  exact List.splitOn_append_cons_self before after

theorem not_mem_of_mem_splitAt (h : piece ∈ splitAt c text) : c ∉ piece := by
  induction text generalizing piece with
  | nil =>
    obtain rfl : piece = [] := by simpa [splitAt] using h
    simp
  | cons d rest ih =>
    rw [splitAt] at h
    split_ifs at h with hd
    · rcases List.mem_cons.mp h with rfl | h
      · simp
      · exact ih h
    · cases hs : splitAt c rest with
      | nil => exact absurd hs (splitAt_ne_nil c rest)
      | cons p ps =>
        rw [hs] at h ih
        rcases List.mem_cons.mp h with rfl | h
        · have hp := ih (List.mem_cons_self)
          simp [hp, Ne.symm hd]
        · exact ih (List.mem_cons_of_mem _ h)

theorem join_append (separator : Text) {first second : List Text} (h1 : first ≠ [])
    (h2 : second ≠ []) :
    join separator (first ++ second) =
      join separator first ++ separator ++ join separator second := by
  induction first with
  | nil => exact absurd rfl h1
  | cons p ps ih =>
    cases ps with
    | nil =>
      obtain ⟨q, qs, rfl⟩ := List.exists_cons_of_ne_nil h2
      rfl
    | cons r rs =>
      have hrec := ih (by simp)
      rw [List.cons_append] at hrec
      simp only [List.cons_append, join, hrec, List.append_assoc]

theorem not_mem_join {separator : Text} (hsep : c ∉ separator) (h : ∀ piece ∈ pieces, c ∉ piece) :
    c ∉ join separator pieces := by
  induction pieces with
  | nil => simp [join]
  | cons p ps ih =>
    have hps := ih fun piece hpiece => h piece (List.mem_cons_of_mem _ hpiece)
    cases ps with
    | nil => exact h p List.mem_cons_self
    | cons q qs =>
      rw [join, List.mem_append, List.mem_append, not_or, not_or]
      exact ⟨⟨h p List.mem_cons_self, hsep⟩, hps⟩

theorem mem_join {separator : Text} (h : piece ∈ pieces) (hc : c ∈ piece) :
    c ∈ join separator pieces := by
  induction pieces with
  | nil => simp at h
  | cons p ps ih =>
    cases ps with
    | nil => exact List.mem_singleton.mp h ▸ hc
    | cons q qs =>
      rw [join, List.mem_append, List.mem_append]
      rcases List.mem_cons.mp h with rfl | h
      · exact Or.inl (Or.inl hc)
      · exact Or.inr (ih h)

theorem getLast?_join (separator : Text) (pieces : List Text) (h : piece ≠ []) :
    (join separator (pieces ++ [piece])).getLast? = piece.getLast? := by
  by_cases hpieces : pieces = []
  · rw [hpieces]
    rfl
  · rw [join_append _ hpieces (by simp), join, List.getLast?_append]
    cases hget : piece.getLast? with
    | none => exact absurd (List.getLast?_eq_none_iff.mp hget) h
    | some d => rfl

theorem length_splitAt_le (c : Char) (text : Text) :
    (splitAt c text).length ≤ text.length + 1 := by
  induction text with
  | nil => simp [splitAt]
  | cons d rest ih =>
    rw [splitAt]
    split_ifs
    · simpa using ih
    · cases hs : splitAt c rest with
      | nil => simp
      | cons p ps =>
        rw [hs] at ih
        simp only [List.length_cons] at ih ⊢
        omega

theorem splitAt_of_not_mem (h : c ∉ text) : splitAt c text = [text] := by
  have hpiece : splitAt c (join [c] [text]) = [text] :=
    splitAt_join (List.cons_ne_nil _ _) (by simpa using h)
  exact hpiece

/-- What has no separator and is put at the end of a text is put at the end of its last piece. -/
theorem exists_splitAt_append {after : Text} (h : c ∉ after) (before : Text) :
    ∃ front last, splitAt c before = front ++ [last] ∧
      splitAt c (before ++ after) = front ++ [last ++ after] := by
  induction before with
  | nil => exact ⟨[], [], rfl, splitAt_of_not_mem h⟩
  | cons d before ih =>
    obtain ⟨front, last, hbefore, hafter⟩ := ih
    rw [List.cons_append, splitAt, splitAt, hbefore, hafter]
    split_ifs with hd
    · exact ⟨[] :: front, last, rfl, rfl⟩
    · cases front with
      | nil => exact ⟨[], d :: last, rfl, rfl⟩
      | cons piece front => exact ⟨(d :: piece) :: front, last, rfl, rfl⟩

/-- The last piece ends in whatever has no separator at the end of the text. -/
theorem exists_getLast?_splitAt {after : Text} (h : c ∉ after) (before : Text) :
    ∃ front, (splitAt c (before ++ after)).getLast? = some (front ++ after) := by
  obtain ⟨front, last, -, hafter⟩ := exists_splitAt_append h before
  exact ⟨last, by rw [hafter, List.getLast?_concat]⟩

theorem afterLast?_eq_none (h : c ∉ text) : afterLast? c text = none := by
  induction text with
  | nil => rfl
  | cons d rest ih =>
    rw [List.mem_cons, not_or] at h
    rw [afterLast?, ih h.2]
    exact if_neg (Ne.symm h.1)

theorem afterLast?_append {after : Text} (h : c ∉ after) (before : Text) :
    afterLast? c (before ++ c :: after) = some after := by
  induction before with
  | nil =>
    rw [List.nil_append, afterLast?, afterLast?_eq_none h]
    exact if_pos rfl
  | cons d before ih => rw [List.cons_append, afterLast?, ih]

theorem suffix_of_afterLast? {after : Text} (h : afterLast? c text = some after) :
    c :: after <:+ text := by
  induction text with
  | nil => simp [afterLast?] at h
  | cons d rest ih =>
    rw [afterLast?] at h
    split at h
    · next found hfound =>
      obtain rfl := Option.some.inj h
      exact (ih hfound).trans (List.suffix_cons d rest)
    · split_ifs at h with hd
      obtain rfl := Option.some.inj h
      exact hd ▸ List.suffix_refl _

/-! ## Trimming -/

variable {inClass : Char → Bool}

theorem trimEnd_eq_nil {tail : Text} (h : ∀ c ∈ tail, inClass c = true) :
    trimEnd inClass tail = [] := by
  induction tail with
  | nil => rfl
  | cons c tail ih =>
    rw [trimEnd, ih fun d hd => h d (List.mem_cons_of_mem _ hd)]
    exact if_pos (h c List.mem_cons_self)

/-- What is trimmed is all in the class, and what is left does not end in it. -/
theorem exists_trimEnd (inClass : Char → Bool) (text : Text) :
    ∃ tail, text = trimEnd inClass text ++ tail ∧ (∀ c ∈ tail, inClass c = true) ∧
      ∀ c, (trimEnd inClass text).getLast? = some c → inClass c = false := by
  induction text with
  | nil => exact ⟨[], rfl, by simp, by simp [trimEnd]⟩
  | cons c rest ih =>
    obtain ⟨tail, hrest, htail, hlast⟩ := ih
    cases hkept : trimEnd inClass rest with
    | nil =>
      rw [hkept, List.nil_append] at hrest
      subst hrest
      by_cases hc : inClass c = true
      · have htrim : trimEnd inClass (c :: rest) = [] := by simp [trimEnd, hkept, hc]
        exact ⟨c :: rest, by rw [htrim, List.nil_append],
          List.forall_mem_cons.mpr ⟨hc, htail⟩, by simp [htrim]⟩
      · have htrim : trimEnd inClass (c :: rest) = [c] := by simp [trimEnd, hkept, hc]
        exact ⟨rest, by rw [htrim, List.singleton_append], htail, by simpa [htrim] using hc⟩
    | cons d kept =>
      have htrim : trimEnd inClass (c :: rest) = c :: d :: kept := by rw [trimEnd, hkept]
      refine ⟨tail, ?_, htail, ?_⟩
      · rw [htrim, List.cons_append, ← hkept, ← hrest]
      · rw [htrim, List.getLast?_cons_cons, ← hkept]
        exact hlast

theorem trimEnd_append {kept tail : Text} (hkept : ∀ c, kept.getLast? = some c → inClass c = false)
    (htail : ∀ c ∈ tail, inClass c = true) : trimEnd inClass (kept ++ tail) = kept := by
  induction kept with
  | nil => exact trimEnd_eq_nil htail
  | cons c kept ih =>
    rw [List.cons_append, trimEnd]
    cases kept with
    | nil =>
      rw [List.nil_append, trimEnd_eq_nil htail]
      simp [hkept c rfl]
    | cons d kept => rw [ih fun e he => hkept e (by rwa [List.getLast?_cons_cons])]

theorem trimEnd_self {text : Text} (h : ∀ c, text.getLast? = some c → inClass c = false) :
    trimEnd inClass text = text := by
  simpa using trimEnd_append h (List.forall_mem_nil _)

end LayeredConfig.Text
