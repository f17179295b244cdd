import LayeredConfig.Layout
import LayeredConfig.Proofs.FileSystem.Paths

/-!
# The paths of a layout do not collide

What a path becomes when another one is joined to it is its stem: a slash is put after it unless it
is empty or ends in one.  The stem does not depend on what is joined, so joining is associative, and
different relative paths that are joined to one path stay different.  Main statements:

* `join_text_eq` — a joined path is the stem of the first part and then the second part without the
  slashes at its beginning;
* `join_join` — **joining is associative**, whatever slashes the parts begin and end with;
* `depth_join` — a relative path is put behind one slash, which adds to the depths of both parts;
* `paths_distinct` — **no two relative paths have a template, a snapshot or a target in common**,
  and no template is a snapshot.
-/

namespace LayeredConfig

variable {base r r' : Path} {before text : Text}

namespace Path

/-! ## Stems -/

/-- A text with a slash after it, unless it is empty or ends in one. -/
def stem (text : Text) : Text :=
  if text = [] ∨ text.getLast? = some '/' then text else text ++ ['/']

theorem stem_eq_self_iff : stem text = text ↔ text = [] ∨ text.getLast? = some '/' := by
  unfold stem
  split_ifs with h
  · simp [h]
  · simp [h]

theorem stem_of_open (hne : text ≠ []) (hlast : text.getLast? ≠ some '/') :
    stem text = text ++ ['/'] :=
  if_neg (not_or.mpr ⟨hne, hlast⟩)

@[simp] theorem stem_stem (text : Text) : stem (stem text) = stem text := by
  rw [stem_eq_self_iff]
  unfold stem
  split_ifs with h
  · exact h
  · simp

theorem stem_append (h : stem before = before) (after : Text) :
    stem (before ++ after) = before ++ stem after := by
  by_cases hafter : after = []
  · rw [hafter, List.append_nil, h]
    exact (List.append_nil before).symm
  · have hlast : (before ++ after).getLast? = after.getLast? :=
      List.getLast?_append_of_ne_nil before hafter
    simp only [stem, hlast, List.append_eq_nil_iff, hafter, and_false, false_or]
    split_ifs with hslash
    · rfl
    · rw [List.append_assoc]

theorem head?_stem (h : text ≠ []) : (stem text).head? = text.head? := by
  unfold stem
  split_ifs
  · rfl
  · exact List.head?_append_of_ne_nil text h

/-- Slashes at the beginning are dropped before or after the one at the end is put. -/
theorem dropWhile_stem (text : Text) :
    (stem text).dropWhile (· = '/') = stem (text.dropWhile (· = '/')) := by
  induction text with
  | nil => rfl
  | cons c rest ih =>
    by_cases hc : c = '/'
    · -- A slash is a stem of its own, so it can be taken off the whole.
      have hslash : stem [c] = [c] := stem_eq_self_iff.mpr (by simp [hc])
      have hcons : stem (c :: rest) = c :: stem rest := stem_append hslash rest
      rw [hcons, List.dropWhile_cons_of_pos (by simpa using hc),
        List.dropWhile_cons_of_pos (by simpa using hc), ih]
    · have hhead : (c :: rest).head? ≠ some '/' := by simpa using hc
      have hstem : (stem (c :: rest)).head? ≠ some '/' := by
        rwa [head?_stem (List.cons_ne_nil c rest)]
      rw [dropWhile_of_head? hhead, dropWhile_of_head? hstem]

theorem dropWhile_stem_append (text : Text) {after : Text} (h : after.head? ≠ some '/') :
    (stem text ++ after).dropWhile (· = '/') = stem (text.dropWhile (· = '/')) ++ after := by
  rw [List.dropWhile_append, dropWhile_stem]
  split_ifs with hempty
  · rw [dropWhile_of_head? h, List.isEmpty_iff.mp hempty, List.nil_append]
  · rfl

/-! ## Joining -/

theorem join_text_eq (base : Path) {relative : Text} (h : '\\' ∉ relative) :
    (base.join relative).text = stem base.text ++ relative.dropWhile (· = '/') := by
  rw [join_text base h, stem]
  by_cases hnil : base.text = []
  · simp [hnil]
  · by_cases hslash : base.text.getLast? = some '/'
    · rw [if_neg hnil, if_pos hslash, if_pos (Or.inr hslash)]
    · rw [if_neg hnil, if_neg hslash, if_neg (not_or.mpr ⟨hnil, hslash⟩), List.append_assoc,
        List.singleton_append]

theorem join_join (a b c : Path) : (a.join b.text).join c.text = a.join (b.join c.text).text := by
  apply ext_text
  calc ((a.join b.text).join c.text).text
    _ = stem (stem a.text ++ b.text.dropWhile (· = '/')) ++ c.text.dropWhile (· = '/') := by
      rw [join_text_eq _ c.no_backslash, join_text_eq _ b.no_backslash]
    _ = stem a.text ++ (stem (b.text.dropWhile (· = '/')) ++ c.text.dropWhile (· = '/')) := by
      rw [stem_append (stem_stem a.text), List.append_assoc]
    _ = stem a.text ++ (stem b.text ++ c.text.dropWhile (· = '/')).dropWhile (· = '/') := by
      rw [dropWhile_stem_append _ (head?_dropWhile c.text)]
    _ = (a.join (b.join c.text).text).text := by
      rw [join_text_eq _ (b.join c.text).no_backslash, join_text_eq _ c.no_backslash]

/-- Whether a path does not begin with a slash. -/
def Relative (p : Path) : Prop :=
  p.text.head? ≠ some '/'

instance (p : Path) : Decidable p.Relative :=
  inferInstanceAs (Decidable (_ ≠ _))

namespace Relative

theorem join_text_eq (h : r.Relative) (base : Path) :
    (base.join r.text).text = stem base.text ++ r.text := by
  rw [Path.join_text_eq base r.no_backslash, dropWhile_of_head? h]

/-- Different relative paths are joined to different paths. -/
theorem join_injective (h : r.Relative) (h' : r'.Relative)
    (hjoin : base.join r.text = base.join r'.text) : r = r' := by
  have htext := congrArg Path.text hjoin
  rw [h.join_text_eq, h'.join_text_eq] at htext
  exact ext_text (List.append_cancel_left htext)

theorem suffix_join (h : r.Relative) (base : Path) : r.text <:+ (base.join r.text).text := by
  rw [h.join_text_eq]
  exact List.suffix_append _ _

theorem depth_join (h : r.Relative) (hne : base.text ≠ []) (hlast : base.text.getLast? ≠ some '/') :
    (base.join r.text).depth = base.depth + r.depth + 1 := by
  simp only [depth]
  rw [h.join_text_eq, stem_of_open hne hlast, List.count_append, List.count_append,
    List.count_singleton_self]
  omega

end Relative

/-- What is joined to a directory directly below a path. -/
theorem text_join_join {sub : Text} (hne : sub ≠ []) (hhead : sub.head? ≠ some '/')
    (hlast : sub.getLast? ≠ some '/') (hb : '\\' ∉ sub) (base r : Path) :
    ((base.join sub).join r.text).text =
      stem base.text ++ (sub ++ '/' :: r.text.dropWhile (· = '/')) := by
  rw [join_text_eq _ r.no_backslash, join_text_eq _ hb, dropWhile_of_head? hhead,
    stem_append (stem_stem base.text), stem_of_open hne hlast]
  simp only [List.append_assoc, List.singleton_append]

end Path

/-! ## Templates, snapshots and targets -/

namespace Layout

/-- Templates and snapshots are told apart by the first letter below the configuration
directory. -/
theorem template_ne_snapshot (layout : Layout) (r r' : Path) :
    layout.template r ≠ layout.snapshot r' := by
  intro heq
  have htext := congrArg Path.text heq
  rw [template, snapshot, templatesDir, snapshotsDir,
    Path.text_join_join (by decide) (by decide) (by decide) (by decide),
    Path.text_join_join (by decide) (by decide) (by decide) (by decide)] at htext
  exact absurd (List.cons.inj (List.append_cancel_left htext)).1 (by decide)

/-- **The paths of a layout do not collide.**  Joining is associative, a relative path stands whole
at the end of what it is joined to, and so it is told apart from every other one by its template, by
its snapshot and by its target. -/
theorem paths_distinct :
    (∀ a b c : Path, (a.join b.text).join c.text = a.join (b.join c.text).text) ∧
    (∀ base r : Path, base.text ≠ [] → base.text.getLast? ≠ some '/' → r.Relative →
      (base.join r.text).depth = base.depth + r.depth + 1 ∧ r.text <:+ (base.join r.text).text) ∧
    ∀ (layout : Layout) (r r' : Path), r.Relative → r'.Relative →
      (layout.template r = layout.template r' → r = r') ∧
      (layout.snapshot r = layout.snapshot r' → r = r') ∧
      (layout.target r = layout.target r' → r = r') ∧
      layout.template r ≠ layout.snapshot r' := by
  refine ⟨Path.join_join, fun base r hne hlast hr => ?_, fun layout r r' hr hr' => ?_⟩
  · exact ⟨hr.depth_join hne hlast, hr.suffix_join base⟩
  · exact ⟨hr.join_injective hr', hr.join_injective hr', hr.join_injective hr',
      template_ne_snapshot layout r r'⟩

/-- A path that goes up and comes back down and one with a doubled slash stay apart, although both
lead to the file `b`. -/
theorem paths_distinct_respelled :
    let layout : Layout := ⟨Path.ofText "conf//".toList, Path.ofText []⟩
    let r := Path.ofText "a/../b".toList
    let r' := Path.ofText "a/..//b".toList
    r.Relative ∧ r'.Relative ∧
      ((Path.ofText "/etc".toList).join r.text).depth = 1 + 2 + 1 ∧
      r.text <:+ ((Path.ofText "/etc".toList).join r.text).text ∧
      layout.template r ≠ layout.template r' ∧ layout.snapshot r ≠ layout.snapshot r' ∧
      layout.target r ≠ layout.target r' ∧ layout.template r ≠ layout.snapshot r' := by
  have hr : (Path.ofText "a/../b".toList).Relative := by decide
  have hr' : (Path.ofText "a/..//b".toList).Relative := by decide
  have hne : Path.ofText "a/../b".toList ≠ Path.ofText "a/..//b".toList := by decide
  obtain ⟨hdepth, hsuffix⟩ := paths_distinct.2.1 (Path.ofText "/etc".toList) _ (by decide)
    (by decide) hr
  obtain ⟨htemplate, hsnapshot, htarget, happart⟩ :=
    paths_distinct.2.2 ⟨Path.ofText "conf//".toList, Path.ofText []⟩ _ _ hr hr'
  exact ⟨hr, hr', hdepth, hsuffix, fun h => hne (htemplate h),
    fun h => hne (hsnapshot h), fun h => hne (htarget h), happart⟩

end Layout

end LayeredConfig
