import LayeredConfig.Proofs.FileSystem.Paths
import LayeredConfig.Proofs.Model.Selection

/-!
# Rules select their variants

The directories of a rule are deleted wherever their text occurs.  Under what is asked of rules here
the text of one rule occurs in directories that are joined from rules only where it stands for this
rule, also after other rules have been deleted; so in whatever order the rules are taken, each one
takes away exactly its own directories.

* `Unmistakable` — no segment ends a value, and no two rules share the end of the segment and the
  beginning of the value;
* `Unmistakable.not_prefix_of_segment`, `Unmistakable.not_prefix_of_value` — the text of a rule does
  not begin in the directories of another one;
* `Unmistakable.removeAll_stage`, `Unmistakable.remainder_stage` — what one rule and what all rules
  delete;
* **`accepts_variants`** — the files that belong to directories joined from rules are selected.
-/

namespace LayeredConfig.Rule

/-! ## Rules that cannot be mistaken -/

/-- A text that is one name in a path, without dots, and that may stand in a rule. -/
structure PlainName (name : Text) : Prop where
  not_empty : name ≠ []
  no_slash : '/' ∉ name
  no_backslash : '\\' ∉ name
  no_equals : '=' ∉ name
  no_dot : '.' ∉ name

instance decidablePlainName (name : Text) : Decidable (PlainName name) :=
  decidable_of_iff (name ≠ [] ∧ '/' ∉ name ∧ '\\' ∉ name ∧ '=' ∉ name ∧ '.' ∉ name)
    ⟨fun ⟨h1, h2, h3, h4, h5⟩ => ⟨h1, h2, h3, h4, h5⟩,
      fun ⟨h1, h2, h3, h4, h5⟩ => ⟨h1, h2, h3, h4, h5⟩⟩

/-- A rule whose segment and value are such names. -/
structure Plain (rule : Rule) : Prop where
  segment : PlainName rule.segment
  value : PlainName rule.value

instance decidablePlain (rule : Rule) : Decidable rule.Plain :=
  decidable_of_iff (PlainName rule.segment ∧ PlainName rule.value)
    ⟨fun ⟨h1, h2⟩ => ⟨h1, h2⟩, fun ⟨h1, h2⟩ => ⟨h1, h2⟩⟩

/-- Rules whose texts are told apart wherever they stand next to each other. -/
structure Unmistakable (rules : List Rule) : Prop where
  plain : ∀ rule ∈ rules, rule.Plain
  apart : ∀ rule ∈ rules, ∀ other ∈ rules, ¬rule.segment <:+ other.value
  distinct : ∀ rule ∈ rules, ∀ other ∈ rules, rule.segment <:+ other.segment →
    rule.value <+: other.value → rule = other

instance decidableUnmistakable (rules : List Rule) : Decidable (Unmistakable rules) :=
  decidable_of_iff ((∀ rule ∈ rules, rule.Plain) ∧
      (∀ rule ∈ rules, ∀ other ∈ rules, ¬rule.segment <:+ other.value) ∧
        ∀ rule ∈ rules, ∀ other ∈ rules, rule.segment <:+ other.segment →
          rule.value <+: other.value → rule = other)
    ⟨fun ⟨h1, h2, h3⟩ => ⟨h1, h2, h3⟩, fun ⟨h1, h2, h3⟩ => ⟨h1, h2, h3⟩⟩

variable {rules : List Rule} {rule other : Rule} {rest : Text}

theorem Plain.segmentPath_eq (h : rule.Plain) :
    rule.segmentPath = rule.segment ++ '/' :: rule.value := by
  refine Text.replaceChar_of_not_mem ?_
  simp [h.segment.no_equals, h.value.no_equals]

theorem Plain.pattern_eq (h : rule.Plain) : rule.pattern = rule.segment ++ '/' :: rule.value := by
  rw [pattern, h.segmentPath_eq]
  refine Text.trimEnd_self fun c hc => ?_
  rw [List.append_cons, List.getLast?_append_of_ne_nil _ h.value.not_empty] at hc
  exact decide_eq_false fun heq => h.value.no_slash (heq ▸ List.mem_of_getLast? hc)

theorem Plain.pattern_ne_nil (h : rule.Plain) : rule.pattern ≠ [] := by
  rw [h.pattern_eq]
  simp

theorem Plain.slash_mem_pattern (h : rule.Plain) : '/' ∈ rule.pattern := by
  rw [h.pattern_eq]
  simp

/-! ## Where the text of a rule begins -/

/-- The text of a rule does not begin at a slash. -/
theorem Plain.not_prefix_slash (h : rule.Plain) : ¬rule.pattern <+: '/' :: rest := by
  obtain ⟨c, segment, hsegment⟩ := List.exists_cons_of_ne_nil h.segment.not_empty
  rw [h.pattern_eq, hsegment, List.cons_append, List.cons_prefix_cons]
  rintro ⟨rfl, -⟩
  exact h.segment.no_slash (by simp [hsegment])

theorem Plain.removeAll_slash (h : rule.Plain) :
    Text.removeAll rule.pattern ('/' :: rest) = '/' :: Text.removeAll rule.pattern rest :=
  Text.removeAll_cons_of_not_begins h.not_prefix_slash

/-- The text of a rule does not begin in an ending. -/
theorem Plain.removeAll_ending (h : rule.Plain) {ending : Text} (hending : Ending ending) :
    Text.removeAll rule.pattern ending = ending := by
  have hfree : ∀ {name : Text}, '/' ∉ name → Text.removeAll rule.pattern name = name := by
    intro name hname
    refine (congrArg _ (List.append_nil name).symm).trans
      ((Text.removeAll_append_of_free fun v _ hv hbegins => ?_).trans (List.append_nil name))
    rw [List.append_nil] at hbegins
    exact hname (hv.subset (hbegins.subset h.slash_mem_pattern))
  rcases hending with ⟨format, rfl⟩ | ⟨name, rfl, hname⟩
  · exact hfree format.slash_not_mem_extension
  · rw [h.removeAll_slash, hfree hname.no_slash]

section Unmistakable

variable (h : Unmistakable rules) (hrule : rule ∈ rules) (hother : other ∈ rules)
  (hrest : Closes rest)

include h hrule hother hrest

/-- The text of a rule does not begin in a value: that would be the end of the value. -/
theorem Unmistakable.not_prefix_of_value {v : Text} (hv : v <:+ other.value) :
    ¬rule.pattern <+: v ++ rest := by
  intro hbegins
  have hplain := h.plain rule hrule
  have hslash : '/' ∉ v := fun hmem => (h.plain other hother).value.no_slash (hv.subset hmem)
  have hmem : '/' ∈ v ++ rest := hbegins.subset hplain.slash_mem_pattern
  rcases hrest with rfl | hrest | ⟨format, rfl⟩
  · exact hslash (by simpa using hmem)
  · obtain ⟨rest, rfl⟩ := List.head?_eq_some_iff.mp hrest
    rw [hplain.pattern_eq, Text.append_cons_prefix_iff hplain.segment.no_slash hslash] at hbegins
    exact h.apart rule hrule other hother (hbegins.1 ▸ hv)
  · exact (List.mem_append.mp hmem).elim hslash format.slash_not_mem_extension

/-- The text of a rule does not begin in the segment of another rule: that would be the end of the
segment, and the value of the other rule would begin with its own one. -/
theorem Unmistakable.not_prefix_of_segment (hne : rule ≠ other) {v : Text}
    (hv : v <:+ other.segment) : ¬rule.pattern <+: v ++ '/' :: (other.value ++ rest) := by
  have hplain := h.plain rule hrule
  have hslash : '/' ∉ v := fun hmem => (h.plain other hother).segment.no_slash (hv.subset hmem)
  rw [hplain.pattern_eq, Text.append_cons_prefix_iff hplain.segment.no_slash hslash]
  rintro ⟨rfl, hvalue⟩
  refine hne (h.distinct rule hrule other hother hv ?_)
  rcases hrest with rfl | hrest | ⟨format, rfl⟩
  · rwa [List.append_nil] at hvalue
  · obtain ⟨rest, rfl⟩ := List.head?_eq_some_iff.mp hrest
    exact (Text.prefix_append_cons hplain.value.no_slash).mp hvalue
  · exact (Text.prefix_append_cons hplain.value.no_dot).mp hvalue

/-- The directories of another rule are kept. -/
theorem Unmistakable.removeAll_other (hne : rule ≠ other) :
    Text.removeAll rule.pattern (other.pattern ++ rest) =
      other.pattern ++ Text.removeAll rule.pattern rest := by
  have hsegment : Text.removeAll rule.pattern (other.segment ++ '/' :: (other.value ++ rest)) =
      other.segment ++ Text.removeAll rule.pattern ('/' :: (other.value ++ rest)) :=
    Text.removeAll_append_of_free fun v _ hv =>
      h.not_prefix_of_segment hrule hother hrest hne hv
  have hvalue : Text.removeAll rule.pattern (other.value ++ rest) =
      other.value ++ Text.removeAll rule.pattern rest :=
    Text.removeAll_append_of_free fun v _ hv => h.not_prefix_of_value hrule hother hrest hv
  rw [(h.plain other hother).pattern_eq, List.append_assoc, List.cons_append, hsegment,
    (h.plain rule hrule).removeAll_slash, hvalue, List.append_assoc, List.cons_append]

end Unmistakable

/-! ## What is left after some rules -/

/-- The directories of chosen rules, each with a slash in front of it, and an ending, after the
directories of the rules that are gone have been deleted. -/
def stage (gone chosen : List Rule) (ending : Text) : Text :=
  (chosen.flatMap fun rule => '/' :: if rule ∈ gone then [] else rule.pattern) ++ ending

theorem stage_cons (gone chosen : List Rule) (ending : Text) :
    stage gone (rule :: chosen) ending =
      '/' :: ((if rule ∈ gone then [] else rule.pattern) ++ stage gone chosen ending) := by
  simp [stage]

theorem stage_nil (chosen : List Rule) (ending : Text) :
    stage [] chosen ending = slashed chosen ++ ending := by
  simp [stage, slashed]

theorem stage_of_subset {gone chosen : List Rule} (h : chosen ⊆ gone) (ending : Text) :
    stage gone chosen ending = List.replicate chosen.length '/' ++ ending := by
  induction chosen with
  | nil => rfl
  | cons rule chosen ih =>
    obtain ⟨hrule, hchosen⟩ := List.cons_subset.mp h
    rw [stage_cons, if_pos hrule, ih hchosen]
    rfl

theorem closes_stage (gone chosen : List Rule) {ending : Text} (h : Ending ending) :
    Closes (stage gone chosen ending) := by
  cases chosen with
  | cons rule chosen => exact Or.inr (Or.inl rfl)
  | nil =>
    rcases h with hformat | ⟨name, rfl, -⟩
    · exact Or.inr (Or.inr hformat)
    · exact Or.inr (Or.inl rfl)

/-- **One rule.**  Each rule deletes its own directories and nothing else. -/
theorem Unmistakable.removeAll_stage (h : Unmistakable rules) (hrule : rule ∈ rules)
    {chosen : List Rule} (hchosen : chosen ⊆ rules) {ending : Text} (hending : Ending ending)
    (gone : List Rule) :
    Text.removeAll rule.pattern (stage gone chosen ending) =
      stage (rule :: gone) chosen ending := by
  have hplain := h.plain rule hrule
  induction chosen with
  | nil => exact hplain.removeAll_ending hending
  | cons other chosen ih =>
    obtain ⟨hother, hchosen⟩ := List.cons_subset.mp hchosen
    have hstage := ih hchosen
    rw [stage_cons, stage_cons, hplain.removeAll_slash]
    congr 1
    by_cases hgone : other ∈ gone
    · rw [if_pos hgone, if_pos (List.mem_cons_of_mem _ hgone), List.nil_append, List.nil_append,
        hstage]
    · rw [if_neg hgone]
      by_cases hsame : rule = other
      · subst hsame
        rw [if_pos List.mem_cons_self, Text.removeAll_append_self hplain.pattern_ne_nil, hstage,
          List.nil_append]
      · rw [if_neg (by simp [hgone, Ne.symm hsame]),
          h.removeAll_other hrule hother (closes_stage gone chosen hending) hsame, hstage]

/-- **All rules.**  When rules have been taken in any order, their directories are deleted. -/
theorem Unmistakable.remainder_stage (h : Unmistakable rules) {chosen : List Rule}
    (hchosen : chosen ⊆ rules) {ending : Text} (hending : Ending ending) {given : List Rule}
    (hgiven : given ⊆ rules) (gone : List Rule) {text : Text}
    (htext : '/' :: text = stage gone chosen ending) :
    '/' :: remainder given text = stage (given.reverse ++ gone) chosen ending := by
  induction given generalizing gone text with
  | nil => exact htext
  | cons rule given ih =>
    obtain ⟨hrule, hgiven⟩ := List.cons_subset.mp hgiven
    have hnext : '/' :: Text.removeAll rule.pattern text = stage (rule :: gone) chosen ending := by
      rw [← (h.plain rule hrule).removeAll_slash, htext,
        h.removeAll_stage hrule hchosen hending]
    rw [List.reverse_cons, List.append_assoc, List.singleton_append]
    exact ih hgiven (rule :: gone) hnext

/-! ## Selected files -/

/-- The directories of rules, one below the other. -/
def directories (chosen : List Rule) : Text :=
  Text.join ['/'] (chosen.map segmentPath)

theorem Unmistakable.slash_directories (h : Unmistakable rules) {chosen : List Rule}
    (hne : chosen ≠ []) (hchosen : chosen ⊆ rules) :
    '/' :: directories chosen = slashed chosen := by
  obtain ⟨first, more, rfl⟩ := List.exists_cons_of_ne_nil hne
  rw [← slash_join, directories]
  refine congrArg (fun pieces => '/' :: Text.join ['/'] pieces) (List.map_congr_left ?_)
  intro rule hrule
  have hplain := h.plain rule (hchosen hrule)
  rw [hplain.segmentPath_eq, hplain.pattern_eq]

theorem Unmistakable.not_mem_directories (h : Unmistakable rules) {chosen : List Rule}
    (hchosen : chosen ⊆ rules) : '\\' ∉ directories chosen := by
  refine Text.not_mem_join (by decide) fun piece hpiece => ?_
  obtain ⟨rule, hrule, rfl⟩ := List.mem_map.mp hpiece
  have hplain := h.plain rule (hchosen hrule)
  rw [hplain.segmentPath_eq]
  simp [hplain.segment.no_backslash, hplain.value.no_backslash]

/-- Every ending selects a file below directories of the rules. -/
theorem Unmistakable.accepts_of_ending (h : Unmistakable rules) {order chosen : List Rule}
    (horder : order.Perm rules) (hne : chosen ≠ []) (hchosen : chosen ⊆ rules) {ending : Text}
    (hending : Ending ending) (hback : '\\' ∉ ending) :
    accepts order (Path.ofText (directories chosen ++ ending)) = true := by
  have htext : (Path.ofText (directories chosen ++ ending)).text = directories chosen ++ ending :=
    Path.ofText_text (by simp [h.not_mem_directories hchosen, hback])
  have hstart : '/' :: (directories chosen ++ ending) = stage [] chosen ending := by
    rw [stage_nil, ← h.slash_directories hne hchosen, List.cons_append]
  have hleft : '/' :: remainder order (directories chosen ++ ending) =
      List.replicate chosen.length '/' ++ ending := by
    rw [h.remainder_stage hchosen hending horder.subset [] hstart, List.append_nil]
    exact stage_of_subset (fun rule hrule =>
      List.mem_reverse.mpr (horder.mem_iff.mpr (hchosen hrule))) ending
  have hselects : selects (remainder order (directories chosen ++ ending)) = true := by
    obtain ⟨first, more, rfl⟩ := List.exists_cons_of_ne_nil hne
    exact selects_iff.mpr ⟨more.length, ending, (List.cons.inj hleft).2, hending⟩
  rw [accepts, htext, hselects, Bool.or_true]

/-- **Rules select their variants.**  If rules cannot be mistaken, then below the directories of any
of them, joined in any order and as often as one likes, the file that is only an extension and the
files that start with a dot are selected, in whatever order the rules are given. -/
theorem accepts_variants {rules : List Rule} (h : Unmistakable rules) {chosen : List Rule}
    (hne : chosen ≠ []) (hchosen : ∀ rule ∈ chosen, rule ∈ rules) (format : FileFormat)
    {name : Text} (hslash : '/' ∉ name) (hback : '\\' ∉ name) {order : List Rule}
    (horder : order.Perm rules) :
    accepts order (Path.ofText (directories chosen ++ '.' :: format.extension)) = true ∧
      accepts order (Path.ofText
        (directories chosen ++ '/' :: '.' :: (name ++ '.' :: format.extension))) = true ∧
      accepts order
        (Path.ofText (directories chosen ++ '/' :: '.' :: format.extension)) = true := by
  have hextension : '\\' ∉ '.' :: format.extension := by cases format <;> decide
  have hfile : DotFile ('.' :: (name ++ '.' :: format.extension)) := by
    refine ⟨?_, rfl, format, (List.suffix_append _ _).trans (List.suffix_cons _ _)⟩
    have := format.slash_not_mem_extension
    simp_all
  refine ⟨h.accepts_of_ending horder hne hchosen (Or.inl ⟨format, rfl⟩) hextension,
    h.accepts_of_ending horder hne hchosen (Or.inr ⟨_, rfl, hfile⟩) (by simp_all),
    h.accepts_of_ending horder hne hchosen (Or.inr ⟨_, rfl, dotFile_extension format⟩)
      (by simp_all)⟩

/-- Below directories of two rules, with one of them twice, and with the rules in another order. -/
theorem accepts_variants_twoRules :
    Unmistakable [envProd, regionEu] ∧ [regionEu, envProd].Perm [envProd, regionEu] ∧
      (∀ rule ∈ [regionEu, envProd, regionEu], rule ∈ [envProd, regionEu]) ∧
      directories [regionEu, envProd, regionEu] = "region/eu/env/prod/region/eu".toList ∧
      accepts [regionEu, envProd] (Path.ofText
        (directories [regionEu, envProd, regionEu] ++ ".json".toList)) = true ∧
      accepts [regionEu, envProd] (Path.ofText
        (directories [regionEu, envProd, regionEu] ++ "/.app.v2.json".toList)) = true := by
  have h : Unmistakable [envProd, regionEu] := by decide
  have horder : [regionEu, envProd].Perm [envProd, regionEu] := by decide
  have hchosen : ∀ rule ∈ [regionEu, envProd, regionEu], rule ∈ [envProd, regionEu] := by decide
  obtain ⟨hdirect, hfile, -⟩ := accepts_variants h (List.cons_ne_nil _ _) hchosen .json
    (show '/' ∉ "app.v2".toList by decide) (by decide) horder
  exact ⟨h, horder, hchosen, by decide, hdirect, hfile⟩

end LayeredConfig.Rule
