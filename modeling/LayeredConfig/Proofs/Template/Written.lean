import LayeredConfig.Proofs.Template.Seams

/-!
# Templates that are written down

A template is written as gaps with tokens between them.  As long as no gap has an opening brace, the
tokens that are found are the ones that were written, whatever stands in the names and however many
closing braces there are in the gaps.

* `gap_of_not_mem` — no token begins in a gap without an opening brace;
* `segments_written` — what was written is what is read;
* **`render_written`** — the names that were written are found, and where their values are final,
  the values stand in the places of the tokens.
-/

namespace LayeredConfig.Template

variable {config : Tree} {budget : Nat} {gap name last : Text} {parts : List (Text × Text)}

/-- The text of gaps, each with a token after it, and of a gap at the end. -/
def written (parts : List (Text × Text)) (last : Text) : Text :=
  parts.flatMap (fun part => part.1 ++ tokenText part.2) ++ last

/-- Gaps without opening braces, and names that a token can have. -/
structure Writable (parts : List (Text × Text)) (last : Text) : Prop where
  gaps : ∀ part ∈ parts, '{' ∉ part.1
  last : '{' ∉ last
  named : ∀ part ∈ parts, part.2 ≠ []
  closed : ∀ part ∈ parts, '}' ∉ part.2

/-! ## Reading what was written -/

/-- A token begins with an opening brace. -/
theorem gap_of_not_mem (h : '{' ∉ gap) (rest : Text) : Gap gap rest := by
  intro v hv hsuffix name hbegins
  obtain ⟨c, tail, rfl⟩ := List.exists_cons_of_ne_nil hv
  obtain ⟨-, -, hstart⟩ := hbegins
  obtain rfl : '{' = c := (List.cons_prefix_cons.mp hstart).1
  exact h (hsuffix.subset List.mem_cons_self)

/-- **What was written is what is read.** -/
theorem segments_written (h : Writable parts last) : Segments (written parts last) parts last := by
  induction parts with
  | nil => exact .last (gap_of_not_mem h.last [])
  | cons part parts ih =>
    obtain ⟨gap, name⟩ := part
    obtain ⟨hgap, hgaps⟩ := List.forall_mem_cons.mp h.gaps
    obtain ⟨hname, hnames⟩ := List.forall_mem_cons.mp h.named
    obtain ⟨hclosed, hcloseds⟩ := List.forall_mem_cons.mp h.closed
    have htext : written ((gap, name) :: parts) last =
        gap ++ (tokenText name ++ written parts last) := by
      simp [written]
    rw [htext]
    exact .token (gap_of_not_mem hgap _) hname hclosed (ih ⟨hgaps, h.last, hnames, hcloseds⟩)

/-! ## Rendering what was written -/

/-- A name is expanded to its value if no token occurs in the value, within any budget. -/
theorem expand_of_final {value : Text} (h : valueOf? config name = some value)
    (hfinal : names value = []) (budget : Nat) : expand config budget name = .ok value :=
  expand_eq_ok_iff.mpr ⟨value, h, Or.inl ⟨hfinal, rfl⟩⟩

/-- Where each token has an expansion, these stand between the gaps, and nothing is missing. -/
theorem Segments.renderWithin_eq {text : Text} {value : Text → Text}
    (h : Segments text parts last)
    (hexpand : ∀ part ∈ parts, expand config budget part.2 = .ok (value part.2)) :
    renderWithin budget config text =
      ⟨parts.flatMap (fun part => part.1 ++ value part.2) ++ last, []⟩ := by
  refine Rendered.eq_mk_nil_iff.mpr ⟨complete_fill_iff.mpr fun name hname => ?_, ?_⟩
  · obtain ⟨part, hpart, rfl⟩ := h.mem_names_iff.mp hname
    exact ⟨_, hexpand part hpart⟩
  · rw [renderWithin, fill_text_eq _ h]
    congr 1
    refine List.flatMap_congr fun part hpart => ?_
    rw [hexpand part hpart, standing]

/-- **Substitution.**  The names that are found in a written template are those that were written,
each where it occurs first.  If each of them, without the white space around it, has a value in
which no token occurs, the template is rendered, within any budget, to the gaps with these values
between them, and no name is missing. -/
theorem render_written (h : Writable parts last) :
    names (written parts last) = (parts.map Prod.snd).eraseDups ∧
      ∀ (config : Tree) (budget : Nat) (value : Text → Text),
        (∀ part ∈ parts, Tree.valueAt? (Text.trimSpace part.2) config = some (value part.2) ∧
          ∀ name, name ≠ [] → '}' ∉ name → ¬tokenText name <:+: value part.2) →
        renderWithin budget config (written parts last) =
          ⟨parts.flatMap (fun part => part.1 ++ value part.2) ++ last, []⟩ := by
  have hread := segments_written h
  refine ⟨by rw [names_eq_eraseDups, hread.occurrences_eq], ?_⟩
  intro config budget value hvalues
  refine hread.renderWithin_eq fun part hpart => ?_
  obtain ⟨hvalue, hfree⟩ := hvalues part hpart
  exact expand_of_final hvalue (names_eq_nil_iff_no_token.mpr hfree) budget

/-- Tokens beside each other, one of them twice, and gaps of closing braces.  One name begins with
a brace, and one goes on in a second line. -/
def braces : List (Text × Text) :=
  [("a\x7d\x7d".toList, " x\n".toList), ([], "\x7bé".toList), ("\x7d".toList, " x\n".toList)]

/-- Values for the names.  One has closing braces, and one a token without a name. -/
def bracesConfig : Tree :=
  [("x".toList, .branch [(Tree.valueKey, .scalar "1\x7d\x7d".toList)]),
    ("\x7bé".toList, .branch [(Tree.valueKey, .scalar "{{}}".toList)])]

/-- The value that a name is rendered to. -/
def bracesValue (name : Text) : Text :=
  if name = " x\n".toList then "1\x7d\x7d".toList else "{{}}".toList

theorem render_written_braces :
    Writable braces "\x7d\x7d".toList ∧
      names (written braces "\x7d\x7d".toList) = [" x\n".toList, "\x7bé".toList] ∧
      (∀ part ∈ braces,
        Tree.valueAt? (Text.trimSpace part.2) bracesConfig = some (bracesValue part.2) ∧
          names (bracesValue part.2) = []) ∧
      renderWithin 0 bracesConfig (written braces "\x7d\x7d".toList) =
        ⟨"a\x7d\x7d1\x7d\x7d{{}}\x7d1\x7d\x7d\x7d\x7d".toList, []⟩ := by
  have h : Writable braces "\x7d\x7d".toList := ⟨by decide, by decide, by decide, by decide⟩
  have hvalues : ∀ part ∈ braces,
      Tree.valueAt? (Text.trimSpace part.2) bracesConfig = some (bracesValue part.2) ∧
        names (bracesValue part.2) = [] := by
    decide +kernel
  obtain ⟨hnames, hrender⟩ := render_written h
  refine ⟨h, hnames.trans (by decide +kernel), hvalues, ?_⟩
  refine (hrender bracesConfig 0 bracesValue fun part hpart => ?_).trans (by decide +kernel)
  obtain ⟨hvalue, hfree⟩ := hvalues part hpart
  exact ⟨hvalue, names_eq_nil_iff_no_token.mp hfree⟩

end LayeredConfig.Template
