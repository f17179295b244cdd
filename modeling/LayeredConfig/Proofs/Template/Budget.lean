import LayeredConfig.Proofs.Template.Reach

/-!
# What a budget decides

The budget bounds how deep values are expanded inside values.  It decides whether a name is
expanded, but never to what: a name that some budget expands has one expansion, and each larger
budget finds the same one.

* `expand_eq_ok_iff` — a name is expanded if its value is final, or if its value is rendered
  completely within one unit less;
* **`renderWithin_of_le`** — what is put for a token stays when the budget grows, and a complete
  rendering does not change;
* `Unfolds` — a text read down to the gaps of the text and of all values in it, without a budget;
* **`exists_complete_iff_unfolds`** — some budget renders a text completely exactly if it unfolds,
  and then the gaps in order are what it is rendered to.
-/

namespace LayeredConfig.Template

variable {config : Tree} {budget larger : Nat} {name text : Text}

/-! ## Texts without tokens -/

/-- A text without tokens is one gap. -/
theorem names_eq_nil_iff : names text = [] ↔ Gap text [] := by
  constructor
  · intro h
    obtain ⟨parts, last, hparts⟩ := exists_segments text
    cases hparts with
    | last free => exact free
    | @token gap name _ _ _ free named closed more =>
      have hname := (Segments.token free named closed more).mem_names_iff.mpr
        ⟨(gap, name), List.mem_cons_self, rfl⟩
      rw [h] at hname
      exact absurd hname List.not_mem_nil
  · intro free
    rw [names_eq_eraseDups, (Segments.last free).occurrences_eq]
    rfl

theorem Rendered.eq_mk_nil_iff {rendered : Rendered} :
    rendered = ⟨text, []⟩ ↔ rendered.complete = true ∧ rendered.text = text := by
  obtain ⟨whole, missing⟩ := rendered
  simp [Rendered.complete, and_comm]

/-- A text without tokens is rendered to itself. -/
theorem renderWithin_of_final (h : names text = []) (budget : Nat) (config : Tree) :
    renderWithin budget config text = ⟨text, []⟩ := by
  have hgap := Segments.last (names_eq_nil_iff.mp h)
  refine Rendered.eq_mk_nil_iff.mpr ⟨?_, fill_text_eq _ hgap⟩
  rw [Rendered.complete, List.isEmpty_iff]
  exact fill_missing_eq _ hgap

/-! ## Names that are expanded -/

/-- **What a name is expanded to.**  Its value if that has no tokens, and otherwise what its value
is rendered to within one unit less. -/
theorem expand_eq_ok_iff :
    expand config budget name = .ok text ↔
      ∃ value, valueOf? config name = some value ∧
        (names value = [] ∧ text = value ∨
          ∃ inner, budget = inner + 1 ∧ renderWithin inner config value = ⟨text, []⟩) := by
  rw [expand_eq]
  cases h : valueOf? config name with
  | none => simp
  | some value =>
    simp only [Option.some.injEq, exists_eq_left']
    by_cases hfinal : names value = []
    · have hrender : ∀ inner, renderWithin inner config value = ⟨value, []⟩ :=
        fun inner => renderWithin_of_final hfinal inner config
      simp [hfinal, hrender, eq_comm]
    · rw [if_neg hfinal]
      cases budget with
      | zero => simp [hfinal]
      | succ inner =>
        simp only [hfinal, false_and, false_or, Nat.add_right_cancel_iff, exists_eq_left',
          Rendered.eq_mk_nil_iff, renderWithin]
        cases (fill (expand config inner) value).complete with
        | true => simp
        | false => simp

/-- Where every expansion is kept a complete rendering is kept. -/
theorem renderWithin_eq_of_complete
    (hkeep : ∀ name value, expand config budget name = .ok value →
      expand config larger name = .ok value)
    (h : (renderWithin budget config text).complete = true) :
    renderWithin larger config text = renderWithin budget config text := by
  refine fill_congr fun name hname => ?_
  obtain ⟨value, hvalue⟩ := complete_fill_iff.mp h name hname
  rw [hvalue, hkeep name value hvalue]

/-- **A larger budget keeps every expansion.**  By induction on the smaller budget: the value is
final, or it is rendered completely within less of that budget, and then in the same way within less
of the larger one. -/
theorem expand_of_le (h : budget ≤ larger) {value : Text}
    (hexpand : expand config budget name = .ok value) :
    expand config larger name = .ok value := by
  induction budget using Nat.strong_induction_on generalizing larger name value with
  | _ budget ih =>
    obtain ⟨raw, hraw, ⟨hfinal, rfl⟩ | ⟨inner, rfl, hrender⟩⟩ := expand_eq_ok_iff.mp hexpand
    · exact expand_eq_ok_iff.mpr ⟨value, hraw, Or.inl ⟨hfinal, rfl⟩⟩
    · obtain ⟨less, rfl⟩ : ∃ less, larger = less + 1 := ⟨larger - 1, by omega⟩
      have hle : inner ≤ less := by omega
      have hsame : renderWithin less config raw = renderWithin inner config raw :=
        renderWithin_eq_of_complete (fun name value => ih inner (Nat.lt_succ_self inner) hle)
          (Rendered.eq_mk_nil_iff.mp hrender).1
      exact expand_eq_ok_iff.mpr ⟨raw, hraw, Or.inr ⟨less, rfl, hsame.trans hrender⟩⟩

/-- A larger budget keeps every complete rendering. -/
theorem renderWithin_eq_of_le (h : budget ≤ larger)
    (hcomplete : (renderWithin budget config text).complete = true) :
    renderWithin larger config text = renderWithin budget config text :=
  renderWithin_eq_of_complete (fun _ _ => expand_of_le h) hcomplete

/-- **A larger budget changes nothing that was expanded.**  Between the gaps of a text both budgets
put for each token its expansion, or the token itself if there is none.  Each expansion that the
smaller budget finds the larger one finds too, so a complete rendering is the same within both. -/
theorem renderWithin_of_le (config : Tree) (text : Text) {budget larger : Nat}
    (h : budget ≤ larger) :
    (∃ parts last, Segments text parts last ∧
      (renderWithin budget config text).text =
        parts.flatMap (fun part => part.1 ++ standing part.2 (expand config budget part.2)) ++
          last ∧
      (renderWithin larger config text).text =
        parts.flatMap (fun part => part.1 ++ standing part.2 (expand config larger part.2)) ++
          last ∧
      ∀ part ∈ parts, ∀ value, expand config budget part.2 = .ok value →
        expand config larger part.2 = .ok value) ∧
    ((renderWithin budget config text).complete = true →
      renderWithin larger config text = renderWithin budget config text) := by
  obtain ⟨parts, last, hparts⟩ := exists_segments text
  exact ⟨⟨parts, last, hparts, fill_text_eq _ hparts, fill_text_eq _ hparts,
    fun _ _ _ => expand_of_le h⟩, renderWithin_eq_of_le h⟩

/-- Within one nested expansion `g` is expanded, within two also `f`, and `e` within no number. -/
theorem renderWithin_of_le_linkedValues :
    1 ≤ 2 ∧
      (renderWithin 1 linkedValues "{{g}} {{f}} {{e}}".toList).text = "ok {{f}} {{e}}".toList ∧
      (renderWithin 2 linkedValues "{{g}} {{f}} {{e}}".toList).text = "ok ok {{e}}".toList ∧
      (∃ parts last, Segments "{{g}} {{f}} {{e}}".toList parts last ∧
        ∀ part ∈ parts, ∀ value, expand linkedValues 1 part.2 = .ok value →
          expand linkedValues 2 part.2 = .ok value) ∧
      (renderWithin 1 linkedValues "<{{g}}>".toList).complete = true ∧
      renderWithin 2 linkedValues "<{{g}}>".toList =
        renderWithin 1 linkedValues "<{{g}}>".toList := by
  have hle : 1 ≤ 2 := by decide
  obtain ⟨⟨parts, last, hparts, -, -, hkeep⟩, -⟩ :=
    renderWithin_of_le linkedValues "{{g}} {{f}} {{e}}".toList hle
  have hcomplete : (renderWithin 1 linkedValues "<{{g}}>".toList).complete = true := by
    decide +kernel
  exact ⟨hle, by decide +kernel, by decide +kernel, ⟨parts, last, hparts, hkeep⟩, hcomplete,
    (renderWithin_of_le linkedValues _ hle).2 hcomplete⟩

/-! ## Reading without a budget -/

/-- A text read as the gaps between its tokens and, in the place of each token, the gaps that its
value is read as. -/
inductive Unfolds (config : Tree) : Text → List Text → Prop
  | last {gap : Text} (free : Gap gap []) : Unfolds config gap [gap]
  | token {gap name rest value : Text} {inner outer : List Text}
      (free : Gap gap (tokenText name ++ rest)) (named : name ≠ []) (closed : '}' ∉ name)
      (defined : valueOf? config name = some value) (within : Unfolds config value inner)
      (after : Unfolds config rest outer) :
      Unfolds config (gap ++ (tokenText name ++ rest)) (gap :: (inner ++ outer))

/-- A text unfolds if the value of each of its tokens does. -/
theorem Segments.exists_unfolds {last : Text} {parts : List (Text × Text)}
    {expand : Text → Expansion} (h : Segments text parts last)
    (hvalues : ∀ part ∈ parts, ∃ value inner, valueOf? config part.2 = some value ∧
      Unfolds config value inner ∧ expand part.2 = .ok inner.flatten) :
    ∃ chunks, Unfolds config text chunks ∧
      parts.flatMap (fun part => part.1 ++ standing part.2 (expand part.2)) ++ last =
        chunks.flatten := by
  induction h with
  | @last gap free => exact ⟨[gap], .last free, by simp⟩
  | @token gap name rest last parts free named closed more ih =>
    obtain ⟨⟨value, inner, defined, within, hexpand⟩, hvalues⟩ := List.forall_mem_cons.mp hvalues
    obtain ⟨outer, after, houter⟩ := ih hvalues
    refine ⟨gap :: (inner ++ outer), .token free named closed defined within after, ?_⟩
    rw [List.flatMap_cons, List.append_assoc, houter, hexpand]
    simp [standing]

/-- What is rendered completely unfolds.  The induction is on the budget, since the values of the
tokens are rendered within less of it. -/
theorem exists_unfolds (h : (renderWithin budget config text).complete = true) :
    ∃ chunks, Unfolds config text chunks ∧
      (renderWithin budget config text).text = chunks.flatten := by
  induction budget using Nat.strong_induction_on generalizing text with
  | _ budget ih =>
    obtain ⟨parts, last, hparts⟩ := exists_segments text
    rw [renderWithin, fill_text_eq _ hparts]
    refine hparts.exists_unfolds fun part hpart => ?_
    have hname := hparts.mem_names_iff.mpr ⟨part, hpart, rfl⟩
    obtain ⟨rendered, hexpand⟩ := complete_fill_iff.mp h part.2 hname
    obtain ⟨value, hvalue, ⟨hfinal, rfl⟩ | ⟨less, rfl, hrender⟩⟩ := expand_eq_ok_iff.mp hexpand
    · exact ⟨rendered, [rendered], hvalue, .last (names_eq_nil_iff.mp hfinal), by simp [hexpand]⟩
    · obtain ⟨hcomplete, rfl⟩ := Rendered.eq_mk_nil_iff.mp hrender
      obtain ⟨inner, hinner, htext⟩ := ih less (Nat.lt_succ_self less) hcomplete
      exact ⟨value, inner, hvalue, hinner, by rw [hexpand, htext]⟩

/-- What unfolds is rendered completely by some budget, the larger one of those that the value of
its first token and the rest of the text take. -/
theorem Unfolds.exists_budget {chunks : List Text} (h : Unfolds config text chunks) :
    ∃ budget, renderWithin budget config text = ⟨chunks.flatten, []⟩ := by
  induction h with
  | @last gap free =>
    refine ⟨0, ?_⟩
    rw [renderWithin_of_final (names_eq_nil_iff.mpr free)]
    simp
  | @token gap name rest value inner outer free named closed defined _ _ ihWithin ihAfter =>
    obtain ⟨less, hless⟩ := ihWithin
    obtain ⟨other, hother⟩ := ihAfter
    obtain ⟨parts, last, hrest⟩ := exists_segments rest
    have hparts := Segments.token free named closed hrest
    have hexpand : expand config (max (less + 1) other) name = .ok inner.flatten :=
      expand_of_le (le_max_left _ _)
        (expand_eq_ok_iff.mpr ⟨value, defined, Or.inr ⟨less, rfl, hless⟩⟩)
    have hafter : renderWithin (max (less + 1) other) config rest = ⟨outer.flatten, []⟩ :=
      (renderWithin_eq_of_le (le_max_right _ _) (Rendered.eq_mk_nil_iff.mp hother).1).trans hother
    refine ⟨max (less + 1) other, Rendered.eq_mk_nil_iff.mpr ⟨complete_fill_iff.mpr ?_, ?_⟩⟩
    · intro x hx
      obtain ⟨part, hpart, rfl⟩ := hparts.mem_names_iff.mp hx
      rcases List.mem_cons.mp hpart with rfl | hpart
      · exact ⟨_, hexpand⟩
      · exact complete_fill_iff.mp (Rendered.eq_mk_nil_iff.mp hafter).1 part.2
          (hrest.mem_names_iff.mpr ⟨part, hpart, rfl⟩)
    · have htext := (Rendered.eq_mk_nil_iff.mp hafter).2
      rw [renderWithin, fill_text_eq _ hrest] at htext
      rw [renderWithin, fill_text_eq _ hparts, List.flatMap_cons, List.append_assoc, htext, hexpand]
      simp [standing]

/-- **Complete renderings.**  Some budget renders a text completely exactly if the text unfolds, and
every budget that does renders it to the gaps it unfolds to. -/
theorem exists_complete_iff_unfolds (config : Tree) (text : Text) :
    ((∃ budget, (renderWithin budget config text).complete = true) ↔
      ∃ chunks, Unfolds config text chunks) ∧
    ∀ chunks, Unfolds config text chunks → ∀ budget,
      (renderWithin budget config text).complete = true →
        (renderWithin budget config text).text = chunks.flatten := by
  refine ⟨⟨?_, ?_⟩, ?_⟩
  · rintro ⟨budget, h⟩
    obtain ⟨chunks, hchunks, -⟩ := exists_unfolds h
    exact ⟨chunks, hchunks⟩
  · rintro ⟨chunks, hchunks⟩
    obtain ⟨budget, hbudget⟩ := hchunks.exists_budget
    exact ⟨budget, (Rendered.eq_mk_nil_iff.mp hbudget).1⟩
  · intro chunks hchunks budget h
    obtain ⟨other, hother⟩ := hchunks.exists_budget
    obtain ⟨hcomplete, htext⟩ := Rendered.eq_mk_nil_iff.mp hother
    rcases le_total budget other with hle | hle
    · rw [← renderWithin_eq_of_le hle h, htext]
    · rw [renderWithin_eq_of_le hle hcomplete, htext]

end LayeredConfig.Template
