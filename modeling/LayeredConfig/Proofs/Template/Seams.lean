import LayeredConfig.Proofs.Template.Budget
import LayeredConfig.Proofs.Text.Occurrences

/-!
# Tokens in what has been rendered

A complete rendering has expanded every token of the text and of the values in it, and still there
can be a token in it: what is put in the place of a token is not searched again together with what
stands around it.  This is the only way.

* `names_eq_nil_iff_no_token` — a text has no names exactly if no token occurs in it;
* `Unfolds.names_eq_nil` — no piece that a complete rendering is put together from holds a token;
* **`straddles_of_complete`** — so each token of a complete rendering begins in one piece and ends
  in a later one, and if there is none, rendering again changes nothing;
* `token_left_over` — a value that opens a token which the text around it closes.

An empty value is enough for this (`straddles_of_complete_emptyValue`): the text before a token may
lack just the last brace of a token, which then follows.
-/

namespace LayeredConfig.Template

variable {config : Tree} {budget : Nat} {text : Text}

/-! ## Where tokens occur -/

/-- A text has no names exactly if no token occurs in it. -/
theorem names_eq_nil_iff_no_token :
    names text = [] ↔ ∀ name, name ≠ [] → '}' ∉ name → ¬tokenText name <:+: text := by
  rw [names_eq_nil_iff]
  constructor
  · intro free name named closed hoccurs
    obtain ⟨rest, hbegins, hsuffix⟩ := List.infix_iff_prefix_suffix.mp hoccurs
    have hrest : rest ≠ [] := by
      rintro rfl
      simp [tokenText] at hbegins
    refine free rest hrest hsuffix name ⟨named, closed, ?_⟩
    rwa [List.append_nil]
  · intro h rest hrest hsuffix name hbegins
    obtain ⟨named, closed, hstart⟩ := hbegins
    rw [List.append_nil] at hstart
    exact h name named closed (hstart.isInfix.trans hsuffix.isInfix)

/-- A name of a text is that of a token that occurs in it. -/
theorem infix_of_mem_names {name : Text} (h : name ∈ names text) :
    name ≠ [] ∧ '}' ∉ name ∧ tokenText name <:+: text := by
  obtain ⟨parts, last, hparts⟩ := exists_segments text
  obtain ⟨part, hpart, rfl⟩ := hparts.mem_names_iff.mp h
  obtain ⟨named, closed⟩ := hparts.proper part hpart
  have hpiece : part.1 ++ tokenText part.2 <:+:
      parts.flatMap fun part => part.1 ++ tokenText part.2 :=
    List.infix_of_mem_flatten (List.mem_map_of_mem hpart)
  rw [← hparts.text_eq]
  exact ⟨named, closed, (List.suffix_append _ _).isInfix.trans
    (hpiece.trans (List.prefix_append _ _).isInfix)⟩

/-- A gap in front of a token has no token in itself. -/
theorem Gap.alone {gap rest : Text} (free : Gap gap rest) : Gap gap [] := by
  intro v hv hsuffix name hbegins
  obtain ⟨named, closed, hstart⟩ := hbegins
  rw [List.append_nil] at hstart
  exact free v hv hsuffix name ⟨named, closed, hstart.trans (List.prefix_append _ _)⟩

/-- No piece that a text unfolds to holds a token. -/
theorem Unfolds.names_eq_nil {chunks : List Text} (h : Unfolds config text chunks) :
    ∀ chunk ∈ chunks, names chunk = [] := by
  induction h with
  | last free => simpa using names_eq_nil_iff.mpr free
  | token free named closed defined within after ihWithin ihAfter =>
    intro chunk hchunk
    rw [List.mem_cons, List.mem_append] at hchunk
    rcases hchunk with rfl | hchunk | hchunk
    · exact names_eq_nil_iff.mpr free.alone
    · exact ihWithin chunk hchunk
    · exact ihAfter chunk hchunk

/-! ## Complete renderings -/

theorem tokenText_ne_nil (name : Text) : tokenText name ≠ [] := by simp [tokenText]

/-- **Tokens in a complete rendering.**  It is put together from pieces of the text and of values,
and no piece holds a token, so each token in it lies across places where pieces meet.  If no token
does, then there is none, and rendering again, within any budget and in any configuration, changes
nothing. -/
theorem straddles_of_complete (h : (renderWithin budget config text).complete = true) :
    ∃ chunks, Unfolds config text chunks ∧
      (renderWithin budget config text).text = chunks.flatten ∧
      (∀ chunk ∈ chunks, names chunk = []) ∧
      (∀ name ∈ names (renderWithin budget config text).text,
        Text.Straddles (tokenText name) chunks) ∧
      (names (renderWithin budget config text).text = [] ↔
        ∀ name, name ≠ [] → '}' ∉ name → ¬Text.Straddles (tokenText name) chunks) ∧
      (names (renderWithin budget config text).text = [] → ∀ again other,
        renderWithin again other (renderWithin budget config text).text =
          ⟨(renderWithin budget config text).text, []⟩) := by
  obtain ⟨chunks, hchunks, htext⟩ := exists_unfolds h
  have hfree := hchunks.names_eq_nil
  have hacross : ∀ name, name ≠ [] → '}' ∉ name →
      (tokenText name <:+: chunks.flatten ↔ Text.Straddles (tokenText name) chunks) := by
    intro name named closed
    rw [Text.infix_flatten_iff (tokenText_ne_nil name), or_iff_right]
    rintro ⟨chunk, hchunk, hoccurs⟩
    exact names_eq_nil_iff_no_token.mp (hfree chunk hchunk) name named closed hoccurs
  rw [htext]
  refine ⟨chunks, hchunks, rfl, hfree, ?_, ?_, ?_⟩
  · intro name hname
    obtain ⟨named, closed, hoccurs⟩ := infix_of_mem_names hname
    exact (hacross name named closed).mp hoccurs
  · rw [names_eq_nil_iff_no_token]
    exact forall₃_congr fun name named closed => not_congr (hacross name named closed)
  · intro hnone again other
    exact renderWithin_of_final hnone again other

/-- A value that is empty. -/
def emptyValue : Tree := [("x".toList, .branch [(Tree.valueKey, .scalar [])])]

/-- The text before the token lacks the last brace of a token, and the text after it begins with a
brace. -/
theorem straddles_of_complete_emptyValue :
    (render emptyValue "{{w}{{x}}}".toList).complete = true ∧
      (render emptyValue "{{w}{{x}}}".toList).text = "{{w}}".toList ∧
      ∃ chunks, Unfolds emptyValue "{{w}{{x}}}".toList chunks ∧
        chunks.flatten = "{{w}}".toList ∧ (∀ chunk ∈ chunks, names chunk = []) ∧
        Text.Straddles (tokenText "w".toList) chunks := by
  have hcomplete : (render emptyValue "{{w}{{x}}}".toList).complete = true := by decide +kernel
  have htext : (render emptyValue "{{w}{{x}}}".toList).text = "{{w}}".toList := by decide +kernel
  have hname : "w".toList ∈ names (render emptyValue "{{w}{{x}}}".toList).text := by
    decide +kernel
  obtain ⟨chunks, hchunks, hflatten, hfree, hstraddles, -⟩ := straddles_of_complete hcomplete
  exact ⟨hcomplete, htext, chunks, hchunks, hflatten.symm.trans htext, hfree,
    hstraddles _ hname⟩

/-! ### A token that is left over -/

/-- The value of `a` opens a token, and `b` has a value. -/
def openedValues : Tree :=
  [("a".toList, .branch [(Tree.valueKey, .scalar "\x7b\x7b".toList)]),
    ("b".toList, .branch [(Tree.valueKey, .scalar "x".toList)])]

/-- The token that `a` opens is closed by the text behind it, so a complete rendering has a token
with the name `b`, and rendering it again is not the same. -/
theorem token_left_over :
    (render openedValues "{{a}}b\x7d\x7d".toList).complete = true ∧
      (render openedValues "{{a}}b\x7d\x7d".toList).text = "{{b}}".toList ∧
      names (render openedValues "{{a}}b\x7d\x7d".toList).text = ["b".toList] ∧
      (render openedValues (render openedValues "{{a}}b\x7d\x7d".toList).text).text =
        "x".toList := by
  decide +kernel

end LayeredConfig.Template
