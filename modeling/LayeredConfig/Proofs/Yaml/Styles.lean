import LayeredConfig.Proofs.Text.Order
import LayeredConfig.Proofs.Yaml.Lexing

/-!
# The ways to write a string

What the choice of a way to write a string promises of the string, and what the printed string
consists of.  Main statements:

* `plainText_of_scalarStyle`, `quotable_of_scalarStyle`, `showable_of_scalarStyle` — a string is
  plain, single-quoted or a literal block only if it is read back from there;
* `isPrintable_printScalar` — **a printed string consists of printable characters**, whatever the
  string;
* `isBreak_printScalar`, `length_printScalar_le` — a key that is not marked stays on its line and is
  shorter than a key may be.
-/

namespace LayeredConfig.Yaml

variable {c : Char} {text rest : Text} {indent : Nat}

/-! ## What a style promises -/

theorem eq_of_plainValue? {string : Text} (h : plainValue? text = some (.string string)) :
    string = text := by
  unfold plainValue? at h
  split at h
  · simp at h
  split at h
  · simp at h
  split at h
  · split at h <;> simp at h
  split at h
  · simpa using h.symm
  split at h
  · simp at h
  · simpa using h.symm

/-- A text that stands for itself without quotes. -/
structure PlainText (text : Text) : Prop where
  printable : ∀ c ∈ text, isPrintable c = true
  unbroken : ∀ c ∈ text, isBreak c = false
  noSpaceFirst : text.head? ≠ some ' '
  noSpaceLast : text.getLast? ≠ some ' '
  noMarker : startsMarker text = false
  noIndicator : hasIndicator text = false
  isString : plainValue? text = some (.string text)

theorem plainText_of_scalarStyle (h : scalarStyle text = .plain) : PlainText text := by
  unfold scalarStyle at h
  split_ifs at h with hescapes hfeed hlast hpair hplain
  obtain ⟨hstring, hmay⟩ := hplain
  simp only [mayBePlain, Bool.and_eq_true, Bool.not_eq_true', decide_eq_true_eq,
    List.any_eq_false, Bool.not_eq_true] at hmay
  obtain ⟨⟨⟨⟨hbreak, hfirst⟩, hend⟩, hmarker⟩, hindicator⟩ := hmay
  refine ⟨(showable_of_needsEscapes (by simpa using hescapes)).printable, hbreak, hfirst, hend,
    hmarker, hindicator, ?_⟩
  unfold readsAsString at hstring
  split at hstring
  · next string hvalue => rw [hvalue, eq_of_plainValue? hvalue]
  · simp at hstring

theorem quotable_of_scalarStyle (h : scalarStyle text = .singleQuoted) : Quotable text := by
  unfold scalarStyle at h
  split_ifs at h with hescapes hfeed hlast hpair hplain
  exact ⟨showable_of_needsEscapes (by simpa using hescapes), by simpa using hpair, hfeed⟩

theorem showable_of_scalarStyle (h : scalarStyle text = .literal) :
    Showable text ∧ '\n' ∈ text := by
  unfold scalarStyle at h
  split_ifs at h with hescapes hfeed hlast hpair hplain
  exact ⟨showable_of_needsEscapes (by simpa using hescapes), hfeed⟩

namespace PlainText

theorem ne_nil (h : PlainText text) : text ≠ [] := by
  rintro rfl
  exact absurd h.isString (by simp [plainValue?])

theorem isIndicator_head (h : PlainText (c :: rest)) : isIndicator c = false := by
  have hindicator := h.noIndicator
  simp only [hasIndicator, Bool.or_eq_false_iff] at hindicator
  exact hindicator.1.1

theorem hasInnerIndicator_eq (h : PlainText text) : hasInnerIndicator false text = false := by
  cases text with
  | nil => rfl
  | cons c rest =>
    have hindicator := h.noIndicator
    simp only [hasIndicator, Bool.or_eq_false_iff] at hindicator
    exact hindicator.2

theorem isSpace_head (h : PlainText (c :: rest)) : isSpace c = false := by
  have hc : c ≠ ' ' := fun hc => h.noSpaceFirst (by rw [hc, List.head?_cons])
  rw [isSpace_eq (h.printable c List.mem_cons_self), h.unbroken c List.mem_cons_self]
  simp [isPlainSpace, hc]

/-- A dash, a question mark or a colon begins a word. -/
theorem wordEnds_tail (h : PlainText (c :: rest)) (hc : c = '-' ∨ c = '?' ∨ c = ':') :
    wordEnds rest = false := by
  have hinner := h.hasInnerIndicator_eq
  have hindicator := h.noIndicator
  simp only [hasIndicator, hasInnerIndicator, Bool.or_eq_false_iff] at hindicator hinner
  rcases hc with rfl | rfl | rfl
  · simpa using hindicator.1.2
  · simpa using hindicator.1.2
  · simpa using hinner.1.1

end PlainText

/-! ## Printed characters -/

theorem mem_indentation {newLine : Bool} (h : c ∈ if newLine then spaces indent else []) :
    c = ' ' := by
  cases newLine with
  | false => simp at h
  | true => exact List.eq_of_mem_replicate h

theorem mem_singleQuotedRest {d : Char} {newLine : Bool}
    (h : d ∈ singleQuotedRest indent newLine text) : d ∈ text ∨ d = ' ' := by
  induction text generalizing newLine with
  | nil => exact Or.inr (mem_indentation h)
  | cons c rest ih =>
    rw [singleQuotedRest] at h
    by_cases hbreak : isBreak c = true
    · rw [if_pos hbreak, List.mem_cons] at h
      rcases h with rfl | h
      · exact Or.inl List.mem_cons_self
      · exact (ih h).imp_left (List.mem_cons_of_mem _)
    · rw [if_neg hbreak, List.mem_append, List.mem_append] at h
      rcases h with (h | h) | h
      · exact Or.inr (mem_indentation h)
      · have hd : d = c := by
          split_ifs at h with hquote
          · simpa [hquote] using h
          · simpa using h
        exact Or.inl (hd ▸ List.mem_cons_self)
      · exact (ih h).imp_left (List.mem_cons_of_mem _)

theorem mem_literalRest {d : Char} {newLine : Bool} (h : d ∈ literalRest indent newLine text) :
    d ∈ text ∨ d = ' ' := by
  induction text generalizing newLine with
  | nil => simp [literalRest] at h
  | cons c rest ih =>
    rw [literalRest] at h
    by_cases hbreak : isBreak c = true
    · rw [if_pos hbreak, List.mem_cons] at h
      rcases h with rfl | h
      · exact Or.inl List.mem_cons_self
      · exact (ih h).imp_left (List.mem_cons_of_mem _)
    · rw [if_neg hbreak, List.mem_append, List.mem_cons] at h
      rcases h with h | rfl | h
      · exact Or.inr (mem_indentation h)
      · exact Or.inl List.mem_cons_self
      · exact (ih h).imp_left (List.mem_cons_of_mem _)

theorem mem_chompingSign (h : c ∈ chompingSign text) : c = '-' ∨ c = '+' := by
  unfold chompingSign at h
  split at h
  · exact Or.inl (by simpa using h)
  · split at h
    · exact Or.inr (by simpa using h)
    · exact Or.inl (by simpa using h)
  · split_ifs at h
    · exact Or.inr (by simpa using h)
    · simp at h
    · exact Or.inl (by simpa using h)

theorem mem_hexDigits {count n : Nat} (h : c ∈ hexDigits count n) :
    ∃ d < 16, c = (Nat.digitChar d).toUpper := by
  induction count generalizing n with
  | zero => simp [hexDigits] at h
  | succ count ih =>
    rw [hexDigits, List.mem_append, List.mem_singleton] at h
    rcases h with h | rfl
    · exact ih h
    · exact ⟨n % 16, Nat.mod_lt _ (by decide), rfl⟩

/-- What is written for a character between double quotes can be shown on one line. -/
theorem mem_doubleQuotedChar {d : Char} (h : d ∈ doubleQuotedChar c) :
    isPrintable d = true ∧ isBreak d = false := by
  have hdigit : ∀ n < 16, isPrintable (Nat.digitChar n).toUpper = true ∧
      isBreak (Nat.digitChar n).toUpper = false := by
    decide
  have hhex : ∀ {count n}, d ∈ hexDigits count n → isPrintable d = true ∧ isBreak d = false := by
    intro count n hd
    obtain ⟨n, hn, rfl⟩ := mem_hexDigits hd
    exact hdigit n hn
  unfold doubleQuotedChar at h
  split at h
  · next letter hletter =>
    obtain ⟨-, hprintable, hbreak, -⟩ := spells_of_escapeLetter? hletter
    simp only [List.mem_cons, List.not_mem_nil, or_false] at h
    rcases h with rfl | rfl
    · decide
    · exact ⟨hprintable, hbreak⟩
  · next hletter =>
    split_ifs at h with hprintable
    · obtain rfl := List.mem_singleton.mp h
      exact ⟨hprintable, isBreak_of_escapeLetter? hletter⟩
    · simp only [numberEscape, List.mem_cons] at h
      rcases h with rfl | h
      · decide
      · split_ifs at h <;> rcases List.mem_cons.mp h with rfl | h
        all_goals first | decide | exact hhex h

/-- What holds of the characters of a text, and of those that can be shown on one line, holds of
everything that is printed for the text. -/
theorem forall_mem_printScalar {good : Char → Prop}
    (hshown : ∀ c, isPrintable c = true → isBreak c = false → good c)
    (hfeed : scalarStyle text = .literal → good '\n')
    (htext : scalarStyle text ≠ .doubleQuoted → ∀ c ∈ text, good c) :
    ∀ c ∈ printScalar indent text, good c := by
  have hspace : good ' ' := hshown _ (by decide) (by decide)
  intro c hc
  unfold printScalar at hc
  cases hstyle : scalarStyle text with
  | plain =>
    rw [hstyle] at hc htext
    exact htext (by simp) c hc
  | singleQuoted =>
    rw [hstyle] at htext
    simp only [hstyle, List.mem_append, List.mem_cons, List.not_mem_nil, or_false] at hc
    rcases hc with (rfl | hc) | rfl
    · exact hshown _ (by decide) (by decide)
    · rcases mem_singleQuotedRest hc with hc | rfl
      exacts [htext (by simp) c hc, hspace]
    · exact hshown _ (by decide) (by decide)
  | doubleQuoted =>
    simp only [hstyle, List.mem_append, List.mem_cons, List.not_mem_nil, or_false,
      List.mem_flatMap] at hc
    rcases hc with (rfl | ⟨d, -, hc⟩) | rfl
    · exact hshown _ (by decide) (by decide)
    · exact hshown c (mem_doubleQuotedChar hc).1 (mem_doubleQuotedChar hc).2
    · exact hshown _ (by decide) (by decide)
  | literal =>
    rw [hstyle] at htext
    simp only [hstyle, List.mem_append, List.mem_cons] at hc
    rcases hc with ((rfl | hc) | hc) | rfl | hc
    · exact hshown _ (by decide) (by decide)
    · split_ifs at hc
      · obtain rfl := List.mem_singleton.mp hc
        exact hshown _ (by decide) (by decide)
      · simp at hc
    · rcases mem_chompingSign hc with rfl | rfl <;> exact hshown _ (by decide) (by decide)
    · exact hfeed hstyle
    · rcases mem_literalRest hc with hc | rfl
      exacts [htext (by simp) c hc, hspace]

/-- **A printed string consists of printable characters.** -/
theorem isPrintable_printScalar : ∀ c ∈ printScalar indent text, isPrintable c = true := by
  refine forall_mem_printScalar (fun c hc _ => hc) (fun _ => by decide) fun hstyle => ?_
  cases hshown : scalarStyle text with
  | plain => exact (plainText_of_scalarStyle hshown).printable
  | singleQuoted => exact (quotable_of_scalarStyle hshown).printable
  | doubleQuoted => exact absurd hshown hstyle
  | literal => exact (showable_of_scalarStyle hshown).1.printable

/-- A printed string begins a token. -/
theorem startsToken_printScalar (indent : Nat) (text rest : Text) :
    StartsToken (printScalar indent text ++ rest) := by
  unfold printScalar
  cases hstyle : scalarStyle text with
  | plain =>
    have hplain := plainText_of_scalarStyle hstyle
    obtain ⟨c, more, rfl⟩ := List.exists_cons_of_ne_nil hplain.ne_nil
    have hindicator := hplain.isIndicator_head
    simp only [isIndicator, Bool.or_eq_false_iff, decide_eq_false_iff_not] at hindicator
    exact startsToken_cons_iff.mpr ⟨hplain.isSpace_head, by simp [hindicator]⟩
  | singleQuoted => exact startsToken_cons_iff.mpr (by decide)
  | doubleQuoted => exact startsToken_cons_iff.mpr (by decide)
  | literal => exact startsToken_cons_iff.mpr (by decide)

theorem printScalar_ne_nil (indent : Nat) (text : Text) : printScalar indent text ≠ [] := by
  unfold printScalar
  cases hstyle : scalarStyle text with
  | plain => exact (plainText_of_scalarStyle hstyle).ne_nil
  | singleQuoted => exact List.cons_ne_nil _ _
  | doubleQuoted => exact List.cons_ne_nil _ _
  | literal => exact List.cons_ne_nil _ _

/-! ## Keys without a mark -/

/-- A key without a mark has no line breaks and not too many characters. -/
theorem unbroken_of_needsKeyMark (h : needsKeyMark text = false) :
    (∀ c ∈ text, isBreak c = false) ∧ text.length ≤ longestPlainKey := by
  simp only [needsKeyMark, Bool.or_eq_false_iff, List.any_eq_false, Bool.not_eq_true,
    decide_eq_false_iff_not, not_lt] at h
  exact ⟨h.1, (Utf8.length_le_encode text).trans h.2⟩

theorem scalarStyle_ne_literal (hbreak : ∀ c ∈ text, isBreak c = false) :
    scalarStyle text ≠ .literal := by
  intro hstyle
  exact absurd (hbreak '\n' (showable_of_scalarStyle hstyle).2) (by decide)

/-- What is printed of a text on one line is on one line. -/
theorem isBreak_printScalar (hbreak : ∀ c ∈ text, isBreak c = false) :
    ∀ c ∈ printScalar indent text, isBreak c = false :=
  forall_mem_printScalar (fun _ _ hc => hc)
    (fun hstyle => absurd hstyle (scalarStyle_ne_literal hbreak)) fun _ => hbreak

theorem length_singleQuotedRest_le (indent : Nat) (hbreak : ∀ c ∈ text, isBreak c = false) :
    (singleQuotedRest indent false text).length ≤ 2 * text.length := by
  induction text with
  | nil => simp [singleQuotedRest]
  | cons c rest ih =>
    obtain ⟨hc, hrest⟩ := List.forall_mem_cons.mp hbreak
    have hshown : (if c = '\'' then ['\'', '\''] else [c]).length ≤ 2 := by
      split_ifs <;> simp
    have := ih hrest
    rw [singleQuotedRest, if_neg (by simp [hc]), if_neg Bool.false_ne_true, List.nil_append,
      List.length_append, List.length_cons]
    omega

theorem length_hexDigits (count n : Nat) : (hexDigits count n).length = count := by
  induction count generalizing n with
  | zero => rfl
  | succ count ih => rw [hexDigits, List.length_append, ih, List.length_singleton]

/-- Eight digits are never needed, since a character beyond four of them can be shown. -/
theorem length_doubleQuotedChar_le : (doubleQuotedChar c).length ≤ 6 := by
  unfold doubleQuotedChar
  split
  · exact (by decide : 2 ≤ 6)
  · split_ifs with hprintable
    · exact (by decide : 1 ≤ 6)
    · have hsmall : c.toNat ≤ 0xFFFF := by
        simp only [isPrintable, Bool.or_eq_true, decide_eq_true_eq] at hprintable
        omega
      simp only [numberEscape]
      split_ifs <;> simp [length_hexDigits]

theorem length_flatMap_doubleQuotedChar_le (text : Text) :
    (text.flatMap doubleQuotedChar).length ≤ 6 * text.length := by
  induction text with
  | nil => exact le_refl _
  | cons c rest ih =>
    have := length_doubleQuotedChar_le (c := c)
    rw [List.flatMap_cons, List.length_append, List.length_cons]
    omega

/-- A key without a mark is not too long, quotes and escapes included. -/
theorem length_printScalar_le (h : needsKeyMark text = false) :
    (printScalar indent text).length ≤ Lexer.longestKey := by
  obtain ⟨hbreak, hlength⟩ := unbroken_of_needsKeyMark h
  have hbound : 6 * text.length + 2 ≤ Lexer.longestKey := by
    rw [longestPlainKey] at hlength
    rw [Lexer.longestKey]
    omega
  refine le_trans ?_ hbound
  unfold printScalar
  cases hstyle : scalarStyle text with
  | plain =>
    show text.length ≤ 6 * text.length + 2
    omega
  | singleQuoted =>
    have := length_singleQuotedRest_le indent hbreak
    simp only [List.length_append, List.length_cons, List.length_nil]
    omega
  | doubleQuoted =>
    have := length_flatMap_doubleQuotedChar_le text
    simp only [List.length_append, List.length_cons, List.length_nil]
    omega
  | literal => exact absurd hstyle (scalarStyle_ne_literal hbreak)

end LayeredConfig.Yaml
