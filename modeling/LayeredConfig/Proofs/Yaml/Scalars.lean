import LayeredConfig.Yaml.Printer
import LayeredConfig.Yaml.Token.Scalar
import Mathlib.Algebra.Group.Nat.Defs
import Mathlib.Tactic.Common

/-!
# Plain and quoted scalars read back

What is written for a text without a block is read back as the text, whatever follows the closing
quote or the end of a plain text.  The readers keep the blanks and line breaks since the last word
in a gap, so each statement says what becomes of a gap that has been passed.  Main statements:

* `isAllowed_of_isPrintable`, `isBlank_eq_isPlainSpace`, `breakText_of_isPrintable` — what the
  classes of characters come to on printable ones, and only these are printed as they are;
* `Showable`, `Quotable` — the texts that need no escapes, and those that can be on indented lines;
* **`singleQuotedFrom_rest`** — between single quotes, by induction on the text with the gap that
  fits it (`GapFits`);
* **`doubleQuotedFrom_flatMap`** — between double quotes, one lemma for each kind of escape;
* **`plainFrom_append`** — the words of a plain text, and `plainFrom_newline`, `plainFrom_colon` for
  the two ways in which it ends.
-/

namespace LayeredConfig.Yaml

variable {c d : Char} {first second : Char → Bool} {text rest : Text}

/-! ## Printable characters -/

theorem ne_of_isPrintable (hc : isPrintable c = true) (hd : isPrintable d = false) : c ≠ d := by
  rintro rfl
  exact absurd hc (by simp [hd])

theorem isAllowed_of_isPrintable (h : isPrintable c = true) : isAllowed c = true := by
  simp only [isPrintable, isAllowed, Bool.or_eq_true, Bool.and_eq_true, beq_iff_eq,
    decide_eq_true_eq] at h ⊢
  omega

theorem isBlank_eq_isPlainSpace (h : isPrintable c = true) : isBlank c = isPlainSpace c := by
  have htab : c ≠ '\t' := ne_of_isPrintable h (by decide)
  simp [isBlank, isPlainSpace, htab]

theorem eq_of_isBreak (h : isBreak c = true) :
    c = '\n' ∨ c = '\r' ∨ c = '\u0085' ∨ c = '\u2028' ∨ c = '\u2029' := by
  simpa [isBreak, or_assoc] using h

/-- A printable line break counts as itself in a scalar. -/
theorem breakText_of_isPrintable (h : isPrintable c = true) (hbreak : isBreak c = true) :
    breakText c = c := by
  rcases eq_of_isBreak hbreak with rfl | rfl | rfl | rfl | rfl
  case inr.inl | inr.inr.inl => exact absurd h (by decide)
  all_goals decide

theorem isSpace_eq (h : isPrintable c = true) : isSpace c = (isPlainSpace c || isBreak c) := by
  rw [isSpace, isBlank_eq_isPlainSpace h]

/-! ## Neighbours -/

theorem hasPair_cons_eq_false_iff :
    hasPair first second (c :: rest) = false ↔
      (first c = true → ∀ d ∈ rest.head?, second d = false) ∧
        hasPair first second rest = false := by
  cases rest with
  | nil => simp [hasPair]
  | cons d rest => simp [hasPair]

/-! ## The beginning of a token -/

/-- Whether a text does not begin with what is passed over between tokens. -/
def StartsToken (text : Text) : Prop :=
  ∀ c ∈ text.head?, isSpace c = false ∧ c ≠ '#'

theorem startsToken_nil : StartsToken [] := by simp [StartsToken]

theorem startsToken_cons_iff : StartsToken (c :: rest) ↔ isSpace c = false ∧ c ≠ '#' := by
  simp [StartsToken]

/-! ## Texts without escapes -/

variable {tail after : Text} {column indent : Nat} {gap : Gap}

/-- A text that needs no escapes: all of it is printable, and no space stands before a line
break. -/
structure Showable (text : Text) : Prop where
  printable : ∀ c ∈ text, isPrintable c = true
  noSpaceBefore : hasPair isPlainSpace isBreak text = false

theorem showable_of_needsEscapes (h : needsEscapes text = false) : Showable text := by
  simp only [needsEscapes, Bool.or_eq_false_iff, Bool.not_eq_false', List.all_eq_true] at h
  exact ⟨h.1, h.2⟩

/-- A showable text that can be on lines which begin with indentation. -/
structure Quotable (text : Text) : Prop extends Showable text where
  noSpaceAfter : hasPair isBreak isPlainSpace text = false
  noFeed : '\n' ∉ text

theorem Quotable.of_cons (h : Quotable (c :: rest)) : Quotable rest where
  printable := fun d hd => h.printable d (List.mem_cons_of_mem _ hd)
  noSpaceBefore := (hasPair_cons_eq_false_iff.mp h.noSpaceBefore).2
  noSpaceAfter := (hasPair_cons_eq_false_iff.mp h.noSpaceAfter).2
  noFeed := fun hmem => h.noFeed (List.mem_cons_of_mem _ hmem)

/-! ## Between single quotes -/

theorem singleQuotedFrom_break (hreturn : c ≠ '\r') (hbreak : isBreak c = true) :
    singleQuotedFrom column gap (c :: rest) = singleQuotedFrom 0 (gap.addBreak c) rest := by
  have hquote : c ≠ '\'' := by
    rintro rfl
    exact absurd hbreak (by decide)
  rw [singleQuotedFrom.eq_4 _ _ _ _ (fun _ h _ => hreturn h) (fun _ h _ => hquote h), if_pos hbreak]

theorem singleQuotedFrom_space :
    singleQuotedFrom column gap (' ' :: rest) =
      singleQuotedFrom (column + 1) (gap.addBlank ' ') rest := by
  rw [singleQuotedFrom.eq_4 _ _ _ _ (by simp) (by simp), if_neg (by decide), if_pos (by decide)]

/-- Spaces after a line break do not count. -/
theorem singleQuotedFrom_spaces (breaks : Text) (n : Nat) :
    singleQuotedFrom column (.broken breaks) (spaces n ++ rest) =
      singleQuotedFrom (column + n) (.broken breaks) rest := by
  induction n generalizing column with
  | zero => rfl
  | succ n ih =>
    rw [spaces, List.replicate_succ, List.cons_append, singleQuotedFrom_space]
    show singleQuotedFrom (column + 1) (.broken breaks) (spaces n ++ rest) = _
    rw [ih, Nat.add_right_comm]
    rfl

/-- A character of a word, doubled if it is a quote. -/
theorem singleQuotedFrom_letter (hspace : isSpace c = false) (hcolumn : 0 < column)
    (h : ∀ column, 0 < column → singleQuotedFrom column .empty rest = some (text, after)) :
    singleQuotedFrom column gap ((if c = '\'' then ['\'', '\''] else [c]) ++ rest) =
      some (gap.text ++ c :: text, after) := by
  simp only [isSpace, Bool.or_eq_false_iff] at hspace
  split_ifs with hquote
  · subst hquote
    show singleQuotedFrom column gap ('\'' :: '\'' :: rest) = _
    rw [singleQuotedFrom.eq_3, h _ (by omega)]
    rfl
  · have hreturn : c ≠ '\r' := by
      rintro rfl
      exact absurd hspace.2 (by decide)
    rw [List.singleton_append, singleQuotedFrom.eq_4 _ _ _ _ (fun _ h _ => hreturn h)
      (fun _ h _ => hquote h), if_neg (by simp [hspace.2]), if_neg (by simp [hspace.1]),
      if_neg (by omega), if_neg hquote, h _ (by omega)]
    rfl

theorem singleQuotedFrom_end (hcolumn : 0 < column) (htail : tail.head? ≠ some '\'') :
    singleQuotedFrom column gap ('\'' :: tail) = some (gap.text, tail) := by
  have hnext : ∀ rest, '\'' = '\'' → tail = '\'' :: rest → False := by
    rintro rest - rfl
    exact htail rfl
  rw [singleQuotedFrom.eq_4 _ _ _ _ (by simp) hnext, if_neg (by decide), if_neg (by decide),
    if_neg (by omega), if_pos rfl]

/-- What stands between the last word and the rest of a text, at the start of a line or not. -/
inductive GapFits : (newLine : Bool) → Gap → Text → Prop
  | inline {text blanks : Text} (h : blanks ≠ [] → ∀ c ∈ text.head?, isBreak c = false) :
      GapFits false (.inline blanks) text
  | broken {text breaks : Text} (hfeed : '\n' ∉ breaks)
      (h : ∀ c ∈ text.head?, isPlainSpace c = false) : GapFits true (.broken breaks) text

theorem gapFits_empty : GapFits false .empty text :=
  .inline fun h => absurd rfl h

/-- Separators are not folded. -/
theorem text_broken {breaks : Text} (h : '\n' ∉ breaks) : (Gap.broken breaks).text = breaks := by
  cases breaks with
  | nil => rfl
  | cons c more =>
    have hne : c ≠ '\n' := fun heq => h (heq ▸ List.mem_cons_self)
    unfold Gap.text
    split <;> simp_all

/-- A line break after a gap. -/
theorem GapFits.addBreak {newLine : Bool} (h : GapFits newLine gap (c :: rest))
    (htext : Quotable (c :: rest)) (hbreak : isBreak c = true) :
    GapFits true (gap.addBreak c) rest ∧ (gap.addBreak c).text = gap.text ++ [c] := by
  have hbefore := (hasPair_cons_eq_false_iff.mp htext.noSpaceAfter).1 hbreak
  have hc := breakText_of_isPrintable (htext.printable c List.mem_cons_self) hbreak
  have hfeed : '\n' ≠ c := fun h => htext.noFeed (h ▸ List.mem_cons_self)
  cases h with
  | @inline _ blanks hblanks =>
    have hnil : blanks = [] := by
      by_contra hne
      exact absurd hbreak (by simp [hblanks hne c rfl])
    subst hnil
    rw [Gap.addBreak, hc, text_broken (by simpa using hfeed)]
    exact ⟨.broken (by simpa using hfeed) hbefore, rfl⟩
  | @broken _ breaks hbreaks hhead =>
    have hnot : '\n' ∉ breaks ++ [c] := by simp [hbreaks, hfeed]
    rw [Gap.addBreak, hc, text_broken hnot, text_broken hbreaks]
    exact ⟨.broken hnot hbefore, rfl⟩

/-- **A single-quoted text is read back.** -/
theorem singleQuotedFrom_rest (hindent : 0 < indent) (htail : tail.head? ≠ some '\'')
    {newLine : Bool} (htext : Quotable text) (hgap : GapFits newLine gap text)
    (hcolumn : newLine = false → 0 < column) :
    singleQuotedFrom column gap (singleQuotedRest indent newLine text ++ '\'' :: tail) =
      some (gap.text ++ text, tail) := by
  induction text generalizing newLine gap column with
  | nil =>
    rw [List.append_nil]
    cases hgap with
    | inline => exact singleQuotedFrom_end (hcolumn rfl) htail
    | broken hfeed =>
      show singleQuotedFrom column _ (spaces indent ++ '\'' :: tail) = _
      rw [singleQuotedFrom_spaces, singleQuotedFrom_end (by omega) htail]
  | cons c rest ih =>
    have hrest := htext.of_cons
    have hprintable := htext.printable c List.mem_cons_self
    rw [singleQuotedRest]
    by_cases hbreak : isBreak c = true
    · obtain ⟨hfits, hshown⟩ := hgap.addBreak htext hbreak
      rw [if_pos hbreak, List.cons_append,
        singleQuotedFrom_break (ne_of_isPrintable hprintable (by decide)) hbreak,
        ih hrest hfits (by simp), hshown, List.append_assoc, List.singleton_append]
    · rw [if_neg hbreak]
      have hletter : isPlainSpace c = false → ∀ column, 0 < column →
          singleQuotedFrom column gap ((if c = '\'' then ['\'', '\''] else [c]) ++
            (singleQuotedRest indent false rest ++ '\'' :: tail)) =
              some (gap.text ++ c :: rest, tail) := by
        intro hspace column hcolumn
        refine singleQuotedFrom_letter ?_ hcolumn fun column hcolumn => ?_
        · simp [isSpace_eq hprintable, hspace, hbreak]
        · exact ih hrest gapFits_empty fun _ => hcolumn
      cases hgap with
      | broken hfeed hhead =>
        rw [if_pos rfl, List.append_assoc, List.append_assoc, singleQuotedFrom_spaces]
        exact hletter (hhead c rfl) _ (by omega)
      | @inline _ blanks hblanks =>
        rw [if_neg Bool.false_ne_true, List.nil_append, List.append_assoc]
        by_cases hspace : isPlainSpace c = true
        · obtain rfl : c = ' ' := by simpa [isPlainSpace] using hspace
          have hnext := (hasPair_cons_eq_false_iff.mp htext.noSpaceBefore).1 hspace
          show singleQuotedFrom column (.inline blanks)
            (' ' :: (singleQuotedRest indent false rest ++ '\'' :: tail)) = _
          rw [singleQuotedFrom_space, Gap.addBlank,
            ih hrest (.inline fun _ => hnext) fun _ => Nat.succ_pos _]
          simp [Gap.text]
        · exact hletter (by simpa using hspace) _ (hcolumn rfl)

/-! ## Between double quotes -/

theorem doubleQuotedFrom_space :
    doubleQuotedFrom column gap (' ' :: rest) =
      doubleQuotedFrom (column + 1) (gap.addBlank ' ') rest := by
  rw [doubleQuotedFrom.eq_8 _ _ _ _ (by simp) (by simp) (by simp) (by simp) (by simp) (by simp),
    if_neg (by decide), if_pos (by decide)]

theorem doubleQuotedFrom_end (hcolumn : 0 < column) :
    doubleQuotedFrom column gap ('"' :: tail) = some (gap.text, tail) := by
  rw [doubleQuotedFrom.eq_8 _ _ _ _ (by simp) (by simp) (by simp) (by simp) (by simp) (by simp),
    if_neg (by decide), if_neg (by decide), if_neg (by omega), if_pos rfl]

theorem digitValue?_toUpper : ∀ d < 16,
    Text.digitValue? 16 (Nat.digitChar d).toUpper = some d := by
  decide

theorem readDigits?_hexDigits (soFar count n : Nat) (rest : Text) :
    Text.readDigits? 16 soFar (hexDigits count n ++ rest) =
      Text.readDigits? 16 (soFar * 16 ^ count + n % 16 ^ count) rest := by
  induction count generalizing n rest with
  | zero => simp [hexDigits, Nat.mod_one]
  | succ count ih =>
    rw [hexDigits, List.append_assoc, ih, List.singleton_append, Text.readDigits?,
      digitValue?_toUpper _ (Nat.mod_lt _ (by decide)), Option.bind_eq_bind, Option.bind_some]
    rw [Nat.pow_succ', Nat.mod_mul, Nat.mul_left_comm]
    congr 1
    omega

/-- The digits of a character spell it. -/
theorem numberedChar?_hexDigits (count : Nat) (hcount : c.toNat < 16 ^ (count + 1)) :
    numberedChar? (hexDigits (count + 1) c.toNat) = some c := by
  have hdigits : Text.toNat? 16 (hexDigits (count + 1) c.toNat) = some c.toNat := by
    have hread := readDigits?_hexDigits 0 (count + 1) c.toNat []
    rw [List.append_nil, Nat.zero_mul, Nat.zero_add, Nat.mod_eq_of_lt hcount] at hread
    cases hshown : hexDigits (count + 1) c.toNat with
    | nil => simp [hexDigits] at hshown
    | cons digit digits =>
      rw [Text.toNat?, ← hshown, hread]
      rfl
  have hvalid : ¬((0xD800 ≤ c.toNat ∧ c.toNat ≤ 0xDFFF) ∨ 0x10FFFF < c.toNat) := by
    have hvalid := c.valid
    simp only [UInt32.isValidChar, Nat.isValidChar] at hvalid
    show ¬((0xD800 ≤ c.val.toNat ∧ c.val.toNat ≤ 0xDFFF) ∨ 0x10FFFF < c.val.toNat)
    omega
  rw [numberedChar?, hdigits, Option.bind_eq_bind, Option.bind_some, if_neg hvalid,
    Char.ofNat_toNat]

/-- Whether a letter after a backslash spells a character. -/
def Spells (letter c : Char) : Prop :=
  escapedChar? letter = some c ∧ isPrintable letter = true ∧ isBreak letter = false ∧
    letter ∉ ['x', 'u', 'U']

instance (letter c : Char) : Decidable (Spells letter c) :=
  inferInstanceAs (Decidable (_ ∧ _ ∧ _ ∧ _))

theorem spells_of_ite {d letter other : Char} {others : Option Char} (hd : Spells letter d)
    (hothers : others = some other → Spells other c) :
    (if c = d then some letter else others) = some other → Spells other c := by
  split_ifs with hc
  · rintro ⟨⟩
    exact hc ▸ hd
  · exact hothers

/-- The letter of an escape stands for the character that is escaped. -/
theorem spells_of_escapeLetter? {letter : Char} :
    escapeLetter? c = some letter → Spells letter c := by
  unfold escapeLetter?
  iterate 14 refine spells_of_ite (by decide) ?_
  simp

theorem doubleQuotedFrom_letter {letter : Char} (hletter : Spells letter c)
    (h : ∀ column, 0 < column → doubleQuotedFrom column .empty rest = some (text, after)) :
    doubleQuotedFrom column gap ('\\' :: letter :: rest) = some (gap.text ++ c :: text, after) := by
  obtain ⟨hescaped, -, hbreak, hnot⟩ := hletter
  have hreturn : letter ≠ '\r' := by
    rintro rfl
    exact absurd hbreak (by decide)
  simp only [List.mem_cons, List.not_mem_nil, or_false, not_or] at hnot
  rw [doubleQuotedFrom.eq_7 _ _ _ _ (fun _ h _ => hreturn h) (fun _ _ _ h _ => hnot.1 h)
    (fun _ _ _ _ _ h _ => hnot.2.1 h) (fun _ _ _ _ _ _ _ _ _ h _ => hnot.2.2 h),
    if_neg (by simp [hbreak]), hescaped, h _ (by omega)]
  rfl

/-- A character that can not be shown is read back by its number. -/
theorem doubleQuotedFrom_number (hprintable : isPrintable c = false)
    (h : ∀ column, 0 < column → doubleQuotedFrom column .empty rest = some (text, after)) :
    doubleQuotedFrom column gap ('\\' :: numberEscape c ++ rest) =
      some (gap.text ++ c :: text, after) := by
  have hsmall : c.toNat ≤ 0xFFFF := by
    simp only [isPrintable, Bool.or_eq_false_iff, decide_eq_false_iff_not] at hprintable
    omega
  unfold numberEscape
  by_cases hlow : c.toNat ≤ 0xFF
  · have hdigits := numberedChar?_hexDigits 1 (c := c) (by omega)
    simp only [if_pos hlow]
    simp only [hexDigits, List.nil_append, List.cons_append] at hdigits ⊢
    rw [doubleQuotedFrom.eq_4, hdigits, h _ (by omega)]
    rfl
  · have hdigits := numberedChar?_hexDigits 3 (c := c) (by omega)
    simp only [if_neg hlow, if_pos hsmall]
    simp only [hexDigits, List.nil_append, List.cons_append] at hdigits ⊢
    rw [doubleQuotedFrom.eq_5, hdigits, h _ (by omega)]
    rfl

/-- A line break has a letter of its own. -/
theorem isBreak_of_escapeLetter? (h : escapeLetter? c = none) : isBreak c = false := by
  by_contra hbreak
  rcases eq_of_isBreak (by simpa using hbreak) with rfl | rfl | rfl | rfl | rfl <;>
    exact absurd h (by decide)

/-- A character that is no space is read back, escaped or not. -/
theorem doubleQuotedFrom_char (hspace : isPlainSpace c = false) (hcolumn : 0 < column)
    (h : ∀ column, 0 < column → doubleQuotedFrom column .empty rest = some (text, after)) :
    doubleQuotedFrom column gap (doubleQuotedChar c ++ rest) =
      some (gap.text ++ c :: text, after) := by
  unfold doubleQuotedChar
  cases hletter : escapeLetter? c with
  | some letter => exact doubleQuotedFrom_letter (spells_of_escapeLetter? hletter) h
  | none =>
    by_cases hprintable : isPrintable c = true
    · have hne : ∀ d, escapeLetter? d ≠ none → c ≠ d := by
        rintro d hd rfl
        exact hd hletter
      have hslash : c ≠ '\\' := hne _ (by decide)
      have hreturn : c ≠ '\r' := hne _ (by decide)
      have hbreak : isBreak c = false := isBreak_of_escapeLetter? hletter
      simp only [if_pos hprintable, List.singleton_append]
      rw [doubleQuotedFrom.eq_8 _ _ _ _ (fun _ h _ => hreturn h) (fun _ h _ => hslash h)
        (fun _ _ _ h _ => hslash h) (fun _ _ _ _ _ h _ => hslash h)
        (fun _ _ _ _ _ _ _ _ _ h _ => hslash h) (fun _ _ h _ => hslash h),
        if_neg (by simp [hbreak]), if_neg (by simp [isBlank_eq_isPlainSpace hprintable, hspace]),
        if_neg (by omega), if_neg (hne _ (by decide)), if_neg hslash, h _ (by omega)]
      rfl
    · simp only [if_neg hprintable]
      exact doubleQuotedFrom_number (by simpa using hprintable) h

/-- **A double-quoted text is read back**, after spaces that have been passed. -/
theorem doubleQuotedFrom_flatMap (text : Text) (blanks : Text) (hcolumn : 0 < column) :
    doubleQuotedFrom column (.inline blanks) (text.flatMap doubleQuotedChar ++ '"' :: tail) =
      some (blanks ++ text, tail) := by
  induction text generalizing column blanks with
  | nil =>
    rw [List.append_nil]
    exact doubleQuotedFrom_end hcolumn
  | cons c rest ih =>
    rw [List.flatMap_cons, List.append_assoc]
    by_cases hspace : isPlainSpace c = true
    · obtain rfl : c = ' ' := by simpa [isPlainSpace] using hspace
      show doubleQuotedFrom column (.inline blanks)
        (' ' :: (rest.flatMap doubleQuotedChar ++ '"' :: tail)) = _
      rw [doubleQuotedFrom_space, Gap.addBlank, ih _ (Nat.succ_pos _)]
      simp
    · exact doubleQuotedFrom_char (by simpa using hspace) hcolumn fun _ hcolumn => ih [] hcolumn

/-! ## Without quotes -/

section Plain

variable {bound : Int} {blanks : Text}

theorem plainFrom_space (hinline : gap.hasBreak = false) :
    plainFrom false bound column gap (' ' :: rest) =
      plainFrom false bound (column + 1) (gap.addBlank ' ') rest := by
  rw [plainFrom.eq_3 _ _ _ _ _ _ (by simp), if_neg (by decide), if_pos (by decide),
    if_neg (by simp [hinline])]

/-- A character of a word, after blanks on the same line. -/
theorem plainFrom_char (hspace : isSpace c = false) (hcolon : (c = ':' && wordEnds rest) = false)
    (hblanks : blanks ≠ [] → bound ≤ column ∧ 0 < column ∧ c ≠ '#') :
    plainFrom false bound column (.inline blanks) (c :: rest) =
      (plainFrom false bound (column + 1) .empty rest).map (·.prepend (blanks ++ [c])) := by
  simp only [isSpace, Bool.or_eq_false_iff] at hspace
  have hreturn : c ≠ '\r' := by
    rintro rfl
    exact absurd hspace.2 (by decide)
  have hends : ¬((!(Gap.inline blanks).isEmpty) = true ∧
      endsAfterGap false bound column c rest = true) := by
    rintro ⟨hgap, hends⟩
    have hne : blanks ≠ [] := by
      rintro rfl
      simp [Gap.isEmpty] at hgap
    obtain ⟨hbound, hcolumn, hsign⟩ := hblanks hne
    have hzero : column ≠ 0 := by omega
    simp [endsAfterGap, hsign, hzero] at hends
    omega
  rw [plainFrom.eq_3 _ _ _ _ _ _ (fun _ h _ => hreturn h), if_neg (by simp [hspace.2]),
    if_neg (by simp [hspace.1]), if_neg hends, if_neg (by simp),
    if_neg (by simpa [endsPlain] using hcolon)]
  rfl

theorem wordEnds_append (hne : text ≠ []) : wordEnds (text ++ rest) = wordEnds text := by
  obtain ⟨c, text, rfl⟩ := List.exists_cons_of_ne_nil hne
  rfl

/-- **The words of a plain text are read**, up to its end. -/
theorem plainFrom_append (hprintable : ∀ c ∈ text, isPrintable c = true)
    (hbreak : ∀ c ∈ text, isBreak c = false)
    (hinner : hasInnerIndicator (!blanks.isEmpty) text = false)
    (hlast : text.getLast? ≠ some ' ') (hempty : text = [] → blanks = [])
    (hbound : bound ≤ column + 1) (hblanks : blanks ≠ [] → bound ≤ column ∧ 0 < column) :
    plainFrom false bound column (.inline blanks) (text ++ tail) =
      (plainFrom false bound (column + text.length) .empty tail).map
        (·.prepend (blanks ++ text)) := by
  induction text generalizing blanks column with
  | nil =>
    rw [hempty rfl]
    show _ = Option.map (fun scalar => scalar) _
    rw [Option.map_id']
    rfl
  | cons c rest ih =>
    obtain ⟨hc, hprintable'⟩ := List.forall_mem_cons.mp hprintable
    obtain ⟨hcbreak, hbreak'⟩ := List.forall_mem_cons.mp hbreak
    rw [hasInnerIndicator, isSpace_eq hc, hcbreak, Bool.or_false] at hinner
    simp only [Bool.or_eq_false_iff] at hinner
    obtain ⟨⟨hcolon, hsign⟩, hinner⟩ := hinner
    have hlast' : rest.getLast? ≠ some ' ' := by
      cases rest with
      | nil => simp
      | cons d rest => rwa [List.getLast?_cons_cons] at hlast
    rw [List.cons_append, List.length_cons, Nat.add_comm rest.length, ← Nat.add_assoc]
    by_cases hspace : isPlainSpace c = true
    · obtain rfl : c = ' ' := by simpa [isPlainSpace] using hspace
      have hended : (!(blanks ++ [' ']).isEmpty) = isPlainSpace ' ' := by
        cases blanks <;> rfl
      have hrest := @ih (column + 1) (blanks ++ [' ']) hprintable' hbreak' (hended ▸ hinner) hlast'
        (fun hnil => absurd hlast (by simp [hnil])) (by omega) (fun _ => ⟨by omega, by omega⟩)
      rw [plainFrom_space rfl, Gap.addBlank, hrest, List.append_assoc, List.singleton_append]
    · have hrest := @ih (column + 1) [] hprintable' hbreak' (by simpa [hspace] using hinner) hlast'
        (fun _ => rfl) (by omega) (fun h => absurd rfl h)
      have hcolon' : (c = ':' && wordEnds (rest ++ tail)) = false := by
        cases rest with
        | nil =>
          have hne : c ≠ ':' := by simpa [wordEnds] using hcolon
          simp [hne]
        | cons d rest => exact hcolon
      rw [plainFrom_char (by simp [isSpace_eq hc, hspace, hcbreak]) hcolon' fun hne =>
        ⟨(hblanks hne).1, (hblanks hne).2, by simpa [hne] using hsign⟩]
      show Option.map _ (plainFrom false bound (column + 1) (.inline []) (rest ++ tail)) = _
      rw [hrest, Option.map_map]
      refine congrArg (Option.map · _) (funext fun scalar => ?_)
      simp [PlainScalar.prepend]

/-- A line break and less indentation end a plain text. -/
theorem plainFrom_newline (n : Nat) (hn : (n : Int) < bound) (htail : StartsToken tail) :
    plainFrom false bound column .empty ('\n' :: (spaces n ++ tail)) = some ⟨[], true, tail⟩ := by
  have hspaces : ∀ n column, plainFrom false bound column (.broken ['\n']) (spaces n ++ tail) =
      plainFrom false bound (column + n) (.broken ['\n']) tail := by
    intro n
    induction n with
    | zero => exact fun column => rfl
    | succ n ih =>
      intro column
      rw [spaces, List.replicate_succ, List.cons_append, plainFrom.eq_3 _ _ _ _ _ _ (by simp),
        if_neg (by decide), if_pos (by decide), if_neg (by simp)]
      exact (ih (column + 1)).trans (by rw [Nat.add_right_comm]; rfl)
  rw [plainFrom.eq_3 _ _ _ _ _ _ (by simp), if_pos (by decide)]
  show plainFrom false bound 0 (.broken ['\n']) (spaces n ++ tail) = _
  rw [hspaces, Nat.zero_add]
  cases tail with
  | nil => rfl
  | cons c rest =>
    obtain ⟨hspace, -⟩ := startsToken_cons_iff.mp htail
    simp only [isSpace, Bool.or_eq_false_iff] at hspace
    have hreturn : c ≠ '\r' := by
      rintro rfl
      exact absurd hspace.2 (by decide)
    rw [plainFrom.eq_3 _ _ _ _ _ _ (fun _ h _ => hreturn h), if_neg (by simp [hspace.2]),
      if_neg (by simp [hspace.1]), if_pos (by simp [Gap.isEmpty, endsAfterGap, hn])]
    rfl

/-- A colon that ends a word ends a plain text. -/
theorem plainFrom_colon (htail : wordEnds tail = true) :
    plainFrom false bound column .empty (':' :: tail) = some ⟨[], false, ':' :: tail⟩ := by
  have hends : endsPlain false ':' tail = true := by simp [endsPlain, htail]
  rw [plainFrom.eq_3 _ _ _ _ _ _ (by simp), if_neg (by decide), if_neg (by decide),
    if_neg (by simp [Gap.isEmpty, Gap.empty]), if_neg (by simp), if_pos hends]
  rfl

end Plain

end LayeredConfig.Yaml
