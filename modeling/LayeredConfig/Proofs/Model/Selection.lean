import LayeredConfig.Model.File
import LayeredConfig.Proofs.Text.Occurrences
import LayeredConfig.Proofs.Text.Pieces

/-!
# Which nested files rules select

A nested file is selected by what is left of its path when the text of the directories of each rule
has been deleted from it.  The text is deleted wherever it stands, at any level and also in the
middle of names, so a file can be selected that lies in other directories.  Where the text of the
rules stands only for whole names, and deleting can not bring it about elsewhere, this does not
happen: what is deleted are blocks of whole names, and since slashes and an ending must be left,
nothing but slashes is between the blocks.  Main statements:

* `selects_iff` — what is left selects the file exactly if it is slashes and then an ending;
* `Leaves` — a path as gaps and blocks, with what is left of it; `Leaves.cut` says that the text of a
  rule is found in what is left only where it is in the path, and that taking it away takes one more
  block, `leaves_remainder` that all rules together do;
* `Leaves.exists_slashed` — the gaps are single slashes;
* **`accountsFor_of_accepts`** — the rules account for the directories of a selected file, if their
  texts stand in its path only for whole names;
* `accepts_glued` — a file that is selected because names run into each other.
-/

namespace LayeredConfig

/-! ## Extensions -/

namespace FileFormat

theorem ofExtension?_eq_some_iff {format : FileFormat} {text : Text} :
    ofExtension? text = some format ↔ text = format.extension := by
  constructor
  · intro h
    simpa [eq_comm] using List.find?_some h
  · rintro rfl
    cases format <;> decide

theorem dot_not_mem_extension (format : FileFormat) : '.' ∉ format.extension := by
  cases format <;> decide

theorem slash_not_mem_extension (format : FileFormat) : '/' ∉ '.' :: format.extension := by
  cases format <;> decide

theorem ofFileName?_eq_some_iff {format : FileFormat} {name : Text} :
    ofFileName? name = some format ↔ '.' :: format.extension <:+ name := by
  rw [ofFileName?, Option.bind_eq_some_iff]
  constructor
  · rintro ⟨extension, hlast, hformat⟩
    exact ofExtension?_eq_some_iff.mp hformat ▸ Text.suffix_of_afterLast? hlast
  · rintro ⟨front, rfl⟩
    exact ⟨_, Text.afterLast?_append (dot_not_mem_extension format) front,
      ofExtension?_eq_some_iff.mpr rfl⟩

/-- A path that ends in an extension has its format. -/
theorem ofPath?_of_suffix {format : FileFormat} {path : Path}
    (h : '.' :: format.extension <:+ path.text) : ofPath? path = some format := by
  obtain ⟨front, htext⟩ := h
  have hslash := slash_not_mem_extension format
  have htrim : Text.trimEnd (· = '/') path.text = path.text := by
    apply Text.trimEnd_self
    intro c hc
    rw [← htext, List.getLast?_append_of_ne_nil _ (List.cons_ne_nil _ _)] at hc
    exact decide_eq_false fun heq => hslash (heq ▸ List.mem_of_getLast? hc)
  obtain ⟨before, hlast⟩ := Text.exists_getLast?_splitAt hslash front
  have hname : path.fileName? = some (before ++ '.' :: format.extension) := by
    rw [Path.fileName?, htrim, ← htext]
    simp only [hlast]
    cases before <;> rfl
  rw [ofPath?, hname, Option.bind_some, ofFileName?_eq_some_iff]
  exact List.suffix_append _ _

end FileFormat

namespace Rule

/-! ## What selects a file -/

/-- A file name that starts with a dot and has an extension of a model file; the extension alone is
one. -/
structure DotFile (name : Text) : Prop where
  no_slash : '/' ∉ name
  starts : name.head? = some '.'
  ends : ∃ format : FileFormat, '.' :: format.extension <:+ name

theorem dotFile_extension (format : FileFormat) : DotFile ('.' :: format.extension) :=
  ⟨format.slash_not_mem_extension, rfl, format, List.suffix_refl _⟩

/-- How the path of a selected file goes on after the directories: with an extension, or with one
file name that starts with a dot. -/
def Ending (ending : Text) : Prop :=
  (∃ format : FileFormat, ending = '.' :: format.extension) ∨
    ∃ name, ending = '/' :: name ∧ DotFile name

theorem dropWhile_slashes {name : Text} (h : name.head? ≠ some '/') (n : Nat) :
    (List.replicate n '/' ++ name).dropWhile (· = '/') = name := by
  rw [List.dropWhile_append_of_pos (by simp)]
  cases name with
  | nil => rfl
  | cons c name => exact List.dropWhile_cons_of_neg (by simpa using h)

theorem exists_slashes (text : Text) :
    ∃ n, text = List.replicate n '/' ++ text.dropWhile (· = '/') := by
  induction text with
  | nil => exact ⟨0, rfl⟩
  | cons c rest ih =>
    by_cases hc : c = '/'
    · subst hc
      obtain ⟨n, hn⟩ := ih
      refine ⟨n + 1, ?_⟩
      rw [List.dropWhile_cons_of_pos (by simp), List.replicate_succ, List.cons_append, ← hn]
    · exact ⟨0, by rw [List.dropWhile_cons_of_neg (by simpa using hc)]; rfl⟩

theorem DotFile.head?_ne {name : Text} (h : DotFile name) : name.head? ≠ some '/' := by
  rw [h.starts]
  decide

theorem selects_slashes {name : Text} (h : DotFile name) (n : Nat) :
    selects ('/' :: (List.replicate n '/' ++ name)) = true := by
  have hname : ('/' :: (List.replicate n '/' ++ name)).dropWhile (· = '/') = name :=
    dropWhile_slashes h.head?_ne (n + 1)
  obtain ⟨format, hends⟩ := h.ends
  simp [selects, hname, h.starts, h.no_slash, FileFormat.ofFileName?_eq_some_iff.mpr hends]

/-- What is left of a path selects its file exactly if it is slashes and then an ending. -/
theorem selects_iff {rest : Text} :
    selects rest = true ↔ ∃ n ending, rest = List.replicate n '/' ++ ending ∧ Ending ending := by
  constructor
  · intro h
    unfold selects at h
    split at h
    · next extension =>
      obtain ⟨format, hformat⟩ := Option.isSome_iff_exists.mp h
      obtain rfl := FileFormat.ofExtension?_eq_some_iff.mp hformat
      exact ⟨0, _, rfl, Or.inl ⟨format, rfl⟩⟩
    · next tail =>
      simp only [Bool.and_eq_true, decide_eq_true_eq, Bool.not_eq_true'] at h
      obtain ⟨⟨hstarts, hslash⟩, hformat⟩ := h
      obtain ⟨format, hformat⟩ := Option.isSome_iff_exists.mp hformat
      obtain ⟨n, htail⟩ := exists_slashes ('/' :: tail)
      cases n with
      | zero =>
        rw [List.replicate_zero, List.nil_append] at htail
        rw [← htail] at hstarts
        simp at hstarts
      | succ n =>
        rw [List.replicate_succ', List.append_assoc, List.singleton_append] at htail
        exact ⟨n, _, htail, Or.inr ⟨_, rfl, by simpa using hslash, hstarts, format,
          FileFormat.ofFileName?_eq_some_iff.mp hformat⟩⟩
    · simp at h
  · rintro ⟨n, ending, rfl, ⟨format, rfl⟩ | ⟨name, rfl, hname⟩⟩
    · cases n with
      | zero => simp [selects, FileFormat.ofExtension?_eq_some_iff.mpr rfl]
      | succ n => exact selects_slashes (dotFile_extension format) n
    · rw [← List.singleton_append, ← List.append_assoc, ← List.replicate_succ']
      exact selects_slashes hname n

theorem exists_slashes_of_selects {rest : Text} (h : selects rest = true) :
    ∃ n name, '/' :: rest = List.replicate n '/' ++ name ∧ DotFile name := by
  obtain ⟨n, ending, rfl, ⟨format, rfl⟩ | ⟨name, rfl, hname⟩⟩ := selects_iff.mp h
  · exact ⟨n + 1, _, rfl, dotFile_extension format⟩
  · refine ⟨n + 2, name, ?_, hname⟩
    rw [List.replicate_succ, List.replicate_succ']
    simp

/-! ## Whole names -/

theorem getLast?_pattern (rule : Rule) : rule.pattern.getLast? ≠ some '/' := by
  obtain ⟨-, -, -, hlast⟩ := Text.exists_trimEnd (· = '/') rule.segmentPath
  intro h
  exact absurd (hlast '/' h) (by decide)

/-- No name of the directories of a rule, except perhaps the first one, is empty or starts with a
dot. -/
structure Named (rule : Rule) : Prop where
  no_slashes : ¬['/', '/'] <:+: rule.pattern
  no_dot : ¬['/', '.'] <:+: rule.pattern

instance decidableNamed (rule : Rule) : Decidable rule.Named :=
  decidable_of_iff (¬['/', '/'] <:+: rule.pattern ∧ ¬['/', '.'] <:+: rule.pattern)
    ⟨fun ⟨hslashes, hdot⟩ => ⟨hslashes, hdot⟩, fun h => ⟨h.no_slashes, h.no_dot⟩⟩

/-- Whether a name of a path ends before the rest of the path. -/
def Closes (rest : Text) : Prop :=
  rest = [] ∨ rest.head? = some '/' ∨ ∃ format : FileFormat, rest = '.' :: format.extension

instance decidableCloses (rest : Text) : Decidable (Closes rest) :=
  decidable_of_iff (rest = [] ∨ rest.head? = some '/' ∨
      ∃ format ∈ [FileFormat.json, .yaml, .properties], rest = '.' :: format.extension)
    (or_congr_right (or_congr_right (exists_congr fun format => by cases format <;> simp)))

/-- Whether a pattern occurs in a path only where it covers whole names, except that an extension
may follow that ends the path. -/
def CoversNames (pattern path : Text) : Prop :=
  ∀ before after, path = before ++ (pattern ++ after) →
    (before = [] ∨ before.getLast? = some '/') ∧ Closes after

theorem coversNames_iff {pattern path : Text} :
    CoversNames pattern path ↔ ∀ k ∈ List.range (path.length + 1), pattern <+: path.drop k →
      (path.take k = [] ∨ (path.take k).getLast? = some '/') ∧
        Closes (path.drop (k + pattern.length)) := by
  constructor
  · rintro h k - ⟨after, hafter⟩
    have hsplit := h (path.take k) after (by rw [hafter, List.take_append_drop])
    rwa [← List.drop_drop, ← hafter, List.drop_left]
  · rintro h before after rfl
    have hk : before.length ∈ List.range ((before ++ (pattern ++ after)).length + 1) :=
      List.mem_range.mpr (by rw [List.length_append]; omega)
    have hsplit := h before.length hk (by simp)
    simpa [← List.drop_drop] using hsplit

instance decidableCoversNames (pattern path : Text) : Decidable (CoversNames pattern path) :=
  decidable_of_iff _ coversNames_iff.symm

/-- With a slash in front of the path, the pattern stands behind slashes except at the very
beginning. -/
theorem CoversNames.slash {pattern path before after : Text} (h : CoversNames pattern path)
    (hne : before ≠ []) (heq : '/' :: path = before ++ (pattern ++ after)) :
    before.getLast? = some '/' ∧ Closes after := by
  obtain ⟨c, before, rfl⟩ := List.exists_cons_of_ne_nil hne
  obtain ⟨rfl, hpath⟩ := List.cons.inj heq
  obtain ⟨hbefore, hafter⟩ := h before after hpath
  refine ⟨?_, hafter⟩
  rcases hbefore with rfl | hbefore
  · rfl
  · rw [List.getLast?_cons, hbefore]
    rfl

theorem Closes.of_append_slash {first rest : Text} (hfirst : first.getLast? = some '/')
    (h : Closes (first ++ rest)) : first.head? = some '/' := by
  have hne : first ≠ [] := by
    rintro rfl
    simp at hfirst
  rcases h with h | h | ⟨format, h⟩
  · simp [hne] at h
  · rwa [List.head?_append_of_ne_nil _ hne] at h
  · have hmem : '/' ∈ first ++ rest := List.mem_append_left _ (List.mem_of_getLast? hfirst)
    exact absurd (h ▸ hmem) format.slash_not_mem_extension

/-! ## What rules leave of a path -/

/-- What is left of a path, with a slash in front of it, when the directories of some rules are
taken away.  The gaps between them begin and end with a slash, and behind the last of them a name
ends. -/
inductive Leaves (rules : List Rule) : (path left : Text) → Prop
  | rest {path : Text} (closes : Closes path) : Leaves rules path path
  | block {gap path left : Text} {rule : Rule} (starts : gap.head? = some '/')
      (ends : gap.getLast? = some '/') (given : rule ∈ rules) (nonempty : rule.pattern ≠ [])
      (more : Leaves rules path left) :
      Leaves rules (gap ++ (rule.pattern ++ path)) (gap ++ left)

variable {rules : List Rule} {rule other : Rule} {path left : Text}

theorem Leaves.closes (h : Leaves rules path left) : Closes left := by
  cases h with
  | rest closes => exact closes
  | block starts =>
    refine Or.inr (Or.inl ?_)
    rw [List.head?_append, starts]
    rfl

theorem infix_seam {first second : Text} {c d : Char} (hfirst : first.getLast? = some c)
    (hsecond : second.head? = some d) : [c, d] <:+: first ++ second := by
  obtain ⟨front, rfl⟩ := List.getLast?_eq_some_iff.mp hfirst
  obtain ⟨back, rfl⟩ := List.head?_eq_some_iff.mp hsecond
  exact ⟨front, back, by simp⟩

/-- No pattern lies across the place where two gaps meet: there are two slashes, or a slash and the
dot of an extension. -/
theorem Named.eq_nil_of_seam (hnamed : rule.Named) {first second rest : Text}
    (hpattern : rule.pattern = first ++ second) (hfirst : first.getLast? = some '/')
    (hsecond : Closes (second ++ rest)) : second = [] := by
  by_contra hne
  obtain ⟨c, second, rfl⟩ := List.exists_cons_of_ne_nil hne
  have hseam : ['/', c] <:+: rule.pattern := hpattern ▸ infix_seam hfirst rfl
  rcases hsecond with h | h | ⟨format, h⟩
  · simp at h
  · obtain rfl : c = '/' := by simpa using h
    exact hnamed.no_slashes hseam
  · obtain rfl : c = '.' := List.head_eq_of_cons_eq h
    exact hnamed.no_dot hseam

/-- What ends with a slash behind a block goes on behind it, since the block does not. -/
theorem getLast?_of_behind (hother : other.pattern ≠ []) {gap rest : Text}
    (h : (gap ++ (other.pattern ++ rest)).getLast? = some '/') : rest.getLast? = some '/' := by
  by_cases hnil : rest = []
  · rw [hnil, List.append_nil, List.getLast?_append_of_ne_nil _ hother] at h
    exact absurd h other.getLast?_pattern
  · rwa [← List.append_assoc, List.getLast?_append_of_ne_nil _ hnil] at h

/-- A block in the middle of a gap leaves a gap on each side of it. -/
theorem Leaves.cut_gap (hne : rule.pattern ≠ []) (hgiven : rule ∈ rules) {before after : Text}
    (starts : (before ++ (rule.pattern ++ after)).head? = some '/')
    (ends : (before ++ (rule.pattern ++ after)).getLast? = some '/') (given : other ∈ rules)
    (nonempty : other.pattern ≠ []) (more : Leaves rules path left)
    (hbefore : before.getLast? = some '/')
    (hafter : Closes (after ++ (other.pattern ++ path))) :
    Leaves rules (before ++ (rule.pattern ++ (after ++ (other.pattern ++ path))))
      (before ++ (after ++ left)) := by
  have hends : after.getLast? = some '/' := getLast?_of_behind hne ends
  have hstarts : before.head? = some '/' := by
    rwa [List.head?_append_of_ne_nil] at starts
    rintro rfl
    simp at hbefore
  exact .block hstarts hbefore hgiven hne
    (.block (hafter.of_append_slash hends) hends given nonempty more)

/-- Whether the directories of a rule occur in a path and, if they cover whole names there, can be
taken away so that `before` and `after` are left. -/
def CanCut (rules : List Rule) (rule : Rule) (path before after : Text) : Prop :=
  ∃ front back, path = front ++ (rule.pattern ++ back) ∧ (front = [] → before = []) ∧
    (front.getLast? = some '/' → Closes back → Leaves rules path (before ++ after))

theorem CanCut.behind_block {gap before after : Text} (starts : gap.head? = some '/')
    (ends : gap.getLast? = some '/') (given : other ∈ rules) (nonempty : other.pattern ≠ [])
    (h : CanCut rules rule path before after) :
    CanCut rules rule (gap ++ (other.pattern ++ path)) (gap ++ before) after := by
  obtain ⟨front, back, rfl, -, hcut⟩ := h
  refine ⟨gap ++ (other.pattern ++ front), back, by simp, fun hnil => ?_, fun hfront hback => ?_⟩
  · rw [(List.append_eq_nil_iff.mp hnil).1] at starts
    simp at starts
  · rw [List.append_assoc gap before]
    exact .block starts ends given nonempty (hcut (getLast?_of_behind nonempty hfront) hback)

/-- **No new places.**  Where the directories of a rule occur in what is left of a path, they occur
in the path itself; and if they cover whole names there, they can be taken away as one more
block. -/
theorem Leaves.cut (hnamed : rule.Named) (hne : rule.pattern ≠ []) (hgiven : rule ∈ rules)
    (h : Leaves rules path left) (before after : Text)
    (hleft : left = before ++ (rule.pattern ++ after)) : CanCut rules rule path before after := by
  induction h generalizing before with
  | rest closes =>
    subst hleft
    exact ⟨before, after, rfl, id, fun hbefore hafter =>
      .block (closes.of_append_slash hbefore) hbefore hgiven hne (.rest hafter)⟩
  | @block gap path left other starts ends given nonempty more ih =>
    rcases List.append_eq_append_iff.mp hleft with ⟨u, rfl, hu⟩ | ⟨u, rfl, hu⟩
    · -- behind the gap
      exact (ih u hu).behind_block starts ends given nonempty
    rcases List.append_eq_append_iff.mp hu with ⟨w, rfl, rfl⟩ | ⟨v, hpattern, rfl⟩
    · -- in the gap
      refine ⟨before, w ++ (other.pattern ++ path), by simp, id, fun hbefore hafter => ?_⟩
      have hmore := Leaves.cut_gap hne hgiven starts ends given nonempty more hbefore hafter
      simpa using hmore
    · by_cases hnil : u = []
      · -- right behind the gap
        subst hnil
        have hbehind := (ih [] (by simp [hpattern])).behind_block starts ends given nonempty
        simpa using hbehind
      · -- across the end of the gap
        rw [List.getLast?_append_of_ne_nil _ hnil] at ends
        have hv := hnamed.eq_nil_of_seam hpattern ends more.closes
        rw [hv, List.append_nil] at hpattern
        exact absurd (hpattern ▸ ends) rule.getLast?_pattern

/-- What removing the directories of a rule leaves of a path. -/
theorem Leaves.removeAll (hnamed : rule.Named) (hgiven : rule ∈ rules)
    (hcovers : rule.pattern ≠ [] → CoversNames rule.pattern path) {text : Text}
    (h : Leaves rules ('/' :: path) ('/' :: text)) :
    Leaves rules ('/' :: path) ('/' :: Text.removeAll rule.pattern text) := by
  by_cases hne : rule.pattern = []
  · rwa [hne, Text.removeAll_nil]
  · refine Text.removeAll_induction (p := fun text => Leaves rules ('/' :: path) ('/' :: text)) hne
      (fun before after h => ?_) h
    obtain ⟨front, back, hpath, hnil, hcut⟩ :=
      h.cut hnamed hne hgiven ('/' :: before) after rfl
    obtain ⟨hfront, hback⟩ :=
      (hcovers hne).slash (fun heq => List.cons_ne_nil _ _ (hnil heq)) hpath
    exact hcut hfront hback

theorem leaves_remainder (hrules : ∀ rule ∈ rules, rule.Named) {path : Text}
    (hcovers : ∀ rule ∈ rules, rule.pattern ≠ [] → CoversNames rule.pattern path) :
    Leaves rules ('/' :: path) ('/' :: remainder rules path) := by
  suffices hall : ∀ given ⊆ rules, ∀ text, Leaves rules ('/' :: path) ('/' :: text) →
      Leaves rules ('/' :: path) ('/' :: remainder given text) from
    hall rules (List.Subset.refl _) path (.rest (Or.inr (Or.inl rfl)))
  intro given
  induction given with
  | nil => exact fun _ _ h => h
  | cons rule given ih =>
    intro hsubset text h
    obtain ⟨hrule, hgiven⟩ := List.cons_subset.mp hsubset
    exact ih hgiven _ (h.removeAll (hrules rule hrule) hrule (hcovers rule hrule))

/-! ## Paths that rules account for -/

/-- The directories of some rules, each with a slash in front of it. -/
def slashed (chosen : List Rule) : Text :=
  chosen.flatMap fun rule => '/' :: rule.pattern

/-- Whether a path consists of the directories of one or more of the rules, with a slash between
each two of them, and an ending. -/
def AccountsFor (rules : List Rule) (path : Text) : Prop :=
  ∃ chosen ending, chosen ≠ [] ∧ (∀ rule ∈ chosen, rule ∈ rules) ∧ Ending ending ∧
    path = Text.join ['/'] (chosen.map pattern) ++ ending

theorem slash_join (first : Rule) (chosen : List Rule) :
    '/' :: Text.join ['/'] ((first :: chosen).map pattern) = slashed (first :: chosen) := by
  induction chosen generalizing first with
  | nil => simp [slashed, Text.join]
  | cons second chosen ih =>
    rw [List.map_cons, List.map_cons, Text.join, slashed, List.flatMap_cons, ← slashed, ← ih]
    simp

theorem infix_replicate_slashes (n : Nat) (text : Text) :
    ['/', '/'] <:+: List.replicate (n + 2) '/' ++ text :=
  ⟨[], List.replicate n '/' ++ text, by simp [List.replicate_succ]⟩

/-- A gap in front of slashes and a file name is slashes. -/
theorem exists_replicate_of_gap {gap name : Text} (ends : gap.getLast? = some '/') {n : Nat}
    (hname : '/' ∉ name) (h : gap ++ left = List.replicate n '/' ++ name) :
    ∃ k m, gap = List.replicate k '/' ∧ left = List.replicate m '/' ++ name := by
  rcases List.append_eq_append_iff.mp h with ⟨u, hslashes, rfl⟩ | ⟨u, rfl, hsplit⟩
  · obtain ⟨-, hgap, hu⟩ := List.append_eq_replicate_iff.mp hslashes.symm
    exact ⟨_, _, hgap, by rw [← hu]⟩
  · by_cases hnil : u = []
    · subst hnil
      exact ⟨n, 0, by simp, by simpa using hsplit.symm⟩
    · rw [List.getLast?_append_of_ne_nil _ hnil] at ends
      exact absurd (hsplit ▸ List.mem_append_left _ (List.mem_of_getLast? ends)) hname

/-- Where slashes and a dot file are left of a path, the gaps between the blocks are single
slashes. -/
theorem Leaves.exists_slashed (h : Leaves rules path left) (hsingle : ¬['/', '/'] <:+: path)
    {n : Nat} {name : Text} (hname : DotFile name) (hleft : left = List.replicate n '/' ++ name) :
    ∃ chosen ending, (∀ rule ∈ chosen, rule ∈ rules) ∧ Ending ending ∧
      path = slashed chosen ++ ending := by
  induction h generalizing n with
  | rest closes =>
    subst hleft
    match n with
    | 0 =>
      rcases closes with h | h | hformat
      · exact absurd hname.starts (by simp [show name = [] from h])
      · exact absurd h hname.head?_ne
      · exact ⟨[], name, by simp, Or.inl hformat, rfl⟩
    | 1 => exact ⟨[], '/' :: name, by simp, Or.inr ⟨name, rfl, hname⟩, rfl⟩
    | n + 2 => exact absurd (infix_replicate_slashes n name) hsingle
  | @block gap path left other starts ends given _ more ih =>
    obtain ⟨k, m, rfl, rfl⟩ := exists_replicate_of_gap ends hname.no_slash hleft
    obtain ⟨chosen, ending, hchosen, hending, rfl⟩ :=
      ih (fun h => hsingle (h.trans (List.suffix_append_of_suffix
        (List.suffix_append _ _)).isInfix)) rfl
    match k with
    | 0 => simp at starts
    | 1 =>
      exact ⟨other :: chosen, ending, List.forall_mem_cons.mpr ⟨given, hchosen⟩, hending,
        by simp [slashed]⟩
    | k + 2 => exact absurd (infix_replicate_slashes k _) hsingle

/-- A path with a slash in front of it has two slashes in a row only if one of its names is
empty. -/
theorem nil_mem_splitAt_of_slashes {path : Text} (h : ['/', '/'] <:+: '/' :: path) :
    [] ∈ Text.splitAt '/' path := by
  obtain ⟨before, after, h⟩ := h
  cases before with
  | nil =>
    obtain rfl : '/' :: after = path := by simpa using h
    rw [Text.splitAt, if_pos rfl]
    exact List.mem_cons_self
  | cons c before =>
    have hpath : path = before ++ '/' :: ('/' :: after) := by
      simpa using (List.cons.inj h).2.symm
    rw [hpath, Text.splitAt_append, Text.splitAt, if_pos rfl]
    simp

theorem Ending.exists_format {ending : Text} (h : Ending ending) :
    ∃ format : FileFormat, '.' :: format.extension <:+ ending := by
  rcases h with ⟨format, rfl⟩ | ⟨name, rfl, hname⟩
  · exact ⟨format, List.suffix_refl _⟩
  · obtain ⟨format, hends⟩ := hname.ends
    exact ⟨format, hends.trans (List.suffix_cons _ _)⟩

theorem AccountsFor.isSome_ofPath? {path : Path} (h : AccountsFor rules path.text) :
    (FileFormat.ofPath? path).isSome := by
  obtain ⟨chosen, ending, -, -, hending, hpath⟩ := h
  obtain ⟨format, hends⟩ := hending.exists_format
  rw [FileFormat.ofPath?_of_suffix (hpath ▸ hends.trans (List.suffix_append _ _))]
  rfl

/-- A nested path whose names are not empty is accounted for if it is with a slash in front of
it. -/
theorem accountsFor_of_slashed {path ending : Text} {chosen : List Rule} (hnested : '/' ∈ path)
    (hchosen : ∀ rule ∈ chosen, rule ∈ rules) (hending : Ending ending)
    (hpath : '/' :: path = slashed chosen ++ ending) : AccountsFor rules path := by
  cases chosen with
  | nil =>
    rcases hending with ⟨format, rfl⟩ | ⟨name, rfl, hname⟩
    · simp [slashed] at hpath
    · obtain rfl : path = name := by simpa [slashed] using hpath
      exact absurd hnested hname.no_slash
  | cons first chosen =>
    rw [← slash_join, List.cons_append] at hpath
    exact ⟨first :: chosen, ending, List.cons_ne_nil _ _, hchosen, hending, (List.cons.inj hpath).2⟩

/-- **Selected files are accounted for.**  A nested file that rules select lies in directories that
are those of the rules, one after the other, and it has a format, if the directories of the rules
occur in its path only as whole names, and no name of theirs behind the first one is empty or starts
with a dot. -/
theorem accountsFor_of_accepts {rules : List Rule} {path : Path}
    (hrules : ∀ rule ∈ rules, rule.Named)
    (hcovers : ∀ rule ∈ rules, rule.pattern ≠ [] → CoversNames rule.pattern path.text)
    (hnested : '/' ∈ path.text) (hnames : [] ∉ Text.splitAt '/' path.text)
    (h : accepts rules path = true) :
    AccountsFor rules path.text ∧ (FileFormat.ofPath? path).isSome := by
  have hselects : selects (remainder rules path.text) = true := by simpa [accepts, hnested] using h
  obtain ⟨n, name, hslashes, hname⟩ := exists_slashes_of_selects hselects
  have hleaves := leaves_remainder hrules hcovers
  obtain ⟨chosen, ending, hchosen, hending, hpath⟩ :=
    hleaves.exists_slashed (fun h => hnames (nil_mem_splitAt_of_slashes h)) hname hslashes
  have haccounts := accountsFor_of_slashed hnested hchosen hending hpath
  exact ⟨haccounts, haccounts.isSome_ofPath?⟩

/-- The rule `env=prod`. -/
def envProd : Rule := ⟨"env".toList, "prod".toList⟩

/-- The rule `region=eu`. -/
def regionEu : Rule := ⟨"region".toList, "eu".toList⟩

theorem accountsFor_of_accepts_twoRules :
    (∀ rule ∈ [envProd, regionEu], rule.Named ∧
        CoversNames rule.pattern "region/eu/env/prod/.app.yaml".toList) ∧
      accepts [envProd, regionEu] (Path.ofText "region/eu/env/prod/.app.yaml".toList) = true ∧
      AccountsFor [envProd, regionEu] "region/eu/env/prod/.app.yaml".toList := by
  have hrules : ∀ rule ∈ [envProd, regionEu], rule.Named ∧
      CoversNames rule.pattern "region/eu/env/prod/.app.yaml".toList := by decide +kernel
  have haccepts : accepts [envProd, regionEu]
      (Path.ofText "region/eu/env/prod/.app.yaml".toList) = true := by decide +kernel
  exact ⟨hrules, haccepts, (accountsFor_of_accepts (fun rule h => (hrules rule h).1)
    (fun rule h _ => (hrules rule h).2) (by decide +kernel) (by decide +kernel) haccepts).1⟩

/-! ### Names that run into each other -/

/-- A path that is accounted for begins with the directories of a rule as whole names. -/
theorem AccountsFor.exists_first {path : Text} (h : AccountsFor rules path) :
    ∃ rule ∈ rules, rule.pattern <+: path ∧
      (path.drop rule.pattern.length).head? ∈ [some '/', some '.'] := by
  obtain ⟨chosen, ending, hne, hchosen, hending, hpath⟩ := h
  obtain ⟨first, chosen, rfl⟩ := List.exists_cons_of_ne_nil hne
  have hsplit : path = first.pattern ++ (slashed chosen ++ ending) := by
    have hslashed := congrArg ('/' :: ·) hpath
    simp only [← List.cons_append, slash_join] at hslashed
    simpa [slashed] using hslashed
  refine ⟨first, hchosen first List.mem_cons_self, ⟨_, hsplit.symm⟩, ?_⟩
  rw [hsplit, List.drop_left]
  cases chosen with
  | cons second chosen => simp [slashed]
  | nil =>
    rcases hending with ⟨format, rfl⟩ | ⟨name, rfl, -⟩
    · simp [slashed]
    · simp [slashed]

/-- The directory `env/prodenv` is none of the rule `env=prod`, and still the file `prod.yaml` in it
is selected.  With the rule `tier=` a file is selected that has no format.  Where `x` is deleted from
a path, the directories `a//b` of the rule `a==b` and those of the rule `b=.y` come about, and are
deleted in their turn. -/
theorem accepts_glued :
    parse? "env=prod".toList = some envProd ∧
      accepts [envProd] (Path.ofText "env/prodenv/prod.yaml".toList) = true ∧
      (∀ name ∈ Text.splitAt '/' "env/prodenv/prod.yaml".toList,
        name ≠ [] ∧ name ≠ ['.'] ∧ name ≠ ['.', '.']) ∧
      ¬AccountsFor [envProd] "env/prodenv/prod.yaml".toList ∧
      parse? "tier=".toList = some ⟨"tier".toList, []⟩ ∧
      accepts [⟨"tier".toList, []⟩] (Path.ofText "tier/.yatierml".toList) = true ∧
      FileFormat.ofPath? (Path.ofText "tier/.yatierml".toList) = none ∧
      parse? "a==b".toList = some ⟨['a'], "=b".toList⟩ ∧
      accepts [⟨['x'], []⟩, ⟨['a'], "=b".toList⟩] (Path.ofText "a/x/b.yaml".toList) = true ∧
      ¬AccountsFor [⟨['x'], []⟩, ⟨['a'], "=b".toList⟩] "a/x/b.yaml".toList ∧
      accepts [⟨['x'], []⟩, ⟨['b'], ".y".toList⟩] (Path.ofText ".yb/x.yaml".toList) = true ∧
      ¬AccountsFor [⟨['x'], []⟩, ⟨['b'], ".y".toList⟩] ".yb/x.yaml".toList := by
  refine ⟨by decide, by decide +kernel, by decide, fun h => ?_, by decide, by decide +kernel,
    by decide +kernel, by decide, by decide +kernel, fun h => ?_, by decide +kernel, fun h => ?_⟩
  all_goals exact absurd h.exists_first (by decide +kernel)

end Rule

end LayeredConfig
