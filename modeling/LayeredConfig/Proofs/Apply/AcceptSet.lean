import LayeredConfig.Apply.AcceptSet
import LayeredConfig.Proofs.Apply.Places

/-!
# The target that an accepted argument names

A target may be accepted under other spellings than its own: with openings before it, each of them
`./` or a slash, and with backslashes in place of slashes.  An argument is brought down to a relative
path by dropping each `./` it begins with and then the slashes that follow, so a `./` behind a slash
is not dropped.  Main statements:

* `strip_opened`, `dotted_strip_iff` — what is left of a text with openings before it, and when that
  still begins with `./`;
* `Path.Tidy`, `tidy_of_scheduled` — what is asked of the path of a target, and that the scheduled
  ones are so;
* `canonical_of_spells` — an argument comes down to the target that it spells, unless a `./` is left
  before it;
* `contains_iff_not_mixed` — **an argument accepts the target that it spells, and no other one**,
  and what it comes down to comes down to itself, both exactly unless its openings are mixed;
* `mixed_missed` — an argument with mixed openings, which accepts no target.
-/

namespace LayeredConfig

open scoped List

namespace AcceptSet

variable {text : Text}

/-! ## Openings -/

/-- What may stand before a relative path without leading anywhere. -/
inductive Opening where
  /-- A dot and a slash. -/
  | here
  | slash
  deriving DecidableEq

variable {openings : List Opening}

/-- The text of an opening. -/
def Opening.spelling : Opening → Text
  | here => ['.', '/']
  | slash => ['/']

/-- A text with openings before it. -/
def opened (openings : List Opening) (text : Text) : Text :=
  openings.flatMap Opening.spelling ++ text

/-- Whether among openings a `./` comes behind a slash. -/
def Mixed (openings : List Opening) : Prop :=
  [.slash, .here] <+ openings

instance (openings : List Opening) : Decidable (Mixed openings) :=
  inferInstanceAs (Decidable (_ <+ _))

theorem mixed_here_iff : Mixed (.here :: openings) ↔ Mixed openings := by
  simp [Mixed, List.sublist_cons_iff]

theorem mixed_slash_iff : Mixed (.slash :: openings) ↔ .here ∈ openings := by
  rw [Mixed, List.cons_sublist_cons, List.singleton_sublist]

/-- Whether a text begins with `./`. -/
def Dotted (text : Text) : Prop :=
  ['.', '/'] <+: text

theorem dotted_iff : Dotted text ↔ ∃ rest, text = opened [.here] rest := by
  simp only [Dotted, List.IsPrefix, opened, List.flatMap_singleton, Opening.spelling, eq_comm]

theorem backslash_not_mem_opened (h : '\\' ∉ text) : '\\' ∉ opened openings text := by
  rw [opened, List.mem_append, not_or, List.mem_flatMap]
  refine ⟨fun hmem => ?_, h⟩
  obtain ⟨first, -, hfirst⟩ := hmem
  cases first <;> simp [Opening.spelling] at hfirst

/-! ## What is left of a text -/

/-- A text without any `./` it begins with, and then without the slashes that it begins with. -/
def strip (text : Text) : Text :=
  (dropHere text).dropWhile (· = '/')

theorem canonical_eq (argument : Text) : canonical argument = strip (Path.ofText argument).text :=
  rfl

theorem dropHere_of_not_dotted (h : ¬Dotted text) : dropHere text = text := by
  unfold dropHere
  split
  · exact absurd (List.prefix_append ['.', '/'] _) h
  · rfl

theorem dropHere_suffix (text : Text) : dropHere text <:+ text := by
  fun_induction dropHere text with
  | case1 rest ih => exact ih.trans (List.suffix_append ['.', '/'] rest)
  | case2 text => exact List.suffix_rfl

theorem strip_suffix (text : Text) : strip text <:+ text :=
  (List.dropWhile_suffix _).trans (dropHere_suffix text)

theorem strip_here (openings : List Opening) (text : Text) :
    strip (opened (.here :: openings) text) = strip (opened openings text) := rfl

theorem strip_slash (openings : List Opening) (text : Text) :
    strip (opened (.slash :: openings) text) = (opened openings text).dropWhile (· = '/') := rfl

/-- What is left stays as it is exactly if it does not begin with `./`. -/
theorem strip_strip_iff : strip (strip text) = strip text ↔ ¬Dotted (strip text) := by
  constructor
  · intro hsame hdotted
    obtain ⟨rest, hrest⟩ := dotted_iff.mp hdotted
    have hlen := (strip_suffix rest).length_le
    rw [hrest, strip_here] at hsame
    have hshort := congrArg List.length hsame
    simp only [opened, List.flatMap_nil, List.nil_append, List.flatMap_singleton, Opening.spelling,
      List.length_append, List.length_cons, List.length_nil] at hshort
    omega
  · intro hdotted
    rw [strip, dropHere_of_not_dotted hdotted]
    exact Path.dropWhile_of_head? (Path.head?_dropWhile _)

/-! ### Behind a slash -/

theorem dropWhile_opened (hhead : text.head? ≠ some '/') (h : .here ∉ openings) :
    (opened openings text).dropWhile (· = '/') = text := by
  induction openings with
  | nil => exact Path.dropWhile_of_head? hhead
  | cons first openings ih =>
    cases first with
    | here => simp at h
    | slash => exact ih (by simpa using h)

/-- Behind the slashes a text goes on with `./` exactly if it has openings with one. -/
theorem dotted_dropWhile_iff :
    Dotted (text.dropWhile (· = '/')) ↔
      ∃ openings rest, .here ∈ openings ∧ text = opened openings rest := by
  constructor
  · intro hdotted
    induction text with
    | nil => simp [Dotted] at hdotted
    | cons c text ih =>
      by_cases hc : c = '/'
      · rw [List.dropWhile_cons_of_pos (by simpa using hc)] at hdotted
        obtain ⟨openings, rest, hmem, rfl⟩ := ih hdotted
        exact ⟨.slash :: openings, rest, List.mem_cons_of_mem _ hmem, by rw [hc]; rfl⟩
      · rw [List.dropWhile_cons_of_neg (by simpa using hc)] at hdotted
        obtain ⟨rest, hrest⟩ := dotted_iff.mp hdotted
        exact ⟨[.here], rest, List.mem_singleton_self _, hrest⟩
  · intro hopened
    obtain ⟨openings, rest, hmem, rfl⟩ := hopened
    induction openings with
    | nil => simp at hmem
    | cons first openings ih =>
      cases first with
      | here => exact List.prefix_append ['.', '/'] _
      | slash => exact ih (by simpa using hmem)

/-! ### From the beginning -/

theorem strip_opened (hdotted : ¬Dotted text) (hhead : text.head? ≠ some '/')
    (h : ¬Mixed openings) : strip (opened openings text) = text := by
  induction openings with
  | nil =>
    rw [opened, List.flatMap_nil, List.nil_append, strip, dropHere_of_not_dotted hdotted]
    exact Path.dropWhile_of_head? hhead
  | cons first openings ih =>
    cases first with
    | here => exact ih (mt mixed_here_iff.mpr h)
    | slash => exact dropWhile_opened hhead (mt mixed_slash_iff.mpr h)

/-- A `./` is left at the beginning exactly of a text that has mixed openings. -/
theorem dotted_strip_iff :
    Dotted (strip text) ↔ ∃ openings rest, Mixed openings ∧ text = opened openings rest := by
  constructor
  · unfold strip
    fun_induction dropHere text with
    | case1 text ih =>
      intro hdotted
      obtain ⟨openings, rest, hmixed, rfl⟩ := ih hdotted
      exact ⟨.here :: openings, rest, mixed_here_iff.mpr hmixed, rfl⟩
    | case2 text hnot =>
      intro hdotted
      cases text with
      | nil => simp [Dotted] at hdotted
      | cons c text =>
        by_cases hc : c = '/'
        · rw [List.dropWhile_cons_of_pos (by simpa using hc)] at hdotted
          obtain ⟨openings, rest, hmem, rfl⟩ := dotted_dropWhile_iff.mp hdotted
          exact ⟨.slash :: openings, rest, mixed_slash_iff.mpr hmem, by rw [hc]; rfl⟩
        · -- No slash was dropped, so the text itself would have had a `./` to drop.
          rw [List.dropWhile_cons_of_neg (by simpa using hc)] at hdotted
          obtain ⟨rest, hrest⟩ := hdotted
          exact absurd hrest.symm (hnot rest)
  · intro hopened
    obtain ⟨openings, rest, hmixed, rfl⟩ := hopened
    induction openings with
    | nil => simp [Mixed] at hmixed
    | cons first openings ih =>
      cases first with
      | here => exact ih (mixed_here_iff.mp hmixed)
      | slash =>
        rw [strip_slash]
        exact dotted_dropWhile_iff.mpr ⟨openings, rest, mixed_slash_iff.mp hmixed, rfl⟩

end AcceptSet

/-! ## Tidy paths -/

namespace Path

/-- Whether no component of a path is empty or a dot. -/
def Tidy (p : Path) : Prop :=
  ∀ name ∈ p.names, name ≠ [] ∧ name ≠ ['.']

instance (p : Path) : Decidable p.Tidy :=
  inferInstanceAs (Decidable (∀ name ∈ p.names, _ ∧ _))

variable {p : Path}

theorem Plain.tidy (h : p.Plain) : p.Tidy :=
  fun name hname => ⟨(h name hname).1, (h name hname).2.1⟩

theorem Tidy.head?_ne (h : p.Tidy) : p.text.head? ≠ some '/' :=
  head?_of_nil_not_mem fun hnil => (h [] hnil).1 rfl

theorem Tidy.not_dotted (h : p.Tidy) : ¬AcceptSet.Dotted p.text := by
  intro hdotted
  obtain ⟨rest, hrest⟩ := hdotted
  have hdot : ['.'] ∈ p.names := by
    rw [names, ← hrest]
    simp [Text.splitAt]
  exact (h ['.'] hdot).2 rfl

end Path

/-- Without backslashes in names, the scheduled targets are tidy. -/
theorem Apply.tidy_of_scheduled {fs : FileSystem} {layout : Layout} {targets : List Path}
    {r : Path} (hs : fs.Sound) (hb : fs.NoBackslash) (h : scheduled layout fs = .ok targets)
    (hr : r ∈ targets) : r.Tidy :=
  (plain_of_noBackslash hs hb h hr).1.tidy

/-! ## Arguments -/

namespace AcceptSet

variable {argument text : Text} {openings : List Opening} {r : Path}

/-- Whether an argument is a text in which some slashes have been written as backslashes. -/
def Writes (argument text : Text) : Prop :=
  List.Forall₂ (fun given meant => given = meant ∨ given = '\\' ∧ meant = '/') argument text

instance (argument text : Text) : Decidable (Writes argument text) :=
  inferInstanceAs (Decidable (List.Forall₂ _ _ _))

theorem Writes.ofText_eq (h : Writes argument text) (hb : '\\' ∉ text) :
    (Path.ofText argument).text = text := by
  induction h with
  | nil => rfl
  | @cons given meant argument text hchar _ ih =>
    obtain ⟨hmeant, htext⟩ := not_or.mp (mt List.mem_cons.mpr hb)
    refine congrArg₂ List.cons ?_ (ih htext)
    rcases hchar with rfl | ⟨rfl, rfl⟩
    · exact if_neg (Ne.symm hmeant)
    · rfl

/-- Whether an argument is a relative path with openings before it, some of its slashes written as
backslashes. -/
def Spells (argument : Text) (openings : List Opening) (r : Path) : Prop :=
  Writes argument (opened openings r.text)

instance (argument : Text) (openings : List Opening) (r : Path) :
    Decidable (Spells argument openings r) :=
  inferInstanceAs (Decidable (Writes _ _))

theorem canonical_of_spells (hr : r.Tidy) (h : Spells argument openings r) :
    (¬Mixed openings → canonical argument = r.text) ∧
      (Mixed openings → Dotted (canonical argument)) := by
  rw [canonical_eq, Writes.ofText_eq h (backslash_not_mem_opened r.no_backslash)]
  exact ⟨strip_opened hr.not_dotted hr.head?_ne,
    fun hmixed => dotted_strip_iff.mpr ⟨openings, r.text, hmixed, rfl⟩⟩

theorem canonical_canonical_iff :
    canonical (canonical argument) = canonical argument ↔ ¬Dotted (canonical argument) := by
  have hb : '\\' ∉ strip (Path.ofText argument).text := fun hmem =>
    (Path.ofText argument).no_backslash ((strip_suffix _).subset hmem)
  rw [canonical_eq argument, canonical_eq, Path.ofText_text hb, strip_strip_iff]

theorem contains_insert_iff :
    (insert argument empty).contains r = true ↔ canonical argument = r.text := by
  simp [insert, empty, contains, Text.addNew, eq_comm]

/-- **An argument accepts the target that it spells, and no other one**, and what an argument comes
down to comes down to itself.  The target is missed, and another step would lead further down,
exactly where a `./` comes behind a slash among the openings. -/
theorem contains_iff_not_mixed (argument : Text) :
    (∀ (r : Path) (openings : List Opening), r.Tidy → Spells argument openings r →
      ((insert argument empty).contains r = true ↔ ¬Mixed openings) ∧
        ∀ r' : Path, r'.Tidy → r' ≠ r → (insert argument empty).contains r' = false) ∧
    (canonical (canonical argument) = canonical argument ↔
      ¬∃ openings rest, Mixed openings ∧ (Path.ofText argument).text = opened openings rest) := by
  constructor
  · intro r openings hr h
    obtain ⟨hplain, hdotted⟩ := canonical_of_spells hr h
    simp only [contains_insert_iff, Bool.eq_false_iff, ne_eq]
    by_cases hmixed : Mixed openings
    · have hnone : ∀ r' : Path, r'.Tidy → canonical argument ≠ r'.text :=
        fun r' hr' heq => hr'.not_dotted (heq ▸ hdotted hmixed)
      exact ⟨iff_of_false (hnone r hr) (not_not_intro hmixed), fun r' hr' _ => hnone r' hr'⟩
    · have heq := hplain hmixed
      exact ⟨iff_of_true heq hmixed, fun r' _ hne heq' => hne (Path.ext_text (heq'.symm.trans heq))⟩
  · rw [canonical_canonical_iff, canonical_eq, dotted_strip_iff]

/-- An argument with two `./` and two slashes before the target, and with backslashes in three
places. -/
theorem contains_iff_not_mixed_backslashes :
    let r := Path.ofText "etc/app.conf".toList
    let argument := ".\\.//\\etc\\app.conf".toList
    let openings := [.here, .here, .slash, .slash]
    r.Tidy ∧ Spells argument openings r ∧ ¬Mixed openings ∧
      (insert argument empty).contains r = true ∧
      (Path.ofText "app.conf".toList).Tidy ∧
      (insert argument empty).contains (Path.ofText "app.conf".toList) = false := by
  intro r argument openings
  have hr : r.Tidy := by decide
  have hspells : Spells argument openings r := by decide
  have hother : (Path.ofText "app.conf".toList).Tidy := by decide
  obtain ⟨hiff, hothers⟩ := (contains_iff_not_mixed argument).1 r openings hr hspells
  exact ⟨hr, hspells, by decide, hiff.mpr (by decide), hother, hothers _ hother (by decide)⟩

/-- With a slash and then `./` before the name of a target, the argument comes down to another
spelling of it, which would come down to the target in its turn; so the target is not accepted. -/
theorem mixed_missed :
    (Path.ofText "a".toList).Tidy ∧
      Spells "/./a".toList [.slash, .here] (Path.ofText "a".toList) ∧
      (insert "/./a".toList empty).contains (Path.ofText "a".toList) = false ∧
      canonical "/./a".toList = "./a".toList ∧
      canonical (canonical "/./a".toList) = "a".toList := by
  decide

end AcceptSet

end LayeredConfig
