import LayeredConfig.Diff.Compare
import Mathlib.Tactic.SplitIfs

/-!
# Reading an edit script

A script is read on two sides: its kept and deleted runs give the old text, its kept and inserted
runs the new one.  What is found out about one side is nearly always true of the other, so the
lemmas are about a side.  Main statements:

* `read_searchWith` — whatever cuts are proposed, the script that is found reads as the two texts;
* `read_slideLeft`, `read_slideRight` — no slide changes what is read;
* `read_compact` — **nor does tidying as a whole**;
* `filled_searchWith`, `filled_compact` — no kept run is empty, before tidying and after it.
-/

namespace LayeredConfig.Diff

/-! ## The two sides -/

/-- One of the two texts that a script tells apart. -/
inductive Side where
  | old
  | new

/-- The one of two texts that is on a side. -/
def Side.pick : Side → (left right : Text) → Text
  | .old, left, _ => left
  | .new, _, right => right

@[simp] theorem Side.pick_append (side : Side) (old new old' new' : Text) :
    side.pick (old ++ old') (new ++ new') = side.pick old new ++ side.pick old' new' := by
  cases side <;> rfl

@[simp] theorem Side.pick_self (side : Side) (text : Text) : side.pick text text = text := by
  cases side <;> rfl

/-- What a run contributes to the text on a side. -/
def Edit.read (side : Side) (edit : Edit) : Text :=
  side.pick edit.old edit.new

@[simp] theorem Edit.read_keep (side : Side) (text : Text) :
    Edit.read side (.keep text) = text :=
  side.pick_self text

@[simp] theorem Edit.read_delete (side : Side) (text : Text) :
    Edit.read side (.delete text) = side.pick text [] := rfl

@[simp] theorem Edit.read_insert (side : Side) (text : Text) :
    Edit.read side (.insert text) = side.pick [] text := rfl

/-- The text of a script on a side. -/
def Script.read (side : Side) (script : Script) : Text :=
  script.flatMap (Edit.read side)

namespace Script

@[simp] theorem read_nil (side : Side) : read side [] = [] := rfl

@[simp] theorem read_cons (side : Side) (edit : Edit) (script : Script) :
    read side (edit :: script) = edit.read side ++ read side script := rfl

@[simp] theorem read_append (side : Side) (script script' : Script) :
    read side (script ++ script') = read side script ++ read side script' :=
  List.flatMap_append

theorem read_old (script : Script) : read .old script = script.oldText := rfl

theorem read_new (script : Script) : read .new script = script.newText := rfl

end Script

/-! ## Common beginnings and ends -/

theorem splitStart_spec (old new : Text) :
    old = (splitStart old new).1 ++ (splitStart old new).2.1 ∧
      new = (splitStart old new).1 ++ (splitStart old new).2.2 := by
  induction old, new using splitStart.induct with
  | case1 old b new common restOld restNew hsplit ih =>
    rw [hsplit] at ih
    simp only [splitStart, hsplit, if_true, List.cons_append, ← ih.1, ← ih.2, and_self]
  | case2 a old b new hab => simp [splitStart, hab]
  | case3 old new hnot =>
    rw [splitStart]
    · exact ⟨rfl, rfl⟩
    · exact hnot

theorem splitEnd_spec (old new : Text) :
    old = (splitEnd old new).2.1 ++ (splitEnd old new).1 ∧
      new = (splitEnd old new).2.2 ++ (splitEnd old new).1 := by
  have hsplit := splitStart_spec old.reverse new.reverse
  constructor
  · simpa [splitEnd] using congrArg List.reverse hsplit.1
  · simpa [splitEnd] using congrArg List.reverse hsplit.2

/-! ## Finding a script -/

/-- What is found between the common ends of two texts. -/
def searchBetween (fuel : Nat) (old new : Text) : Script :=
  if old = [] ∧ new = [] then []
  else if new = [] then [.delete old]
  else if old = [] then [.insert new]
  else
    match middle? old new with
    | some (x, y) =>
      searchWith fuel (old.take x) (new.take y) ++ searchWith fuel (old.drop x) (new.drop y)
    | none => [.delete old, .insert new]

theorem searchWith_succ (fuel : Nat) (old new : Text) :
    searchWith (fuel + 1) old new =
      let start := splitStart old new
      let stop := splitEnd start.2.1 start.2.2
      keepRun start.1 ++ searchBetween fuel stop.2.1 stop.2.2 ++ keepRun stop.1 := rfl

@[simp] theorem read_keepRun (side : Side) (text : Text) :
    Script.read side (keepRun text) = text := by
  unfold keepRun
  split_ifs with hempty
  · rw [hempty, Script.read_nil]
  · simp

theorem read_searchBetween (side : Side) {fuel : Nat} (old new : Text)
    (ih : ∀ old new, Script.read side (searchWith fuel old new) = side.pick old new) :
    Script.read side (searchBetween fuel old new) = side.pick old new := by
  unfold searchBetween
  split_ifs with hboth hnone hnone
  · simp [hboth]
  · simp [hnone]
  · simp [hnone]
  · split
    · rw [Script.read_append, ih, ih, ← Side.pick_append, List.take_append_drop,
        List.take_append_drop]
    · simp [← Side.pick_append]

/-- Whatever the fuel and the proposed cuts are, the script reads as the two texts. -/
theorem read_searchWith (side : Side) (fuel : Nat) (old new : Text) :
    Script.read side (searchWith fuel old new) = side.pick old new := by
  induction fuel generalizing old new with
  | zero => simp [searchWith, ← Side.pick_append]
  | succ fuel ih =>
    obtain ⟨hold, hnew⟩ := splitStart_spec old new
    obtain ⟨hold', hnew'⟩ :=
      splitEnd_spec (splitStart old new).2.1 (splitStart old new).2.2
    rw [searchWith_succ]
    simp only [Script.read_append, read_keepRun, read_searchBetween side _ _ ih]
    calc
      _ = side.pick
            ((splitStart old new).1 ++ ((splitEnd (splitStart old new).2.1
              (splitStart old new).2.2).2.1 ++ (splitEnd (splitStart old new).2.1
              (splitStart old new).2.2).1))
            ((splitStart old new).1 ++ ((splitEnd (splitStart old new).2.1
              (splitStart old new).2.2).2.2 ++ (splitEnd (splitStart old new).2.1
              (splitStart old new).2.2).1)) := by simp
      _ = side.pick old new := by rw [← hold', ← hnew', ← hold, ← hnew]

/-- Whether no kept run is empty. -/
def Filled (edits : List Edit) : Prop :=
  ∀ edit ∈ edits, edit ≠ .keep []

@[simp] theorem filled_nil : Filled [] := by simp [Filled]

@[simp] theorem filled_cons {edit : Edit} {edits : List Edit} :
    Filled (edit :: edits) ↔ edit ≠ .keep [] ∧ Filled edits :=
  List.forall_mem_cons

@[simp] theorem filled_append {edits edits' : List Edit} :
    Filled (edits ++ edits') ↔ Filled edits ∧ Filled edits' :=
  List.forall_mem_append

@[simp] theorem filled_reverse {edits : List Edit} : Filled edits.reverse ↔ Filled edits := by
  simp [Filled]

theorem filled_keepRun (text : Text) : Filled (keepRun text) := by
  unfold keepRun
  split_ifs with hempty
  · simp
  · simp [hempty]

theorem filled_searchWith (fuel : Nat) (old new : Text) : Filled (searchWith fuel old new) := by
  induction fuel generalizing old new with
  | zero => simp [searchWith]
  | succ fuel ih =>
    have hbetween : ∀ old new, Filled (searchBetween fuel old new) := by
      intro old new
      unfold searchBetween
      split_ifs
      · simp
      · simp
      · simp
      · split
        · exact filled_append.mpr ⟨ih _ _, ih _ _⟩
        · simp
    rw [searchWith_succ]
    exact filled_append.mpr
      ⟨filled_append.mpr ⟨filled_keepRun _, hbetween _ _⟩, filled_keepRun _⟩

/-! ## Runs that meet -/

@[simp] theorem read_consKeep (side : Side) (text : Text) (edits : List Edit) :
    Script.read side (consKeep text edits) = text ++ Script.read side edits := by
  unfold consKeep
  split <;> simp

@[simp] theorem read_reverse_snocKeep (side : Side) (text : Text) (edits : List Edit) :
    Script.read side (snocKeep text edits).reverse = Script.read side edits.reverse ++ text := by
  unfold snocKeep
  split <;> simp

@[simp] theorem read_consRest (side : Side) (text : Text) (edits : List Edit) :
    Script.read side (consRest text edits) = text ++ Script.read side edits := by
  unfold consRest
  split_ifs with hempty
  · simp [hempty]
  · simp

@[simp] theorem read_reverse_consRest (side : Side) (text : Text) (edits : List Edit) :
    Script.read side (consRest text edits).reverse = Script.read side edits.reverse ++ text := by
  unfold consRest
  split_ifs with hempty
  · simp [hempty]
  · simp

theorem filled_consKeep {text : Text} {edits : List Edit} (htext : text ≠ [])
    (h : Filled edits) : Filled (consKeep text edits) := by
  unfold consKeep
  split <;> simp_all

theorem filled_snocKeep {text : Text} {edits : List Edit} (htext : text ≠ [])
    (h : Filled edits) : Filled (snocKeep text edits) := by
  unfold snocKeep
  split <;> simp_all

theorem filled_consRest {text : Text} {edits : List Edit} (h : Filled edits) :
    Filled (consRest text edits) := by
  unfold consRest
  split_ifs with hempty
  · exact h
  · simpa [hempty] using h

/-! ## Slides -/

@[simp] theorem read_script (side : Side) (cursor : Cursor) :
    Script.read side cursor.script =
      Script.read side cursor.before.reverse ++
        (cursor.focus.read side ++ Script.read side cursor.after) := by
  simp [Cursor.script]

/-- One slide of an insertion over the end of the kept run before it. -/
theorem read_slide_back (side : Side) (kept text : Text) (before after : List Edit) :
    Script.read side (Cursor.script ⟨consRest (splitEnd kept text).2.1 before,
        .insert ((splitEnd kept text).1 ++ (splitEnd kept text).2.2),
        consKeep (splitEnd kept text).1 after⟩) =
      Script.read side (Cursor.script ⟨.keep kept :: before, .insert text, after⟩) := by
  obtain ⟨hkept, htext⟩ := splitEnd_spec kept text
  generalize splitEnd kept text = parts at hkept htext ⊢
  rw [hkept, htext]
  cases side <;> simp [Side.pick]

/-- One slide of an insertion over the beginning of the kept run after it. -/
theorem read_slide_forth (side : Side) (kept text : Text) (before after : List Edit) :
    Script.read side (Cursor.script ⟨snocKeep (splitStart kept text).1 before,
        .insert ((splitStart kept text).2.2 ++ (splitStart kept text).1),
        consRest (splitStart kept text).2.1 after⟩) =
      Script.read side (Cursor.script ⟨before, .insert text, .keep kept :: after⟩) := by
  obtain ⟨hkept, htext⟩ := splitStart_spec kept text
  generalize splitStart kept text = parts at hkept htext ⊢
  rw [hkept, htext]
  cases side <;> simp [Side.pick]

/-- No slide to the left changes what is read. -/
theorem read_slideLeft (side : Side) (cursor : Cursor) :
    Script.read side cursor.slideLeft.script = Script.read side cursor.script := by
  induction cursor using Cursor.slideLeft.induct with
  | case1 kept before text after common hcommon ih =>
    rw [Cursor.slideLeft, dif_pos hcommon, ih, read_slide_back]
  | case2 kept before text after common hcommon => rw [Cursor.slideLeft, dif_neg hcommon]
  | case3 earlier before text after ih =>
    rw [Cursor.slideLeft, ih]
    cases side <;> simp [Side.pick]
  | case4 earlier before text after ih =>
    rw [Cursor.slideLeft, ih]
    cases side <;> simp [Side.pick]
  | case5 other before text after ih =>
    rw [Cursor.slideLeft, ih]
    cases side <;> simp [Side.pick]
  | case6 other before text after ih =>
    rw [Cursor.slideLeft, ih]
    cases side <;> simp [Side.pick]
  | case7 cursor => rw [Cursor.slideLeft] <;> assumption

/-- No slide to the right changes what is read. -/
theorem read_slideRight (side : Side) (cursor : Cursor) :
    Script.read side cursor.slideRight.script = Script.read side cursor.script := by
  induction cursor using Cursor.slideRight.induct with
  | case1 before text kept after common hcommon ih =>
    rw [Cursor.slideRight, dif_pos hcommon, ih, read_slide_forth]
  | case2 before text kept after common hcommon => rw [Cursor.slideRight, dif_neg hcommon]
  | case3 before text later after ih =>
    rw [Cursor.slideRight, ih]
    cases side <;> simp [Side.pick]
  | case4 before text later after ih =>
    rw [Cursor.slideRight, ih]
    cases side <;> simp [Side.pick]
  | case5 before text other after ih =>
    rw [Cursor.slideRight, ih]
    cases side <;> simp [Side.pick]
  | case6 before text other after ih =>
    rw [Cursor.slideRight, ih]
    cases side <;> simp [Side.pick]
  | case7 cursor => rw [Cursor.slideRight] <;> assumption

theorem filled_script {cursor : Cursor} :
    Filled cursor.script ↔
      Filled cursor.before ∧ cursor.focus ≠ .keep [] ∧ Filled cursor.after := by
  simp [Cursor.script]

/-- No slide to the left leaves an empty kept run. -/
theorem filled_slideLeft {cursor : Cursor} (h : Filled cursor.script) :
    Filled cursor.slideLeft.script := by
  induction cursor using Cursor.slideLeft.induct with
  | case1 kept before text after common hcommon ih =>
    rw [Cursor.slideLeft, dif_pos hcommon]
    obtain ⟨hbefore, -, hafter⟩ := filled_script.mp h
    exact ih (filled_script.mpr
      ⟨filled_consRest (filled_cons.mp hbefore).2, by simp, filled_consKeep hcommon hafter⟩)
  | case2 kept before text after common hcommon => rwa [Cursor.slideLeft, dif_neg hcommon]
  | case3 earlier before text after ih =>
    rw [Cursor.slideLeft]
    exact ih (by simpa [filled_script] using h)
  | case4 earlier before text after ih =>
    rw [Cursor.slideLeft]
    exact ih (by simpa [filled_script] using h)
  | case5 other before text after ih =>
    rw [Cursor.slideLeft]
    exact ih (by simpa [filled_script] using h)
  | case6 other before text after ih =>
    rw [Cursor.slideLeft]
    exact ih (by simpa [filled_script] using h)
  | case7 cursor => rwa [Cursor.slideLeft] <;> assumption

/-- No slide to the right leaves an empty kept run. -/
theorem filled_slideRight {cursor : Cursor} (h : Filled cursor.script) :
    Filled cursor.slideRight.script := by
  induction cursor using Cursor.slideRight.induct with
  | case1 before text kept after common hcommon ih =>
    rw [Cursor.slideRight, dif_pos hcommon]
    obtain ⟨hbefore, -, hafter⟩ := filled_script.mp h
    exact ih (filled_script.mpr
      ⟨filled_snocKeep hcommon hbefore, by simp, filled_consRest (filled_cons.mp hafter).2⟩)
  | case2 before text kept after common hcommon => rwa [Cursor.slideRight, dif_neg hcommon]
  | case3 before text later after ih =>
    rw [Cursor.slideRight]
    exact ih (by simpa [filled_script] using h)
  | case4 before text later after ih =>
    rw [Cursor.slideRight]
    exact ih (by simpa [filled_script] using h)
  | case5 before text other after ih =>
    rw [Cursor.slideRight]
    exact ih (by simpa [filled_script] using h)
  | case6 before text other after ih =>
    rw [Cursor.slideRight]
    exact ih (by simpa [filled_script] using h)
  | case7 cursor => rwa [Cursor.slideRight] <;> assumption

/-! ## Tidying -/

theorem read_slideEach (side : Side) (chosen : Edit → Bool) (fuel : Nat) (passed : List Edit)
    (script : Script) :
    Script.read side (slideEach chosen fuel passed script) =
      Script.read side (passed.reverse ++ script) := by
  induction fuel, passed, script using slideEach.induct chosen with
  | case1 passed script => rw [slideEach]
  | case2 fuel passed hfuel =>
    rw [slideEach, List.append_nil]
    exact hfuel
  | case3 fuel passed edit rest hchosen cursor ih =>
    rw [slideEach, if_pos hchosen, ih]
    have hslid := (read_slideRight side _).trans (read_slideLeft side ⟨passed, edit, rest⟩)
    simpa [Cursor.script, cursor] using hslid
  | case4 fuel passed edit rest hchosen ih =>
    rw [slideEach, if_neg hchosen, ih]
    simp

theorem filled_slideEach {chosen : Edit → Bool} {fuel : Nat} {passed : List Edit} {script : Script}
    (h : Filled (passed.reverse ++ script)) : Filled (slideEach chosen fuel passed script) := by
  induction fuel, passed, script using slideEach.induct chosen with
  | case1 passed script => rwa [slideEach]
  | case2 fuel passed hfuel =>
    rw [slideEach]
    · simpa using h
    · exact hfuel
  | case3 fuel passed edit rest hchosen cursor ih =>
    rw [slideEach, if_pos hchosen]
    apply ih
    have hslid : Filled cursor.script := filled_slideRight (filled_slideLeft h)
    simpa [Cursor.script] using hslid
  | case4 fuel passed edit rest hchosen ih =>
    rw [slideEach, if_neg hchosen]
    exact ih (by simpa using h)

/-- Tidying changes neither of the two texts. -/
theorem read_compact (side : Side) (script : Script) :
    Script.read side script.compact = Script.read side script := by
  rw [Script.compact, read_slideEach, List.reverse_nil, List.nil_append, read_slideEach,
    List.reverse_nil, List.nil_append]

theorem filled_compact {script : Script} (h : Filled script) : Filled script.compact :=
  filled_slideEach (filled_slideEach h)

end LayeredConfig.Diff
