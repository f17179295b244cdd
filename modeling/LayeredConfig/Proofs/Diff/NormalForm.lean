import LayeredConfig.Diff.Compare
import LayeredConfig.Proofs.Diff.Readings
import Mathlib.Data.List.Chain

/-!
# The normal form of an edit script

In a normal script no run is empty and no two neighbours are of one kind.  The difference of two
texts is normal and reads as the two texts.  Main statements:

* `normal_gather` — collecting changes between kept runs makes a script normal;
* `joinRuns_letters` — a normal script is what joining its single characters gives back, so it
  is no matter whether changes are listed by runs or by characters;
* `unchanged_compare_iff` — nothing is deleted or inserted exactly if the texts are the same;
* `texts_of_compare` — **the difference of two texts is a normal script from one to the other**.
-/

namespace LayeredConfig.Diff

/-- The kinds of runs. -/
inductive Tag where
  | keep
  | delete
  | insert
  deriving DecidableEq

/-- The kind of a run. -/
def Edit.tag : Edit → Tag
  | keep _ => .keep
  | delete _ => .delete
  | insert _ => .insert

/-- A run of a kind. -/
def Tag.run : Tag → Text → Edit
  | keep => .keep
  | delete => .delete
  | insert => .insert

@[simp] theorem Tag.run_tag (edit : Edit) : edit.tag.run edit.text = edit := by
  cases edit <;> rfl

@[simp] theorem Tag.tag_run (tag : Tag) (text : Text) : (tag.run text).tag = tag := by
  cases tag <;> rfl

@[simp] theorem Tag.text_run (tag : Tag) (text : Text) : (tag.run text).text = text := by
  cases tag <;> rfl

/-- Whether no run of a script is empty and no two neighbours are of one kind. -/
structure Normal (script : Script) : Prop where
  text_ne_nil : ∀ edit ∈ script, edit.text ≠ []
  alternating : script.IsChain fun a b => a.tag ≠ b.tag

/-! ## Collected changes -/

theorem normal_nil : Normal [] := ⟨by simp, List.IsChain.nil⟩

theorem Normal.tail {edit : Edit} {script : Script} (h : Normal (edit :: script)) :
    Normal script :=
  ⟨fun e he => h.text_ne_nil e (List.mem_cons_of_mem _ he), h.alternating.tail⟩

/-- A run in front of a normal script that begins with another kind. -/
theorem Normal.cons {edit : Edit} {script : Script} (h : Normal script) (hedit : edit.text ≠ [])
    (hhead : ∀ next ∈ script.head?, edit.tag ≠ next.tag) : Normal (edit :: script) :=
  ⟨List.forall_mem_cons.mpr ⟨hedit, h.text_ne_nil⟩, h.alternating.cons hhead⟩

theorem head?_consKeep (text : Text) (script : Script) :
    ∀ edit ∈ (consKeep text script).head?, edit.tag = .keep := by
  unfold consKeep
  split <;> simp [Edit.tag]

theorem normal_consKeep {text : Text} {script : Script} (h : Normal script) (htext : text ≠ []) :
    Normal (consKeep text script) := by
  cases script with
  | nil => exact normal_nil.cons htext (by simp)
  | cons edit rest =>
    cases edit with
    | keep next =>
      have hhead : ∀ e ∈ rest.head?, Tag.keep ≠ e.tag := h.alternating.rel_head?
      exact h.tail.cons (List.append_ne_nil_of_left_ne_nil htext next) hhead
    | delete deleted => exact h.cons htext (by simp [Edit.tag])
    | insert inserted => exact h.cons htext (by simp [Edit.tag])

/-- Changes in front of a normal script that begins with a kept run, if with anything. -/
theorem normal_changes_append {deleted inserted : Text} {script : Script} (h : Normal script)
    (hhead : ∀ edit ∈ script.head?, edit.tag = .keep) :
    Normal (changes deleted inserted ++ script) := by
  have hinsert : ∀ edit : Edit, edit.text ≠ [] → edit.tag ≠ .keep → Normal (edit :: script) :=
    fun edit htext htag => h.cons htext fun next hnext => by rwa [hhead next hnext]
  unfold changes
  split_ifs with hdeleted hinserted hinserted
  · exact h
  · exact hinsert (.insert inserted) hinserted (by simp [Edit.tag])
  · exact hinsert (.delete deleted) hdeleted (by simp [Edit.tag])
  · exact (hinsert (.insert inserted) hinserted (by simp [Edit.tag])).cons hdeleted
      (by simp [Edit.tag])

theorem normal_gather {deleted inserted : Text} {script : Script} (h : Filled script) :
    Normal (gather deleted inserted script) := by
  induction deleted, inserted, script using gather.induct with
  | case1 deleted inserted =>
    rw [gather, ← List.append_nil (changes deleted inserted)]
    exact normal_changes_append normal_nil (by simp)
  | case2 deleted inserted text rest ih =>
    rw [gather]
    exact ih (filled_cons.mp h).2
  | case3 deleted inserted text rest ih =>
    rw [gather]
    exact ih (filled_cons.mp h).2
  | case4 deleted inserted text rest ih =>
    obtain ⟨htext, hrest⟩ := filled_cons.mp h
    rw [gather]
    exact normal_changes_append (normal_consKeep (ih hrest) (by simpa using htext))
      (head?_consKeep text _)

theorem read_changes (side : Side) (deleted inserted : Text) :
    Script.read side (changes deleted inserted) = side.pick deleted inserted := by
  unfold changes
  split_ifs with hdeleted hinserted hinserted
  · simp [hdeleted, hinserted]
  · simp [hdeleted]
  · simp [hinserted]
  · simp [← Side.pick_append]

theorem read_gather (side : Side) (deleted inserted : Text) (script : Script) :
    Script.read side (gather deleted inserted script) =
      side.pick deleted inserted ++ Script.read side script := by
  induction deleted, inserted, script using gather.induct with
  | case1 deleted inserted => rw [gather, read_changes, Script.read_nil, List.append_nil]
  | case2 deleted inserted text rest ih =>
    rw [gather, ih]
    cases side <;> simp [Side.pick]
  | case3 deleted inserted text rest ih =>
    rw [gather, ih]
    cases side <;> simp [Side.pick]
  | case4 deleted inserted text rest ih =>
    rw [gather, Script.read_append, read_changes, read_consKeep, ih]
    simp

/-! ## One character at a time -/

/-- The characters of a script, each as a run of its own. -/
def letters (script : Script) : Script :=
  script.flatMap fun edit => edit.text.map fun c => edit.tag.run [c]

/-- A run behind the runs collected so far, nearest first, joined with the last of them if that is
of the same kind. -/
def collect : (collected : List Edit) → Edit → List Edit
  | last :: before, edit =>
    if last.tag = edit.tag then edit.tag.run (last.text ++ edit.text) :: before
    else edit :: last :: before
  | [], edit => [edit]

/-- Runs in order, with neighbours of one kind joined. -/
def joinRuns (script : Script) : Script :=
  (script.foldl collect []).reverse

/-- The characters of a run that goes on are joined with it. -/
theorem foldl_collect_run (tag : Tag) (first text : Text) (before : List Edit) :
    (text.map fun c => tag.run [c]).foldl collect (tag.run first :: before) =
      tag.run (first ++ text) :: before := by
  induction text generalizing first with
  | nil => simp
  | cons c text ih =>
    rw [List.map_cons, List.foldl_cons, collect, Tag.tag_run, Tag.tag_run, if_pos rfl,
      Tag.text_run, Tag.text_run, ih, List.append_assoc, List.singleton_append]

theorem foldl_collect_letters {script : Script} (h : Normal script) (collected : List Edit)
    (hmeet : ∀ last ∈ collected.head?, ∀ next ∈ script.head?, last.tag ≠ next.tag) :
    (letters script).foldl collect collected = script.reverse ++ collected := by
  induction script generalizing collected with
  | nil => rfl
  | cons edit script ih =>
    obtain ⟨c, text, htext⟩ := List.exists_cons_of_ne_nil (h.text_ne_nil edit List.mem_cons_self)
    -- The first character of the run is not joined with what was collected before it.
    have hfirst : collect collected (edit.tag.run [c]) = edit.tag.run [c] :: collected := by
      cases collected with
      | nil => rfl
      | cons last before =>
        have hne : last.tag ≠ edit.tag := hmeet last rfl edit rfl
        rw [collect, Tag.tag_run, if_neg hne]
    have hrun : (edit.text.map fun c => edit.tag.run [c]).foldl collect collected =
        edit :: collected := by
      rw [htext, List.map_cons, List.foldl_cons, hfirst, foldl_collect_run, List.singleton_append,
        ← htext, Tag.run_tag]
    rw [letters, List.flatMap_cons, List.foldl_append, hrun, ← letters, ih h.tail]
    · simp
    · intro last hlast next hnext
      obtain rfl : edit = last := by simpa using hlast
      exact h.alternating.rel_head? hnext

/-- **Joining single characters gives a normal script back.** -/
theorem joinRuns_letters {script : Script} (h : Normal script) :
    joinRuns (letters script) = script := by
  rw [joinRuns, foldl_collect_letters h [] (by simp), List.append_nil, List.reverse_reverse]

/-! ## Texts that are the same -/

theorem splitStart_self (text : Text) : splitStart text text = (text, [], []) := by
  induction text with
  | nil => rfl
  | cons c text ih => simp [splitStart, ih]

/-- Between a text and itself nothing but a kept run is found. -/
theorem search_self (text : Text) : search text text = keepRun text := by
  have hstop : splitEnd [] [] = ([], [], []) := rfl
  have hbetween : searchBetween (text.length + text.length) [] [] = [] := rfl
  have hlast : keepRun [] = [] := rfl
  rw [search, searchWith_succ, splitStart_self]
  simp only [hstop, hbetween, hlast, List.append_nil]

/-- Runs that are not chosen stay where they are. -/
theorem slideEach_of_not_chosen {chosen : Edit → Bool} {script : Script}
    (h : ∀ edit ∈ script, chosen edit = false) (fuel : Nat) (passed : List Edit) :
    slideEach chosen fuel passed script = passed.reverse ++ script := by
  induction fuel, passed, script using slideEach.induct chosen with
  | case1 passed script => rw [slideEach]
  | case2 fuel passed hfuel =>
    rw [slideEach, List.append_nil]
    exact hfuel
  | case3 fuel passed edit rest hchosen => simp [h edit List.mem_cons_self] at hchosen
  | case4 fuel passed edit rest hchosen ih =>
    rw [slideEach, if_neg hchosen, ih fun e he => h e (List.mem_cons_of_mem _ he)]
    simp

theorem compare_self (text : Text) : compare text text = keepRun text := by
  have hkeep : ∀ edit ∈ keepRun text, edit.isDelete = false ∧ edit.isInsert = false := by
    unfold keepRun
    split_ifs <;> simp [Edit.isDelete, Edit.isInsert]
  rw [compare, search_self, Script.compact,
    slideEach_of_not_chosen fun e he => (hkeep e he).1, List.reverse_nil, List.nil_append,
    slideEach_of_not_chosen fun e he => (hkeep e he).2, List.reverse_nil, List.nil_append]
  unfold keepRun
  split_ifs <;> rfl

/-- Where nothing is deleted or inserted, both sides read the same. -/
theorem read_of_unchanged {script : Script} (h : script.unchanged = true) (side side' : Side) :
    Script.read side script = Script.read side' script := by
  induction script with
  | nil => rfl
  | cons edit script ih =>
    obtain ⟨hkeep, hrest⟩ := Bool.and_eq_true_iff.mp h
    cases edit with
    | keep text => rw [Script.read_cons, Script.read_cons, ih hrest, Edit.read_keep, Edit.read_keep]
    | delete text => simp [Edit.isKeep] at hkeep
    | insert text => simp [Edit.isKeep] at hkeep

/-! ## The difference of two texts -/

theorem read_compare (side : Side) (old new : Text) :
    Script.read side (compare old new) = side.pick old new := by
  rw [compare, read_gather, Side.pick_self, List.nil_append, read_compact, search,
    read_searchWith]

theorem normal_compare (old new : Text) : Normal (compare old new) :=
  normal_gather (filled_compact (filled_searchWith _ old new))

theorem unchanged_compare_iff {old new : Text} :
    (compare old new).unchanged = true ↔ old = new := by
  constructor
  · intro h
    have hsame := read_of_unchanged h .old .new
    rwa [read_compare, read_compare] at hsame
  · intro heq
    rw [heq, compare_self]
    unfold keepRun
    split_ifs <;> rfl

/-- **The difference of two texts leads from one to the other and is in normal form.**  Its kept
and deleted runs are the old text, its kept and inserted runs the new one, no run is empty, no two
neighbours are of one kind, it is what joining its single characters gives, and only texts that are
the same have nothing deleted or inserted between them. -/
theorem texts_of_compare (old new : Text) :
    (compare old new).oldText = old ∧ (compare old new).newText = new ∧
      (∀ edit ∈ compare old new, edit.text ≠ []) ∧
      (∀ before first second after, compare old new = before ++ first :: second :: after →
        first.tag ≠ second.tag) ∧
      joinRuns (letters (compare old new)) = compare old new ∧
      ((compare old new).unchanged = true ↔ old = new) := by
  have hnormal := normal_compare old new
  refine ⟨?_, ?_, hnormal.text_ne_nil, ?_, joinRuns_letters hnormal, unchanged_compare_iff⟩
  · rw [← Script.read_old, read_compare]
    rfl
  · rw [← Script.read_new, read_compare]
    rfl
  · intro before first second after hsplit
    have halternating := hnormal.alternating
    rw [hsplit, List.isChain_append_cons_cons] at halternating
    exact halternating.2.1

end LayeredConfig.Diff
