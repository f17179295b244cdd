import LayeredConfig.Diff.Search

/-!
# Comparing two texts

The difference of two texts is an edit script of theirs in which changes that belong together have
been brought together, and in which the runs are in normal order.
-/

namespace LayeredConfig.Diff

/-!
## Tidying a script

A shortest script is not unique: an insertion that ends like the kept run before it can slide to
the left, one that begins like the kept run after it can slide to the right, and neighbouring
deletions and insertions can change places or be joined. First every deletion and then every
insertion is slid to the left as far as it goes and then to the right as far as it goes, so that
changes that belong together meet. A slide changes neither of the two texts of the script.
-/

/-- A place in a script: the runs before it, nearest first, the run itself, and the runs
after it. -/
structure Cursor where
  before : List Edit
  focus : Edit
  after : List Edit

/-- The whole script around a place. -/
def Cursor.script (cursor : Cursor) : Script :=
  cursor.before.reverse ++ cursor.focus :: cursor.after

/-- The number of runs and of characters in a list of runs. -/
def weight : List Edit → Nat
  | [] => 0
  | edit :: rest => edit.text.length + 1 + weight rest

/-- A kept run in front of a list of runs, joined with a kept run that it meets. -/
def consKeep (text : Text) : List Edit → List Edit
  | .keep next :: rest => .keep (text ++ next) :: rest
  | rest => .keep text :: rest

/-- A kept run behind a reversed list of runs, joined with a kept run that it meets. -/
def snocKeep (text : Text) : List Edit → List Edit
  | .keep last :: rest => .keep (last ++ text) :: rest
  | rest => .keep text :: rest

/-- A kept run in front of a list of runs, unless it is empty. -/
def consRest (text : Text) (rest : List Edit) : List Edit :=
  if text = [] then rest else .keep text :: rest

theorem weight_consRest_lt {common rest : Text} {edits : List Edit} {whole : Text}
    (h : common.length + rest.length = whole.length) (hc : common ≠ []) :
    weight (consRest rest edits) < weight (.keep whole :: edits) := by
  have : 0 < common.length := List.length_pos_iff.2 hc
  unfold consRest
  split
  · simp only [weight, Edit.text]; omega
  · simp only [weight, Edit.text]; omega

theorem splitStart_lengths (old new : Text) :
    (splitStart old new).1.length + (splitStart old new).2.1.length = old.length := by
  induction old generalizing new with
  | nil => simp [splitStart]
  | cons a old ih =>
    cases new with
    | nil => simp [splitStart]
    | cons b new =>
      have := ih new
      rcases h : splitStart old new with ⟨common, restOld, restNew⟩
      by_cases hab : a = b <;> simp_all [splitStart]
      omega

theorem splitEnd_lengths (old new : Text) :
    (splitEnd old new).1.length + (splitEnd old new).2.1.length = old.length := by
  have h := splitStart_lengths old.reverse new.reverse
  simpa [splitEnd] using h

/-- Slides the run at a place to the left as far as it goes. -/
def Cursor.slideLeft (cursor : Cursor) : Cursor :=
  match cursor with
  | ⟨.keep kept :: before, .insert text, after⟩ =>
    let common := (splitEnd kept text).1
    if _h : common ≠ [] then
      Cursor.slideLeft
        ⟨consRest (splitEnd kept text).2.1 before,
          .insert (common ++ (splitEnd kept text).2.2), consKeep common after⟩
    else cursor
  | ⟨.insert earlier :: before, .insert text, after⟩ =>
    Cursor.slideLeft ⟨before, .insert (earlier ++ text), after⟩
  | ⟨.delete earlier :: before, .delete text, after⟩ =>
    Cursor.slideLeft ⟨before, .delete (earlier ++ text), after⟩
  | ⟨.delete other :: before, .insert text, after⟩ =>
    Cursor.slideLeft ⟨before, .insert text, .delete other :: after⟩
  | ⟨.insert other :: before, .delete text, after⟩ =>
    Cursor.slideLeft ⟨before, .delete text, .insert other :: after⟩
  | _ => cursor
termination_by weight cursor.before
decreasing_by
  · exact weight_consRest_lt (splitEnd_lengths kept text) _h
  all_goals simp only [weight]; omega

/-- Slides the run at a place to the right as far as it goes. -/
def Cursor.slideRight (cursor : Cursor) : Cursor :=
  match cursor with
  | ⟨before, .insert text, .keep kept :: after⟩ =>
    let common := (splitStart kept text).1
    if _h : common ≠ [] then
      Cursor.slideRight
        ⟨snocKeep common before, .insert ((splitStart kept text).2.2 ++ common),
          consRest (splitStart kept text).2.1 after⟩
    else cursor
  | ⟨before, .insert text, .insert later :: after⟩ =>
    Cursor.slideRight ⟨before, .insert (text ++ later), after⟩
  | ⟨before, .delete text, .delete later :: after⟩ =>
    Cursor.slideRight ⟨before, .delete (text ++ later), after⟩
  | ⟨before, .insert text, .delete other :: after⟩ =>
    Cursor.slideRight ⟨.delete other :: before, .insert text, after⟩
  | ⟨before, .delete text, .insert other :: after⟩ =>
    Cursor.slideRight ⟨.insert other :: before, .delete text, after⟩
  | _ => cursor
termination_by weight cursor.after
decreasing_by
  · exact weight_consRest_lt (splitStart_lengths kept text) _h
  all_goals simp only [weight]; omega

/-- Slides the chosen runs of a script, one after the other from the left. The first argument
bounds the number of runs that are looked at, the second one holds the runs already passed. -/
def slideEach (chosen : Edit → Bool) : (fuel : Nat) → (passed : List Edit) → Script → Script
  | 0, passed, script => passed.reverse ++ script
  | _, passed, [] => passed.reverse
  | fuel + 1, passed, edit :: rest =>
    if chosen edit then
      let cursor := (Cursor.slideLeft ⟨passed, edit, rest⟩).slideRight
      slideEach chosen fuel (cursor.focus :: cursor.before) cursor.after
    else slideEach chosen fuel (edit :: passed) rest

/-- Whether a run is a deletion. -/
def Edit.isDelete : Edit → Bool
  | .delete _ => true
  | _ => false

/-- Whether a run is an insertion. -/
def Edit.isInsert : Edit → Bool
  | .insert _ => true
  | _ => false

/-- The script with its deletions and then its insertions slid together. -/
def Script.compact (script : Script) : Script :=
  let deletionsSlid := slideEach Edit.isDelete (2 * weight script + 1) [] script
  slideEach Edit.isInsert (2 * weight deletionsSlid + 1) [] deletionsSlid

/-!
## Normal order

The difference of two texts as it is reported: between two kept runs there is at most one
deletion and after it at most one insertion, and no two kept runs are neighbours.
-/

/-- A deletion and an insertion, without those that are empty. -/
def changes (deleted inserted : Text) : Script :=
  (if deleted = [] then [] else [.delete deleted]) ++
    (if inserted = [] then [] else [.insert inserted])

/-- The runs of a script in normal order, after a deletion and an insertion that have been
collected since the last kept run. -/
def gather : (deleted inserted : Text) → Script → Script
  | deleted, inserted, [] => changes deleted inserted
  | deleted, inserted, .delete text :: rest => gather (deleted ++ text) inserted rest
  | deleted, inserted, .insert text :: rest => gather deleted (inserted ++ text) rest
  | deleted, inserted, .keep text :: rest =>
    changes deleted inserted ++ consKeep text (gather [] [] rest)

/-- The difference of two texts. -/
def compare (old new : Text) : Script :=
  gather [] [] (search old new).compact

end LayeredConfig.Diff
