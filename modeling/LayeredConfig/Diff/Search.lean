import LayeredConfig.Text.Basic

/-!
# Edit scripts and how they are found

An edit script of two texts is found by cutting both at the middle of a shortest one, over and
over. Whatever the cuts are, the script has the two texts on its two sides.
-/

namespace LayeredConfig.Diff

/-!
## Edit scripts

An edit script tells two texts apart as a list of runs: a run that both have, a run that only
the old text has, and a run that only the new text has. Reading the kept and deleted runs gives
the old text, reading the kept and inserted runs gives the new one.
-/

/-- A run of characters in an edit script. -/
inductive Edit where
  /-- The run is in both texts. -/
  | keep (text : Text)
  /-- The run is in the old text only. -/
  | delete (text : Text)
  /-- The run is in the new text only. -/
  | insert (text : Text)
  deriving DecidableEq

namespace Edit

/-- The characters of a run. -/
def text : Edit → Text
  | keep text => text
  | delete text => text
  | insert text => text

/-- What a run contributes to the old text. -/
def old : Edit → Text
  | keep text => text
  | delete text => text
  | insert _ => []

/-- What a run contributes to the new text. -/
def new : Edit → Text
  | keep text => text
  | delete _ => []
  | insert text => text

/-- Whether a run is in both texts. -/
def isKeep : Edit → Bool
  | keep _ => true
  | _ => false

/-- A run in running text: deleted characters in brackets with minus signs, inserted ones in
braces with plus signs. -/
def shown : Edit → Text
  | keep text => text
  | delete text => ['[', '-'] ++ text ++ ['-', ']']
  | insert text => ['{', '+'] ++ text ++ ['+', '}']

end Edit

/-- A list of runs. -/
abbrev Script := List Edit

namespace Script

/-- The text before the edits. -/
def oldText (script : Script) : Text :=
  script.flatMap Edit.old

/-- The text after the edits. -/
def newText (script : Script) : Text :=
  script.flatMap Edit.new

/-- Whether nothing is deleted or inserted. -/
def unchanged (script : Script) : Bool :=
  script.all Edit.isKeep

/-- The whole script in running text. -/
def shown (script : Script) : Text :=
  script.flatMap Edit.shown

end Script

/-!
## The middle of a shortest script

Two searches run towards each other over the grid of pairs of positions, one from the start of
both texts and one from their ends. A search with `d` edits reaches one furthest position on each
of the diagonals `-d, -d + 2, …, d`, and then follows equal characters along the diagonal. Where
the two searches meet there is a point of a shortest script at which the texts can be cut.

The answer is only a proposal where to cut. What is made of it is right for every cut, so no
property of the search is needed elsewhere.
-/

/-- The furthest position reached on each diagonal, with diagonal zero in the middle. -/
structure Frontier where
  /-- The positions, shifted by `offset`. -/
  reach : Array Nat
  /-- The index of diagonal zero. -/
  offset : Nat

namespace Frontier

/-- The frontier of no edits, for diagonals up to a bound. -/
def start (bound : Nat) : Frontier :=
  ⟨Array.replicate (2 * bound + 3) 0, bound + 1⟩

/-- The furthest position on a diagonal. -/
def get (frontier : Frontier) (diagonal : Int) : Nat :=
  frontier.reach.getD (diagonal + frontier.offset).toNat 0

/-- The frontier with a position on a diagonal. -/
def set (frontier : Frontier) (diagonal : Int) (position : Nat) : Frontier :=
  { frontier with
    reach := frontier.reach.setIfInBounds (diagonal + frontier.offset).toNat position }

/-- The position from which `edits` edits walk along a diagonal: an insertion after the diagonal
above or a deletion after the diagonal below, whichever is further. -/
def entry (frontier : Frontier) (edits : Nat) (diagonal : Int) : Nat :=
  if diagonal = -edits ∨
      (diagonal ≠ edits ∧ frontier.get (diagonal - 1) < frontier.get (diagonal + 1)) then
    frontier.get (diagonal + 1)
  else frontier.get (diagonal - 1) + 1

end Frontier

/-- The length of the run of equal characters from a pair of positions on. -/
def runForward (old new : Array Char) : (limit x y : Nat) → Nat
  | 0, _, _ => 0
  | limit + 1, x, y =>
    match old[x]?, new[y]? with
    | some a, some b => if a = b then runForward old new limit (x + 1) (y + 1) + 1 else 0
    | _, _ => 0

/-- The length of the run of equal characters before a pair of positions counted from the
ends. -/
def runBackward (old new : Array Char) : (limit x y : Nat) → Nat
  | 0, _, _ => 0
  | limit + 1, x, y =>
    if x < old.size ∧ y < new.size ∧ old[old.size - 1 - x]? = new[new.size - 1 - y]? then
      runBackward old new limit (x + 1) (y + 1) + 1
    else 0

/-- The diagonals that a number of edits can reach, from above to below. -/
def diagonals (edits : Nat) : List Int :=
  (List.range (edits + 1)).map fun (i : Nat) => (edits : Int) - 2 * i

/-- One round of the forward search: the new frontier, or the point where it met the backward
one. -/
def stepForward (old new : Array Char) (edits : Nat) (backward : Frontier) :
    List Int → Frontier → Frontier ⊕ (Nat × Nat)
  | [], forward => .inl forward
  | k :: rest, forward =>
    let delta : Int := old.size - new.size
    let x := forward.entry edits k
    let y := (x - k).toNat
    let reached := x + runForward old new old.size x y
    let forward := forward.set k reached
    if delta % 2 ≠ 0 ∧ (k - delta).natAbs + 1 ≤ edits ∧
        old.size ≤ reached + backward.get (delta - k) then
      .inr (x, y)
    else stepForward old new edits backward rest forward

/-- One round of the backward search: the new frontier, or the point where it met the forward
one. -/
def stepBackward (old new : Array Char) (edits : Nat) (forward : Frontier) :
    List Int → Frontier → Frontier ⊕ (Nat × Nat)
  | [], backward => .inl backward
  | k :: rest, backward =>
    let delta : Int := old.size - new.size
    let x := backward.entry edits k
    let y := (x - k).toNat
    let run := runBackward old new old.size x y
    let backward := backward.set k (x + run)
    if delta % 2 = 0 ∧ (k - delta).natAbs ≤ edits ∧
        old.size ≤ x + run + forward.get (delta - k) then
      .inr (old.size - (x + run), new.size - (y + run))
    else stepBackward old new edits forward rest backward

/-- The rounds of both searches from a number of edits on. -/
def searchFrom (old new : Array Char) :
    (rounds edits : Nat) → (forward backward : Frontier) → Option (Nat × Nat)
  | 0, _, _, _ => none
  | rounds + 1, edits, forward, backward =>
    match stepForward old new edits backward (diagonals edits) forward with
    | .inr point => some point
    | .inl forward =>
      match stepBackward old new edits forward (diagonals edits) backward with
      | .inr point => some point
      | .inl backward => searchFrom old new rounds (edits + 1) forward backward

/-- A pair of positions at which a shortest script of two texts can be cut. -/
def middle? (old new : Text) : Option (Nat × Nat) :=
  let rounds := (old.length + new.length + 1) / 2 + 1
  searchFrom old.toArray new.toArray rounds 0 (.start rounds) (.start rounds)

/-!
## Finding a script

What two texts have in common at their beginning and at their end is kept. Of what is left
between, an empty side makes the other side one insertion or deletion; otherwise both sides are
cut at the middle of a shortest script and the halves are compared.
-/

/-- The common beginning of two texts and what follows it in each. -/
def splitStart : (old new : Text) → Text × Text × Text
  | a :: old, b :: new =>
    if a = b then
      let (common, restOld, restNew) := splitStart old new
      (a :: common, restOld, restNew)
    else ([], a :: old, b :: new)
  | old, new => ([], old, new)

/-- The common end of two texts and what precedes it in each. -/
def splitEnd (old new : Text) : Text × Text × Text :=
  let (common, restOld, restNew) := splitStart old.reverse new.reverse
  (common.reverse, restOld.reverse, restNew.reverse)

/-- A kept run, unless it is empty. -/
def keepRun (text : Text) : Script :=
  if text = [] then [] else [.keep text]

/-- An edit script of two texts. The fuel bounds how often they are cut; without fuel the old
text is deleted as a whole and the new one inserted. -/
def searchWith : (fuel : Nat) → (old new : Text) → Script
  | 0, old, new => [.delete old, .insert new]
  | fuel + 1, old, new =>
    let (first, old, new) := splitStart old new
    let (last, old, new) := splitEnd old new
    let between : Script :=
      if old = [] ∧ new = [] then []
      else if new = [] then [.delete old]
      else if old = [] then [.insert new]
      else
        match middle? old new with
        | some (x, y) =>
          searchWith fuel (old.take x) (new.take y) ++ searchWith fuel (old.drop x) (new.drop y)
        | none => [.delete old, .insert new]
    keepRun first ++ between ++ keepRun last

/-- An edit script of two texts. A cut makes both halves shorter than the whole, so the lengths
of the texts bound how deep cuts are nested. -/
def search (old new : Text) : Script :=
  searchWith (old.length + new.length + 1) old new

end LayeredConfig.Diff
