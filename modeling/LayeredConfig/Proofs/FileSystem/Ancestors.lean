import LayeredConfig.FileSystem.Write
import LayeredConfig.Proofs.FileSystem.Paths
import Mathlib.Data.List.DropRight

/-!
# The paths above a path that ends in a name

The path above is found by dropping the last piece and what names nothing before it, so it leads
where the steps before the last one lead.  Main statements:

* `parent?_below` — one name less leads to the path above;
* `ancestorsFrom_below` — the paths above it follow a path, one name less each;
* `stagingDirectory_spec` — the directory in which a file is made ready has the steps of the file
  but the last, up to steps that stay.
-/

namespace LayeredConfig.FileSystem

variable {path : Text} {pieces ns : List Text} {name : Text} {base : Path}

theorem dropNothing_eq_rdropWhile (pieces : List Text) :
    dropNothing pieces = pieces.rdropWhile namesNothing := rfl

theorem namesNothing_of_proper (h : ProperName name) : ¬ namesNothing name = true := by
  obtain ⟨h1, h2, -, -⟩ := h
  simp [namesNothing, h1, h2]

theorem dropNothing_concat (h : ProperName name) (pieces : List Text) :
    dropNothing (pieces ++ [name]) = pieces ++ [name] :=
  List.rdropWhile_concat_neg _ _ _ (namesNothing_of_proper h)

/-- What names nothing is a step that stays, or none. -/
theorem filterMap_dropNothing (pieces : List Text) :
    ∃ k, pieces.filterMap Step.ofPiece? =
      (dropNothing pieces).filterMap Step.ofPiece? ++ List.replicate k .stay := by
  induction pieces using List.reverseRecOn with
  | nil => exact ⟨0, rfl⟩
  | append_singleton init last ih =>
    rw [dropNothing_eq_rdropWhile, List.rdropWhile_concat, ← dropNothing_eq_rdropWhile]
    split_ifs with hlast
    · obtain ⟨k, hk⟩ := ih
      rw [List.filterMap_append, hk]
      have hcases : last = [] ∨ last = ['.'] := by simpa [namesNothing] using hlast
      rcases hcases with rfl | rfl
      · refine ⟨k, ?_⟩
        simp [Step.ofPiece?]
      · refine ⟨k + 1, ?_⟩
        rw [List.replicate_succ', ← List.append_assoc]
        rfl
    · exact ⟨0, by simp⟩

/-! ## The path above -/

theorem parent?_of_splitAt_singleton (h : ProperName name)
    (hsplit : Text.splitAt '/' path = [name]) : parent? path = some [] := by
  unfold parent?
  rw [hsplit]
  exact if_neg h.1

theorem parent?_of_splitAt_cons {first : Text} (h : ProperName name)
    (hsplit : Text.splitAt '/' path = first :: pieces ++ [name]) :
    parent? path =
      if first = [] ∧ dropNothing pieces = [] then some ['/']
      else some (Text.join ['/'] (first :: dropNothing pieces)) := by
  unfold parent?
  rw [hsplit, List.cons_append]
  simp only [dropNothing_concat h]
  split
  · next hnil => simp at hnil
  · rw [List.dropLast_concat]

theorem parent?_eq_some (h : ProperName name) (hsplit : Text.splitAt '/' path = pieces ++ [name]) :
    ∃ above, parent? path = some above := by
  cases pieces with
  | nil => exact ⟨_, parent?_of_splitAt_singleton h hsplit⟩
  | cons first rest =>
    rw [parent?_of_splitAt_cons h hsplit]
    split_ifs
    · exact ⟨_, rfl⟩
    · exact ⟨_, rfl⟩

/-- Above two names is what the first of them names. -/
theorem parent?_below (hne : ns ≠ []) (h : ∀ n ∈ ns, ProperName n) (hname : ProperName name)
    (base : Path) : parent? (base.below (ns ++ [name])) = some (base.below ns) := by
  have hall : ∀ n ∈ ns ++ [name], ProperName n := by
    intro n hn
    rcases List.mem_append.mp hn with hn | hn
    · exact h n hn
    · exact List.mem_singleton.mp hn ▸ hname
  have hsplit := Path.splitAt_below (by simp) hall base
  rw [← List.append_assoc] at hsplit
  obtain ⟨init, last, rfl⟩ := List.eq_nil_or_concat' ns |>.resolve_left hne
  have hlast : ProperName last := h last (by simp)
  have hpieces : base.trunk ++ (init ++ [last]) ≠ [] := by simp
  obtain ⟨first, rest, hcons⟩ := List.exists_cons_of_ne_nil hpieces
  rw [hcons] at hsplit
  rw [parent?_of_splitAt_cons hname hsplit, Path.below, hcons]
  -- The last piece of the rest, if there is one, is a name, so nothing is dropped.
  rcases List.eq_nil_or_concat' rest with rfl | ⟨middle, end', rfl⟩
  · have hfirst : first = last := by
      have := congrArg List.getLast? hcons
      simpa [← List.append_assoc] using this.symm
    rw [if_neg (fun hand => hlast.1 (hfirst ▸ hand.1))]
    rfl
  · have hend : end' = last := by
      have := congrArg List.getLast? hcons
      rw [← List.append_assoc, ← List.cons_append, List.getLast?_concat,
        List.getLast?_concat] at this
      exact (Option.some.inj this).symm
    subst hend
    rw [dropNothing_concat hlast, if_neg (by simp)]

theorem ancestorsFrom_below (hne : ns ≠ []) (h : ∀ n ∈ ns, ProperName n)
    (hname : ProperName name) (base : Path) (fuel : Nat) :
    ancestorsFrom (fuel + 1) (base.below (ns ++ [name])) =
      base.below (ns ++ [name]) :: ancestorsFrom fuel (base.below ns) := by
  rw [ancestorsFrom, parent?_below hne h hname]

/-! ## The directory of a file -/

theorem stagingDirectory_below (hne : ns ≠ []) (h : ∀ n ∈ ns, ProperName n)
    (hname : ProperName name) (base : Path) :
    stagingDirectory (base.below (ns ++ [name])) = base.below ns := by
  obtain ⟨c, above, hcons⟩ := List.exists_cons_of_ne_nil (Path.below_ne_nil hne h base)
  rw [stagingDirectory, parent?_below hne h hname, hcons]

theorem start_join_cons (wd : Location) (first : Text) {rest : List Text} (h : rest ≠ []) :
    start wd (Text.join ['/'] (first :: rest)) = if first = [] then [] else start wd first := by
  obtain ⟨next, more, rfl⟩ := List.exists_cons_of_ne_nil h
  split_ifs with hfirst
  · rw [hfirst]
    rfl
  · rw [Text.join, List.append_assoc]
    exact Path.start_append wd hfirst _

/-- What is left of pieces when those that name nothing are dropped does not end in an empty
piece, unless it is one empty piece. -/
theorem exists_last_piece {first : Text} (h : ¬(first = [] ∧ dropNothing pieces = [])) :
    ∃ init last, first :: dropNothing pieces = init ++ [last] ∧ last ≠ [] := by
  by_cases hnil : dropNothing pieces = []
  · exact ⟨[], first, by rw [hnil]; rfl, fun hfirst => h ⟨hfirst, hnil⟩⟩
  · refine ⟨first :: (dropNothing pieces).dropLast, (dropNothing pieces).getLast hnil, ?_, ?_⟩
    · rw [List.cons_append, List.dropLast_append_getLast]
    · have hlast : ¬ namesNothing ((dropNothing pieces).getLast hnil) = true :=
        List.rdropWhile_last_not namesNothing pieces hnil
      intro hempty
      rw [hempty] at hlast
      exact hlast rfl

theorem splitAt_join_dropNothing {first : Text} {rest back : List Text}
    (hsplit : Text.splitAt '/' path = first :: (rest ++ back)) :
    Text.splitAt '/' (Text.join ['/'] (first :: dropNothing rest)) = first :: dropNothing rest := by
  apply Text.splitAt_join (List.cons_ne_nil first _)
  intro piece hpiece
  suffices hmem : piece ∈ Text.splitAt '/' path from Text.not_mem_of_mem_splitAt hmem
  rw [hsplit]
  rcases List.mem_cons.mp hpiece with rfl | hpiece
  · exact List.mem_cons_self
  · have hrest := (List.rdropWhile_prefix namesNothing rest).subset hpiece
    exact List.mem_cons_of_mem _ (List.mem_append_left _ hrest)

/-- The directory of a path that is no name directly below the root. -/
theorem stagingDirectory_of_splitAt (h : ProperName name) {first : Text} {rest : List Text}
    (hsplit : Text.splitAt '/' path = first :: (rest ++ [name]))
    (hroot : ¬(first = [] ∧ dropNothing rest = [])) :
    stagingDirectory path = Text.join ['/'] (first :: dropNothing rest) ∧
      stagingDirectory path ≠ [] ∧
      Step.toEntry (stagingDirectory path) =
        (first :: dropNothing rest).filterMap Step.ofPiece? := by
  have hparent := parent?_of_splitAt_cons h hsplit
  rw [if_neg hroot] at hparent
  have hpieces := splitAt_join_dropNothing hsplit
  have hjoin : Text.join ['/'] (first :: dropNothing rest) ≠ [] := by
    intro hnil
    rw [hnil] at hpieces
    simp only [Text.splitAt, List.cons.injEq] at hpieces
    exact hroot ⟨hpieces.1.symm, hpieces.2.symm⟩
  have hstaging : stagingDirectory path = Text.join ['/'] (first :: dropNothing rest) := by
    obtain ⟨c, above, hcons⟩ := List.exists_cons_of_ne_nil hjoin
    rw [stagingDirectory, hparent, hcons]
  -- It does not end in a slash, so its steps are those of its pieces.
  have hslash : (Text.join ['/'] (first :: dropNothing rest)).getLast? ≠ some '/' := by
    obtain ⟨init, last, hlast, hne⟩ := exists_last_piece hroot
    rw [hlast, Text.getLast?_join _ _ hne]
    intro hend
    have hmem : last ∈ Text.splitAt '/' (Text.join ['/'] (first :: dropNothing rest)) := by
      rw [hpieces, hlast]
      simp
    exact Text.not_mem_of_mem_splitAt hmem (List.mem_of_getLast? hend)
  rw [hstaging, Step.toEntry, if_neg hslash, Step.ofPath, hpieces]
  exact ⟨rfl, hjoin, rfl⟩

/-- The directory of a path that ends in a name has the steps before that name, up to steps that
stay. -/
theorem stagingDirectory_spec (h : ProperName name)
    (hsplit : Text.splitAt '/' path = pieces ++ [name]) (wd : Location) :
    stagingDirectory path ≠ [] ∧ start wd (stagingDirectory path) = start wd path ∧
      ∃ j k, pieces.filterMap Step.ofPiece? ++ List.replicate j .stay =
        Step.toEntry (stagingDirectory path) ++ List.replicate k .stay := by
  have hpath := Text.join_splitAt '/' path
  rw [hsplit] at hpath
  cases pieces with
  | nil =>
    have hdot : stagingDirectory path = ['.'] := by
      rw [stagingDirectory, parent?_of_splitAt_singleton h hsplit]
    obtain rfl : name = path := hpath
    rw [hdot]
    refine ⟨by simp, ?_, 1, 0, rfl⟩
    obtain ⟨c, rest, rfl⟩ := List.exists_cons_of_ne_nil h.1
    have hc : c ≠ '/' := fun hc => h.2.2.2 (hc ▸ List.mem_cons_self)
    simp [start, hc]
  | cons first rest =>
    obtain ⟨k, hk⟩ := filterMap_dropNothing rest
    rw [List.cons_append] at hpath hsplit
    by_cases hroot : first = [] ∧ dropNothing rest = []
    · -- The path is a name directly below the root.
      have hparent := parent?_of_splitAt_cons h hsplit
      rw [if_pos hroot] at hparent
      have hslash : stagingDirectory path = ['/'] := by rw [stagingDirectory, hparent]
      obtain ⟨rfl, hnothing⟩ := hroot
      rw [hslash]
      refine ⟨by simp, ?_, 1, k, ?_⟩
      · rw [← hpath, start_join_cons wd [] (by simp)]
        rfl
      · rw [hnothing] at hk
        rw [List.filterMap_cons_none rfl, hk, List.filterMap_nil, List.nil_append,
          ← List.replicate_add, Nat.add_comm, List.replicate_add]
        rfl
    · obtain ⟨hstaging, hne, hsteps⟩ := stagingDirectory_of_splitAt h hsplit hroot
      refine ⟨hne, ?_, 0, k, ?_⟩
      · have hmore : rest ++ [name] ≠ [] := by simp
        have hstart := start_join_cons wd first hmore
        rw [hpath] at hstart
        rw [hstaging, hstart]
        by_cases habove : dropNothing rest = []
        · rw [habove, if_neg (fun hfirst => hroot ⟨hfirst, habove⟩)]
          rfl
        · exact start_join_cons wd first habove
      · rw [hsteps, List.replicate_zero, List.append_nil, ← List.singleton_append (l := rest),
          List.filterMap_append, hk, ← List.append_assoc, ← List.filterMap_append]
        rfl

end LayeredConfig.FileSystem
