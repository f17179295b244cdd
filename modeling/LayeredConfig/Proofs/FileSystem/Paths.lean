import LayeredConfig.Layout
import LayeredConfig.Proofs.FileSystem.Ways
import LayeredConfig.Proofs.Text.Pieces
import Mathlib.Data.List.Induction

/-!
# Joined paths

The places that joined paths name.  A path is plain if it is spelled as one or more names with
single slashes between them; such a path, read from a directory, names the place with these names
below that directory.  Main statements:

* `placeOf_join` — a joined path names what its second part names from the place of the first;
* `join_eq_below` — a plain path is joined to another one by adding its names to the pieces;
* `toEntry_below`, `placeOf_below` — the steps and the place of such a path;
* `readBytes_below_iff`, `isDirectory_below_iff` — reading by such a path is looking at its place.
-/

namespace LayeredConfig

variable {base r : Path} {ns : Location} {relative text : Text}

/-! ## Steps -/

namespace Step

theorem ofPath_append (before after : Text) :
    ofPath (before ++ '/' :: after) = ofPath before ++ ofPath after := by
  rw [ofPath, Text.splitAt_append, List.filterMap_append]
  rfl

theorem ofPath_nil : ofPath [] = [] := rfl

theorem ofPath_slash (text : Text) : ofPath ('/' :: text) = ofPath text := by
  have h := ofPath_append [] text
  rwa [ofPath_nil, List.nil_append, List.nil_append] at h

theorem ofPath_dropWhile (text : Text) : ofPath (text.dropWhile (· = '/')) = ofPath text := by
  induction text with
  | nil => rfl
  | cons c rest ih =>
    by_cases hc : c = '/'
    · subst hc
      rw [List.dropWhile_cons_of_pos (by simp), ih, ofPath_slash]
    · rw [List.dropWhile_cons_of_neg (by simpa using hc)]

theorem ofPiece?_of_proper {name : Text} (h : ProperName name) :
    ofPiece? name = some (.down name) := by
  obtain ⟨h1, h2, h3, -⟩ := h
  simp [ofPiece?, h1, h2, h3]

theorem mem_ofPath {name : Text} (h : down name ∈ ofPath text) :
    name ∈ Text.splitAt '/' text ∧ ProperName name := by
  obtain ⟨piece, hpiece, hstep⟩ := List.mem_filterMap.mp h
  unfold ofPiece? at hstep
  split_ifs at hstep with h1 h2 h3
  · simp at hstep
  · simp at hstep
  · obtain rfl : piece = name := by simpa using hstep
    exact ⟨hpiece, h1, h2, h3, Text.not_mem_of_mem_splitAt hpiece⟩

theorem filterMap_of_proper (h : ∀ name ∈ ns, ProperName name) :
    ns.filterMap ofPiece? = ns.map .down := by
  induction ns with
  | nil => rfl
  | cons name rest ih =>
    rw [List.filterMap_cons, ofPiece?_of_proper (h name List.mem_cons_self),
      ih (fun n hn => h n (List.mem_cons_of_mem _ hn)), List.map_cons]

/-- Steps from a directory either stay in it, and then lead down some names, or leave it, and then
lead to the same place from any other directory beside it. -/
theorem foldl_next_cases (above : Location) (steps : List Step) :
    (∀ a b, steps.foldl next (above ++ [a]) = steps.foldl next (above ++ [b])) ∨
      ∃ ns : Location, (∀ a, steps.foldl next (above ++ [a]) = above ++ a :: ns) ∧
        ∀ name ∈ ns, down name ∈ steps := by
  induction steps using List.reverseRecOn with
  | nil => exact Or.inr ⟨[], by simp, by simp⟩
  | append_singleton steps last ih =>
    simp only [List.foldl_append, List.foldl_cons, List.foldl_nil]
    rcases ih with hsame | ⟨ns, hns, hmem⟩
    · exact Or.inl fun a b => by rw [hsame a b]
    · have hmem' : ∀ name ∈ ns, down name ∈ steps ++ [last] :=
        fun name hname => List.mem_append_left _ (hmem name hname)
      cases last with
      | stay => exact Or.inr ⟨ns, fun a => by rw [hns, next], hmem'⟩
      | down name =>
        refine Or.inr ⟨ns ++ [name], fun a => by rw [hns, next]; simp, ?_⟩
        intro n hn
        rcases List.mem_append.mp hn with hn | hn
        · exact hmem' n hn
        · simp [List.mem_singleton.mp hn]
      | up =>
        rcases List.eq_nil_or_concat' ns with rfl | ⟨init, name, rfl⟩
        · exact Or.inl fun a b => by rw [hns, hns, next, next]; simp
        · refine Or.inr ⟨init, fun a => ?_, fun n hn => hmem' n (List.mem_append_left _ hn)⟩
          rw [hns, next, ← List.cons_append, ← List.append_assoc, List.dropLast_concat]

end Step

/-! ## Joining -/

theorem Text.replaceChar_of_not_mem {old new : Char} (h : old ∉ text) :
    replaceChar old new text = text := by
  unfold replaceChar
  refine (List.map_congr_left fun c hc => ?_).trans (List.map_id text)
  exact if_neg fun (heq : c = old) => h (heq ▸ hc)

namespace Path

theorem ofText_text (h : '\\' ∉ text) : (ofText text).text = text :=
  Text.replaceChar_of_not_mem h

@[simp] theorem ofText_self (p : Path) : ofText p.text = p :=
  ext_text (ofText_text p.no_backslash)

theorem join_text (base : Path) (h : '\\' ∉ relative) :
    (base.join relative).text =
      if base.text = [] then relative.dropWhile (· = '/')
      else if base.text.getLast? = some '/' then base.text ++ relative.dropWhile (· = '/')
      else base.text ++ '/' :: relative.dropWhile (· = '/') := by
  show (if base.text = [] then _ else _) = _
  rw [ofText_text h]

theorem ofPath_join (base : Path) (h : '\\' ∉ relative) :
    Step.ofPath (base.join relative).text = Step.ofPath base.text ++ Step.ofPath relative := by
  rw [join_text base h]
  split_ifs with h1 h2
  · rw [h1, Step.ofPath_dropWhile, Step.ofPath_nil, List.nil_append]
  · obtain ⟨before, hbefore⟩ := List.getLast?_eq_some_iff.mp h2
    rw [hbefore, List.append_assoc, List.singleton_append, Step.ofPath_append,
      Step.ofPath_append, Step.ofPath_dropWhile, Step.ofPath_nil, List.append_nil]
  · rw [Step.ofPath_append, Step.ofPath_dropWhile]

theorem head?_dropWhile (text : Text) : (text.dropWhile (· = '/')).head? ≠ some '/' := by
  intro h
  have hnot := List.head?_dropWhile_not (p := fun c => decide (c = '/')) text
  rw [h] at hnot
  simp at hnot

theorem dropWhile_of_head? (h : text.head? ≠ some '/') : text.dropWhile (· = '/') = text := by
  cases text with
  | nil => rfl
  | cons c rest => exact List.dropWhile_cons_of_neg (by simpa using h)

theorem start_append (wd : Location) {text : Text} (h : text ≠ []) (more : Text) :
    FileSystem.start wd (text ++ more) = FileSystem.start wd text := by
  obtain ⟨c, rest, rfl⟩ := List.exists_cons_of_ne_nil h
  rfl

theorem start_join (wd : Location) (base : Path) (h : '\\' ∉ relative) :
    FileSystem.start wd (base.join relative).text = FileSystem.start wd base.text := by
  rw [join_text base h]
  split_ifs with h1 h2
  · rw [h1, FileSystem.start, FileSystem.start, if_neg (head?_dropWhile relative), if_neg (by simp)]
  · exact start_append wd h1 _
  · exact start_append wd h1 _

theorem placeOf_join (wd : Location) (base : Path) (h : '\\' ∉ relative) :
    FileSystem.placeOf wd (base.join relative).text =
      (Step.ofPath relative).foldl Step.next (FileSystem.placeOf wd base.text) := by
  unfold FileSystem.placeOf
  rw [ofPath_join base h, start_join wd base h, List.foldl_append]

/-! ## Plain paths -/

/-- The names between the slashes of a path. -/
def names (p : Path) : Location :=
  Text.splitAt '/' p.text

/-- Whether a path is spelled as names with single slashes between them. -/
def Plain (p : Path) : Prop :=
  ∀ name ∈ p.names, ProperName name

instance (p : Path) : Decidable p.Plain :=
  inferInstanceAs (Decidable (∀ name ∈ p.names, ProperName name))

/-- The pieces of a path that others are joined to. -/
def trunk (base : Path) : List Text :=
  if base.text = [] then []
  else if base.text.getLast? = some '/' then (Text.splitAt '/' base.text).dropLast
  else Text.splitAt '/' base.text

/-- The spelling of the path that leads down some names from a path. -/
def below (base : Path) (ns : Location) : Text :=
  Text.join ['/'] (base.trunk ++ ns)

theorem names_ne_nil (p : Path) : p.names ≠ [] := Text.splitAt_ne_nil '/' p.text

theorem text_eq_join (p : Path) : p.text = Text.join ['/'] p.names :=
  (Text.join_splitAt '/' p.text).symm

theorem eq_of_names_eq {p q : Path} (h : p.names = q.names) : p = q :=
  ext_text (by rw [text_eq_join p, text_eq_join q, h])

theorem not_mem_of_mem_trunk {piece : Text} (h : piece ∈ base.trunk) : '/' ∉ piece := by
  unfold trunk at h
  split_ifs at h
  · simp at h
  · exact Text.not_mem_of_mem_splitAt ((List.dropLast_sublist _).subset h)
  · exact Text.not_mem_of_mem_splitAt h

theorem filterMap_trunk (base : Path) :
    base.trunk.filterMap Step.ofPiece? = Step.ofPath base.text := by
  unfold trunk
  split_ifs with h1 h2
  · rw [h1, Step.ofPath_nil, List.filterMap_nil]
  · obtain ⟨before, hbefore⟩ := List.getLast?_eq_some_iff.mp h2
    rw [hbefore, Text.splitAt_append, Step.ofPath_append, Step.ofPath_nil, List.append_nil]
    simp only [Text.splitAt, List.dropLast_concat]
    rfl
  · rfl

/-- A text without empty pieces does not begin with a slash. -/
theorem head?_of_nil_not_mem (h : [] ∉ Text.splitAt '/' text) : text.head? ≠ some '/' := by
  cases text with
  | nil => simp
  | cons c rest =>
    intro hc
    obtain rfl : c = '/' := by simpa using hc
    exact h (by simp [Text.splitAt])

theorem dropWhile_of_proper (h : ∀ name ∈ Text.splitAt '/' relative, ProperName name) :
    relative.dropWhile (· = '/') = relative :=
  dropWhile_of_head? (head?_of_nil_not_mem fun hnil => (h [] hnil).1 rfl)

theorem below_eq (base : Path) (hne : ns ≠ []) :
    base.below ns =
      if base.text = [] then Text.join ['/'] ns
      else if base.text.getLast? = some '/' then base.text ++ Text.join ['/'] ns
      else base.text ++ '/' :: Text.join ['/'] ns := by
  rw [below, trunk]
  split_ifs with h1 h2
  · rw [List.nil_append]
  · obtain ⟨before, hbefore⟩ := List.getLast?_eq_some_iff.mp h2
    rw [hbefore, Text.splitAt_append]
    simp only [Text.splitAt, List.dropLast_concat]
    rw [Text.join_append _ (Text.splitAt_ne_nil '/' before) hne, Text.join_splitAt]
  · rw [Text.join_append _ (Text.splitAt_ne_nil '/' base.text) hne, Text.join_splitAt,
      List.append_assoc, List.singleton_append]

theorem join_eq_below (base : Path) (hb : '\\' ∉ relative)
    (h : ∀ name ∈ Text.splitAt '/' relative, ProperName name) :
    (base.join relative).text = base.below (Text.splitAt '/' relative) := by
  rw [join_text base hb, dropWhile_of_proper h, below_eq base (Text.splitAt_ne_nil '/' relative),
    Text.join_splitAt]

theorem Plain.join_eq_below (h : r.Plain) (base : Path) :
    (base.join r.text).text = base.below r.names :=
  Path.join_eq_below base r.no_backslash h

/-! ## What leads down from a path -/

section Below

variable (hne : ns ≠ []) (h : ∀ name ∈ ns, ProperName name)

include hne h

theorem splitAt_below (base : Path) : Text.splitAt '/' (base.below ns) = base.trunk ++ ns := by
  refine Text.splitAt_join (by simp [hne]) (fun piece hpiece => ?_)
  rcases List.mem_append.mp hpiece with hmem | hmem
  · exact not_mem_of_mem_trunk hmem
  · exact (h piece hmem).2.2.2

theorem ofPath_below (base : Path) :
    Step.ofPath (base.below ns) = Step.ofPath base.text ++ ns.map .down := by
  rw [Step.ofPath, splitAt_below hne h, List.filterMap_append, filterMap_trunk,
    Step.filterMap_of_proper h]

theorem getLast?_below (base : Path) : (base.below ns).getLast? ≠ some '/' := by
  obtain ⟨init, name, rfl⟩ := List.eq_nil_or_concat' ns |>.resolve_left hne
  have hname := h name (by simp)
  rw [below, ← List.append_assoc, Text.getLast?_join _ _ hname.1]
  exact fun hslash => hname.2.2.2 (List.mem_of_getLast? hslash)

theorem toEntry_below (base : Path) :
    Step.toEntry (base.below ns) = Step.ofPath base.text ++ ns.map .down := by
  rw [Step.toEntry, if_neg (getLast?_below hne h base), ofPath_below hne h]

theorem below_ne_nil (base : Path) : base.below ns ≠ [] := by
  intro hnil
  have hsplit := splitAt_below hne h base
  obtain ⟨init, name, rfl⟩ := List.eq_nil_or_concat' ns |>.resolve_left hne
  rw [hnil, ← List.append_assoc] at hsplit
  have hname : name ∈ Text.splitAt '/' [] := by simp [hsplit]
  exact (h name (by simp)).1 (by simpa [Text.splitAt] using hname)

theorem start_below (wd : Location) (base : Path) :
    FileSystem.start wd (base.below ns) = FileSystem.start wd base.text := by
  rw [below_eq base hne]
  split_ifs with h1 h2
  · have hsplit : Text.splitAt '/' (Text.join ['/'] ns) = ns :=
      Text.splitAt_join hne fun name hname => (h name hname).2.2.2
    have hdrop : (Text.join ['/'] ns).dropWhile (· = '/') = Text.join ['/'] ns :=
      dropWhile_of_proper (by rwa [hsplit])
    rw [h1, FileSystem.start, ← hdrop, if_neg (head?_dropWhile _)]
    rfl
  · exact start_append wd h1 _
  · exact start_append wd h1 _

theorem placeOf_below (wd : Location) (base : Path) :
    FileSystem.placeOf wd (base.below ns) = FileSystem.placeOf wd base.text ++ ns := by
  rw [FileSystem.placeOf, ofPath_below hne h, start_below hne h, List.foldl_append,
    FileSystem.foldl_next_down]
  rfl

theorem trunk_of_text_eq_below {p : Path} (hp : p.text = base.below ns) :
    p.trunk = base.trunk ++ ns := by
  rw [trunk, hp, if_neg (below_ne_nil hne h base), if_neg (getLast?_below hne h base),
    splitAt_below hne h]

end Below

end Path

/-! ## Reading below a directory -/

namespace FileSystem

variable {fs fs' : FileSystem} {path : Text}

/-- Whether a path leads to a directory, or is empty and read from one. -/
structure Enters (fs : FileSystem) (path : Text) : Prop where
  isOpen : Open fs (start fs.workingDirectory path) (Step.ofPath path)
  directory : fs.faceAt? (placeOf fs.workingDirectory path) = some .directory

theorem Enters.mono (hk : Keeps fs fs') (h : fs.Enters path) : fs'.Enters path := by
  constructor
  · rw [hk.workingDirectory]
    exact h.isOpen.mono hk
  · rw [hk.workingDirectory]
    exact hk.directory _ h.directory

theorem enters_of_isDirectory (hlf : fs.LinkFree) (h : fs.isDirectory path = true) :
    fs.Enters path := by
  obtain ⟨⟨-, hopen⟩, hdir⟩ := (isDirectory_iff hlf).mp h
  refine ⟨?_, hdir⟩
  unfold Step.toEntry at hopen
  split_ifs at hopen
  · exact (open_append.mp hopen).1
  · exact hopen

section Below

variable (hne : ns ≠ []) (h : ∀ name ∈ ns, ProperName name)

include hne h

theorem reaches_below_iff (hbase : fs.Enters base.text) :
    fs.Reaches (base.below ns) ↔
      fs.faceAt? (placeOf fs.workingDirectory base.text ++ ns) ≠ none := by
  rw [Reaches, Path.toEntry_below hne h, Path.start_below hne h, open_append, open_down_iff hne]
  constructor
  · exact fun hr => hr.2.2
  · exact fun hface => ⟨Path.below_ne_nil hne h base, hbase.isOpen, hface⟩

theorem enters_of_reaches_below (hreach : fs.Reaches (base.below ns)) : fs.Enters base.text := by
  rw [Reaches, Path.toEntry_below hne h, Path.start_below hne h, open_append,
    open_down_iff hne] at hreach
  exact ⟨hreach.2.1, faceAt?_of_append hne hreach.2.2⟩

theorem readBytes_below_iff (hlf : fs.LinkFree) (hbase : fs.Enters base.text) {content : Bytes} :
    fs.readBytes (base.below ns) = .ok content ↔
      fs.fileAt? (placeOf fs.workingDirectory base.text ++ ns) = some content := by
  rw [readBytes_eq_ok_iff hlf, reaches_below_iff hne h hbase, Path.placeOf_below hne h]
  constructor
  · exact fun hr => hr.2
  · intro hfile
    exact ⟨by simp [fileAt?_eq_some_iff.mp hfile], hfile⟩

theorem isDirectory_below_iff (hlf : fs.LinkFree) (hbase : fs.Enters base.text) :
    fs.isDirectory (base.below ns) = true ↔
      fs.faceAt? (placeOf fs.workingDirectory base.text ++ ns) = some .directory := by
  rw [isDirectory_iff hlf, reaches_below_iff hne h hbase, Path.placeOf_below hne h]
  constructor
  · exact fun hr => hr.2
  · exact fun hdir => ⟨by simp [hdir], hdir⟩

end Below

end FileSystem

end LayeredConfig
