import LayeredConfig.Model.Compile
import LayeredConfig.Model.Parse
import LayeredConfig.Proofs.Collect
import LayeredConfig.Proofs.Text.Pieces
import LayeredConfig.Proofs.Tree.Merge

/-!
# JSON output reads back

The reader of JSON undoes the printer on everything that a configuration tree can be printed as:
strings of any characters, and objects of such strings and of objects.  Each lemma lets any text
follow what is read, so the proofs go along the tree.  Main statements:

* `readString?_escape` — a character is read back, escaped or not;
* `readValue?_printAt` — a node is read back, whatever its level of indentation is;
* `treeInto_ofEntries` — the members of the object that was read are the entries of the tree again;
* **`parse_document`** — the printed document of a configuration is a model file with the same tree.

The fuel of the reader is counted in characters.  The members of an object are collected by
insertion, so the order of the keys has to be carried along.
-/

namespace LayeredConfig.Json

/-! ## Strings -/

theorem digitValue?_digitChar : ∀ d < 16, Text.digitValue? 16 (Nat.digitChar d) = some d := by
  decide

/-- The digits of a control character. -/
theorem fourDigits?_control {n : Nat} (h : n < 0x20) :
    fourDigits? '0' '0' (Nat.digitChar (n / 16)) (Nat.digitChar (n % 16)) = some n := by
  have hzero : Text.digitValue? 16 '0' = some 0 := by decide
  have hhigh := digitValue?_digitChar (n / 16) (by omega)
  have hlow := digitValue?_digitChar (n % 16) (by omega)
  simp only [fourDigits?, hzero, hhigh, hlow, Option.bind_eq_bind, Option.bind_some]
  exact congrArg some (by omega)

/-- A letter after a backslash is read as the character that it stands for. -/
theorem readString?_letter {letter c : Char} (hu : letter ≠ 'u')
    (hletter : escapeChar? letter = some c) {rest text after : Text}
    (h : readString? rest = some (text, after)) :
    readString? ('\\' :: letter :: rest) = some (c :: text, after) := by
  rw [readString?.eq_4 _ _ fun _ _ _ _ _ hc _ => hu hc, hletter, Option.bind_eq_bind,
    Option.bind_some, h]
  rfl

/-- One character, escaped or not, is read back. -/
theorem readString?_escape (c : Char) {rest text after : Text}
    (h : readString? rest = some (text, after)) :
    readString? (escape c ++ rest) = some (c :: text, after) := by
  unfold escape
  split_ifs with h1 h2 h3 h4 h5 h6 h7 h8
  · subst h1
    exact readString?_letter (by decide) (by decide) h
  · subst h2
    exact readString?_letter (by decide) (by decide) h
  · subst h3
    exact readString?_letter (by decide) (by decide) h
  · subst h4
    exact readString?_letter (by decide) (by decide) h
  · subst h5
    exact readString?_letter (by decide) (by decide) h
  · subst h6
    exact readString?_letter (by decide) (by decide) h
  · subst h7
    exact readString?_letter (by decide) (by decide) h
  · have hhigh : isHighSurrogate c.toNat = false := by simp [isHighSurrogate]; omega
    have hlow : isLowSurrogate c.toNat = false := by simp [isLowSurrogate]; omega
    simp only [List.cons_append, List.nil_append]
    rw [readString?.eq_3, fourDigits?_control h8, Option.bind_eq_bind, Option.bind_some, hhigh,
      hlow, h, if_neg Bool.false_ne_true, if_neg Bool.false_ne_true, Char.ofNat_toNat]
    rfl
  · rw [List.singleton_append, readString?.eq_5 _ _ h1 (fun _ _ _ _ _ hc _ => h2 hc)
      (fun _ _ hc _ => h2 hc), if_neg (by simp [h8, h2]), h]
    rfl

/-- A printed string is read back. -/
theorem readString?_printString (text rest : Text) :
    readString? (text.flatMap escape ++ '"' :: rest) = some (text, rest) := by
  induction text with
  | nil => rw [List.flatMap_nil, List.nil_append, readString?.eq_2]
  | cons c text ih =>
    rw [List.flatMap_cons, List.append_assoc]
    exact readString?_escape c ih

/-! ## Blanks -/

theorem skipBlanks_cons {c : Char} (h : isBlank c = false) (rest : Text) :
    skipBlanks (c :: rest) = c :: rest := by
  rw [skipBlanks, List.dropWhile_cons_of_neg (by simp [h])]

theorem skipBlanks_blank {c : Char} (h : isBlank c = true) (rest : Text) :
    skipBlanks (c :: rest) = skipBlanks rest := by
  rw [skipBlanks, skipBlanks, List.dropWhile_cons_of_pos h]

/-- The end of a line and the indentation of the next one are passed over. -/
theorem skipBlanks_newline (level : Nat) (rest : Text) :
    skipBlanks (newline level ++ rest) = skipBlanks rest := by
  rw [newline, List.cons_append, skipBlanks_blank (by decide)]
  induction 2 * level with
  | zero => rfl
  | succ n ih => rw [List.replicate_succ, List.cons_append, skipBlanks_blank (by decide), ih]

/-- A printed string begins with a quote. -/
theorem skipBlanks_printString (text rest : Text) :
    skipBlanks (printString text ++ rest) = printString text ++ rest :=
  skipBlanks_cons (by decide) _

/-! ## Values -/

mutual

/-- The value that a node is printed as. -/
def ofNode : Node → Value
  | .scalar text => .string text
  | .branch entries => .object (ofEntries entries)

/-- The members that entries are printed as. -/
def ofEntries : List (Text × Node) → Members
  | [] => []
  | (key, node) :: rest => (key, ofNode node) :: ofEntries rest

end

/-- A printed node begins with a quote or a brace. -/
theorem skipBlanks_printAt (level : Nat) (node : Node) (rest : Text) :
    skipBlanks (printAt level node.json ++ rest) = printAt level node.json ++ rest := by
  cases node with
  | scalar text => exact skipBlanks_cons (by decide) _
  | branch entries =>
    cases entries with
    | nil => exact skipBlanks_cons (by decide) _
    | cons entry entries => exact skipBlanks_cons (by decide) _

/-- An object is read by its members if there is one. -/
theorem readValue?_object {fuel depth level : Nat} {text after : Text} {members : Members}
    (h : readMembers? fuel depth [] ('"' :: text) = some (members, after)) :
    readValue? (fuel + 1) (depth + 1) ('{' :: (newline level ++ '"' :: text)) =
      some (.object members, after) := by
  rw [readValue?.eq_6, skipBlanks_newline, skipBlanks_cons (by decide)]
  show (readMembers? fuel depth [] ('"' :: text)).map _ = _
  rw [h]
  rfl

section Member

variable {fuel depth : Nat} {before : Members} {name text after rest : Text} {value : Value}
  (hvalue : readValue? fuel depth (skipBlanks text) = some (value, after))

include hvalue

/-- After a comma the next member follows. -/
theorem readMembers?_comma (hafter : skipBlanks after = ',' :: rest) :
    readMembers? (fuel + 1) depth before (printString name ++ ':' :: text) =
      readMembers? fuel depth (Entries.insert name value before) (skipBlanks rest) := by
  rw [printString, List.cons_append, List.cons_append, List.append_assoc, readMembers?.eq_2,
    List.singleton_append, readString?_printString]
  simp only [Option.bind_eq_bind, Option.bind_some, skipBlanks_cons (c := ':') (by decide), hvalue,
    hafter]

/-- A brace ends the members. -/
theorem readMembers?_brace (hafter : skipBlanks after = '}' :: rest) :
    readMembers? (fuel + 1) depth before (printString name ++ ':' :: text) =
      some (Entries.insert name value before, rest) := by
  rw [printString, List.cons_append, List.cons_append, List.append_assoc, readMembers?.eq_2,
    List.singleton_append, readString?_printString]
  simp only [Option.bind_eq_bind, Option.bind_some, skipBlanks_cons (c := ':') (by decide), hvalue,
    hafter]
  rfl

end Member

mutual

/-- **A printed node is read back**, if there is fuel for each of its characters and its levels
are admitted. -/
theorem readValue?_printAt (level : Nat) : ∀ (node : Node) {fuel depth : Nat} (rest : Text),
    (printAt level node.json).length ≤ fuel → node.levels ≤ depth → Tree.SortedNode node →
      readValue? fuel depth (printAt level node.json ++ rest) = some (ofNode node, rest)
  | .scalar text, 0, depth, rest, hfuel, _, _ => by simp [Node.json, printAt, printString] at hfuel
  | .scalar text, fuel + 1, depth, rest, _, _, _ => by
    rw [Node.json, printAt, printString, List.cons_append, List.cons_append, List.append_assoc,
      readValue?.eq_2, List.singleton_append, readString?_printString]
    rfl
  | .branch _, _, 0, _, _, hdepth, _ => by simp [Node.levels] at hdepth
  | .branch [], 0, _, _, hfuel, _, _ => by simp [Node.json, Tree.jsonMembers, printAt] at hfuel
  | .branch [], fuel + 1, depth + 1, rest, _, _, _ => by
    rw [Node.json, Tree.jsonMembers, printAt, List.cons_append, List.singleton_append,
      readValue?.eq_6, skipBlanks_cons (by decide)]
    rfl
  | .branch ((key, node) :: entries), 0, _, _, hfuel, _, _ => by
    simp [Node.json, Tree.jsonMembers, printAt] at hfuel
  | .branch ((key, node) :: entries), fuel + 1, depth + 1, rest, hfuel, hdepth, hsorted => by
    rw [Node.levels, Tree.levelsBelow] at hdepth
    have hmembers := readMembers?_print level key node entries fuel depth [] rest ?_ (by omega)
      (by omega) hsorted (by simp)
    · simp only [Node.json, Tree.jsonMembers, printAt, printString, List.cons_append,
        List.append_assoc, List.nil_append] at hmembers ⊢
      exact readValue?_object hmembers
    · simp only [Node.json, Tree.jsonMembers, printAt, printMembers, List.length_append,
        List.length_cons, newline] at hfuel ⊢
      omega

/-- The members from the next one on are read back and put behind those before it. -/
theorem readMembers?_print (level : Nat) : ∀ (key : Text) (node : Node)
    (entries : List (Text × Node)) (fuel depth : Nat) (before : Members) (rest : Text),
    (printMembers (level + 1) (Tree.jsonMembers ((key, node) :: entries))).length ≤ fuel →
    node.levels ≤ depth → Tree.levelsBelow entries ≤ depth →
    Tree.Sorted ((key, node) :: entries) → (∀ low ∈ before, low.1 < key) →
      readMembers? fuel depth before
        (printString key ++ [':', ' '] ++ printAt (level + 1) node.json ++
          printMembers (level + 1) (Tree.jsonMembers entries) ++ newline level ++ '}' :: rest) =
        some (before ++ ofEntries ((key, node) :: entries), rest)
  | key, node, entries, 0, depth, before, rest, hfuel, _, _, _, _ => by
    simp [Tree.jsonMembers, printMembers] at hfuel
  | key, node, entries, fuel + 1, depth, before, rest, hfuel, hnode, hentries, hsorted, hbefore => by
    have hlength : (printAt (level + 1) node.json).length ≤ fuel := by
      simp only [Tree.jsonMembers, printMembers, List.length_append, List.length_cons] at hfuel
      omega
    have hvalue : ∀ after, readValue? fuel depth
        (skipBlanks (' ' :: (printAt (level + 1) node.json ++ after))) =
          some (ofNode node, after) := by
      intro after
      rw [skipBlanks_blank (by decide), skipBlanks_printAt]
      exact readValue?_printAt (level + 1) node after hlength hnode hsorted.2.1
    have hinsert := Entries.insert_last hbefore (ofNode node)
    cases entries with
    | nil =>
      simp only [Tree.jsonMembers, printMembers, List.append_assoc, List.cons_append,
        List.nil_append]
      rw [readMembers?_brace (hvalue _) (by rw [skipBlanks_newline, skipBlanks_cons (by decide)]),
        hinsert]
      rfl
    | cons entry entries =>
      obtain ⟨next, other⟩ := entry
      rw [Tree.levelsBelow] at hentries
      have hrest := readMembers?_print level next other entries fuel depth
        (before ++ [(key, ofNode node)]) rest ?_ (by omega) (by omega) hsorted.tail ?_
      · simp only [Tree.jsonMembers, printMembers, List.append_assoc, List.cons_append,
          List.nil_append] at hrest ⊢
        rw [readMembers?_comma (hvalue _) (skipBlanks_cons (by decide) _), skipBlanks_newline,
          skipBlanks_printString, hinsert]
        exact hrest
      · simp only [Tree.jsonMembers, printMembers, List.length_append, List.length_cons] at hfuel ⊢
        omega
      · exact fun low hlow =>
          Entries.lt_of_mem_concat hbefore hsorted.1.1 low hlow _ List.mem_cons_self

end

/-! ## Trees -/

mutual

theorem node?_ofNode : ∀ node : Node, Tree.SortedNode node → node? (ofNode node) = .ok (some node)
  | .scalar _, _ => rfl
  | .branch entries, h => by
    rw [ofNode, node?, treeInto_ofEntries entries [] h (by simp)]
    rfl

/-- Entries become members and entries again. -/
theorem treeInto_ofEntries : ∀ (entries : List (Text × Node)) (before : Tree),
    Tree.Sorted entries → (∀ low ∈ before, ∀ high ∈ entries, low.1 < high.1) →
      treeInto before (ofEntries entries) = .ok (before ++ entries)
  | [], before, _, _ => by
    rw [List.append_nil]
    rfl
  | (key, node) :: entries, before, hsorted, hbefore => by
    have hkey : ∀ low ∈ before, low.1 < key := fun low hlow => hbefore low hlow _ List.mem_cons_self
    rw [ofEntries, treeInto, node?_ofNode node hsorted.2.1]
    show treeInto (Entries.insert key node before) (ofEntries entries) = _
    rw [Entries.insert_last hkey, treeInto_ofEntries entries _ hsorted.tail
      (Entries.lt_of_mem_concat hkey hsorted.1.1), List.append_assoc, List.singleton_append]

end

/-! ## The document -/

/-- The text of a tree begins with a brace. -/
theorem exists_print_branch (tree : Tree) :
    ∃ inner, print (Node.json (.branch tree)) = '{' :: inner ++ ['}'] := by
  cases tree with
  | nil => exact ⟨[], rfl⟩
  | cons entry entries => exact ⟨_, rfl⟩

/-- A tree is not trimmed. -/
theorem document_eq (tree : Tree) :
    OutputFormat.json.document tree = print (Node.json (.branch tree)) ++ ['\n'] := by
  rw [OutputFormat.document, OutputFormat.print]
  obtain ⟨inner, hinner⟩ := exists_print_branch tree
  rw [hinner, Text.trimEnd_self]
  intro c hc
  rw [List.getLast?_append, List.getLast?_singleton] at hc
  obtain rfl := Option.some.inj hc
  decide

/-- The document of a tree is read as the object that was printed. -/
theorem read?_document {tree : Tree} (hsorted : tree.Sorted) (hlevels : tree.levels ≤ deepest) :
    read? (OutputFormat.json.document tree) = some (.object (ofEntries tree)) := by
  rw [document_eq, print, read?, skipBlanks_printAt, readValue?_printAt 0 (.branch tree) _ ?_
    hlevels hsorted]
  · rfl
  · rw [List.length_append]
    omega

/-- **JSON output reads back.**  The text that a configuration is printed as in JSON is a model
file with the tree of that configuration, if it has at most 127 levels. -/
theorem parse_document {tree : Tree} (hsorted : tree.Sorted) (hlevels : tree.levels ≤ 127)
    (file : Text) : FileFormat.json.parse file (OutputFormat.json.document tree) = .ok tree := by
  have htree : Json.tree (ofEntries tree) = .ok tree :=
    treeInto_ofEntries tree [] hsorted (by simp)
  rw [FileFormat.parse, Json.parse, read?_document hsorted hlevels]
  exact Except.mapError_eq_ok_iff.mpr htree

/-- A tree with an empty key, an empty branch and characters that are escaped. -/
def awkwardTree : Tree :=
  [([], .scalar ['"', '\\', '\n', '\x01']), (['a'], .branch []),
    (['b'], .branch [(['\u2028'], .scalar ['x', ' '])])]

theorem parse_document_awkward :
    awkwardTree.Sorted ∧ awkwardTree.levels ≤ 127 ∧
      FileFormat.json.parse ['m'] (OutputFormat.json.document awkwardTree) = .ok awkwardTree :=
  ⟨by decide, by decide, parse_document (by decide) (by decide) ['m']⟩

end LayeredConfig.Json
