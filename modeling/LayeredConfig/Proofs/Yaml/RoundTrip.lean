import LayeredConfig.Model.Compile
import LayeredConfig.Proofs.Text.Pieces
import LayeredConfig.Proofs.Yaml.Document

/-!
# YAML output reads back

What is printed for a tree is read back, whatever strings it holds.  But the document of a tree is
trimmed at its end, and what is trimmed can belong to the last scalar: a literal block with a plus
sign loses line feeds, and a plain string can end in white space other than spaces.  Main
statements:

* `exists_print_end` — a printed tree ends in its last scalar or in a brace;
* `trimEnd_eq_nextLine_iff` — trimming touches nothing but the end of the last line exactly if a
  text ends visibly;
* `document_eq_nextLine_iff` — for a tree this is the case exactly if the end of its last scalar is
  kept;
* **`parse_printed`** — the printed tree is read back, and the document is if it is not trimmed;
* `line_feed_lost` — a document that is trimmed and read as another tree.
-/

namespace LayeredConfig.Yaml

variable {text : Text} {n k : Nat}

/-! ## The end of a printed tree -/

mutual

/-- The scalar that a node ends in, unless it ends in a branch without entries. -/
def lastScalar? : LayeredConfig.Node → Option Text
  | .scalar text => some text
  | .branch entries => lastScalarOf? entries

/-- The scalar that entries end in. -/
def lastScalarOf? : List (Text × LayeredConfig.Node) → Option Text
  | [] => none
  | [(_, node)] => lastScalar? node
  | _ :: entry :: entries => lastScalarOf? (entry :: entries)

end

/-- What stands at the end of a printed node. -/
def printedEnd (n : Nat) : Option Text → Text
  | some text => printScalar n text
  | none => ['}']

mutual

theorem exists_printValue_end (k : Nat) (marked : Bool) : ∀ node : LayeredConfig.Node,
    ∃ front n, printValue k marked node = front ++ printedEnd n (lastScalar? node)
  | .scalar text => ⟨[' '], k + 2, rfl⟩
  | .branch [] => ⟨[' ', '{'], 0, rfl⟩
  | .branch (entry :: entries) => by
    obtain ⟨front, n, hend⟩ :=
      exists_printEntries_end (k + 2) (entry :: entries) (List.cons_ne_nil _ _)
    rw [printValue, hend, lastScalar?]
    exact ⟨_ ++ front, n, by rw [List.append_assoc]⟩

theorem exists_printEntries_end (k : Nat) : ∀ entries : List (Text × LayeredConfig.Node),
    entries ≠ [] → ∃ front n, printEntries k entries = front ++ printedEnd n (lastScalarOf? entries)
  | [], hne => absurd rfl hne
  | [(key, node)], _ => by
    obtain ⟨front, n, hend⟩ := exists_printValue_end k (needsKeyMark key) node
    rw [printEntries_one, hend, lastScalarOf?]
    exact ⟨printKey k key ++ ':' :: front, n, by simp⟩
  | (key, node) :: entry :: entries, _ => by
    obtain ⟨front, n, hend⟩ := exists_printEntries_end k (entry :: entries) (List.cons_ne_nil _ _)
    rw [printEntries_more, hend, lastScalarOf?]
    exact ⟨printKey k key ++ ':' :: (printValue k (needsKeyMark key) node ++
      (lineEnd (printValue k (needsKeyMark key) node) ++ (spaces k ++ front))), n, by simp⟩

end

theorem exists_print_end (tree : Tree) :
    ∃ front n, print tree = front ++ printedEnd n (lastScalar? (.branch tree)) := by
  cases tree with
  | nil => exact ⟨['{'], 0, rfl⟩
  | cons entry entries => exact exists_printEntries_end 0 (entry :: entries) (List.cons_ne_nil _ _)

/-! ## What trimming the end leaves -/

/-- Whether a text ends in a character that is not trimmed, or in one line feed behind it. -/
def EndsVisibly (text : Text) : Prop :=
  ∃ kept last, Text.isWhiteSpace last = false ∧
    (text = kept ++ [last] ∨ text = kept ++ [last] ++ ['\n'])

theorem EndsVisibly.append (front : Text) (h : EndsVisibly text) : EndsVisibly (front ++ text) := by
  obtain ⟨kept, last, hlast, rfl | rfl⟩ := h
  · exact ⟨front ++ kept, last, hlast, Or.inl (by simp)⟩
  · exact ⟨front ++ kept, last, hlast, Or.inr (by simp)⟩

theorem isBreak_of_isWhiteSpace {c : Char} (h : Text.isWhiteSpace c = false) :
    isBreak c = false := by
  by_contra hbreak
  rcases eq_of_isBreak (by simpa using hbreak) with rfl | rfl | rfl | rfl | rfl <;>
    exact absurd h (by decide)

/-- Trimming a text and ending its line only ends its line exactly if the text ends visibly. -/
theorem trimEnd_eq_nextLine_iff (hvisible : ∃ c ∈ text, Text.isWhiteSpace c = false) :
    Text.trimEnd Text.isWhiteSpace text ++ ['\n'] = nextLine 0 text ↔ EndsVisibly text := by
  rw [nextLine_eq, spaces, List.replicate_zero, List.append_nil]
  constructor
  · intro h
    obtain ⟨tail, htext, htail, hkept⟩ := Text.exists_trimEnd Text.isWhiteSpace text
    obtain ⟨kept, last, hlast⟩ : ∃ kept last,
        Text.trimEnd Text.isWhiteSpace text = kept ++ [last] := by
      rcases List.eq_nil_or_concat' (Text.trimEnd Text.isWhiteSpace text) with hnil | hconcat
      · obtain ⟨c, hc, hspace⟩ := hvisible
        rw [hnil, List.nil_append] at htext
        exact absurd (htail c (htext ▸ hc)) (by simp [hspace])
      · exact hconcat
    rw [hlast] at h hkept
    refine ⟨kept, last, hkept last (List.getLast?_concat ..), ?_⟩
    unfold lineEnd at h
    split_ifs at h
    · exact Or.inr (by simpa using h.symm)
    · exact Or.inl (List.append_cancel_right h).symm
  · rintro ⟨kept, last, hlast, htext⟩
    have hend : ∀ c, (kept ++ [last]).getLast? = some c → Text.isWhiteSpace c = false := by
      intro c hc
      rw [List.getLast?_concat] at hc
      exact Option.some.inj hc ▸ hlast
    have hline : ∀ c ∈ (kept ++ [last]).getLast?, isBreak c = false :=
      fun c hc => isBreak_of_isWhiteSpace (hend c hc)
    rcases htext with rfl | rfl
    · rw [Text.trimEnd_self hend, lineEnd_of_word hline]
    · rw [Text.trimEnd_append hend (by simp [Text.isWhiteSpace]), lineEnd_append _ (List.cons_ne_nil _ _)]
      simp [lineEnd, isBreak]

/-! ## Strings whose end is kept -/

/-- Whether a string is printed in a way that trimming does not touch: between quotes, or with a
character at its end that is not trimmed, or with one line feed behind it. -/
def EndKept (text : Text) : Prop :=
  scalarStyle text = .singleQuoted ∨ scalarStyle text = .doubleQuoted ∨ EndsVisibly text

theorem literalRest_feed (indent : Nat) (newLine : Bool) (text : Text) :
    literalRest indent newLine (text ++ ['\n']) = literalRest indent newLine text ++ ['\n'] := by
  induction text generalizing newLine with
  | nil => rfl
  | cons c rest ih =>
    rw [List.cons_append, literalRest, literalRest, ih, ih]
    split_ifs <;> simp

/-- The block of a text ends like the text. -/
theorem getLast?_block (front : Text) (indent : Nat) (hne : text ≠ []) :
    (front ++ '\n' :: literalRest indent true text).getLast? = text.getLast? := by
  obtain ⟨kept, last, rfl⟩ := (List.eq_nil_or_concat' text).resolve_left hne
  rw [List.getLast?_append, List.getLast?_cons, getLast?_literalRest, List.getLast?_concat]
  rfl

theorem exists_concat_of_getLast? {c : Char} (h : text.getLast? = some c) :
    ∃ kept, text = kept ++ [c] :=
  ⟨text.dropLast, (List.dropLast_append_getLast? c h).symm⟩

/-- The header of a block is no visible end, since a line feed stands behind it. -/
theorem endsVisibly_block_iff (front : Text) (indent : Nat) (hne : text ≠ []) :
    EndsVisibly (front ++ '\n' :: literalRest indent true text) ↔ EndsVisibly text := by
  constructor
  · rintro ⟨kept, last, hlast, hshown⟩
    have hend := getLast?_block front indent hne
    rcases hshown with hshown | hshown <;> rw [hshown, List.getLast?_concat] at hend
    · obtain ⟨rest, rfl⟩ := exists_concat_of_getLast? hend.symm
      exact ⟨rest, last, hlast, Or.inl rfl⟩
    · obtain ⟨rest, rfl⟩ := exists_concat_of_getLast? hend.symm
      rw [literalRest_feed, ← List.cons_append, ← List.append_assoc] at hshown
      have hshown := List.append_cancel_right hshown
      rcases eq_or_ne rest [] with rfl | hrest
      · have hfeed : '\n' = last := by
          simpa [literalRest] using congrArg List.getLast? hshown
        exact absurd hlast (by simp [← hfeed, Text.isWhiteSpace])
      · have hend := getLast?_block front indent hrest
        rw [hshown, List.getLast?_concat] at hend
        obtain ⟨rest, rfl⟩ := exists_concat_of_getLast? hend.symm
        exact ⟨rest, last, hlast, Or.inr rfl⟩
  · rintro ⟨kept, last, hlast, htext⟩
    have hend := getLast?_block front indent (List.concat_ne_nil last kept)
    rw [List.getLast?_concat] at hend
    obtain ⟨rest, hrest⟩ := exists_concat_of_getLast? hend
    rcases htext with rfl | rfl
    · exact ⟨rest, last, hlast, Or.inl hrest⟩
    · refine ⟨rest, last, hlast, Or.inr ?_⟩
      rw [literalRest_feed, ← List.cons_append, ← List.append_assoc, hrest]

theorem endsVisibly_append_printScalar_iff (front : Text) (n : Nat) :
    EndsVisibly (front ++ printScalar n text) ↔ EndKept text := by
  unfold printScalar EndKept
  cases hstyle : scalarStyle text with
  | plain =>
    have hplain := plainText_of_scalarStyle hstyle
    have hend : (front ++ text).getLast? = text.getLast? := by
      rw [List.getLast?_append_of_ne_nil _ hplain.ne_nil]
    have hiff : EndsVisibly (front ++ text) ↔ EndsVisibly text := by
      refine ⟨?_, EndsVisibly.append front⟩
      rintro ⟨kept, last, hlast, hshown⟩
      rcases hshown with hshown | hshown <;> rw [hshown, List.getLast?_concat] at hend
      · obtain ⟨rest, rfl⟩ := exists_concat_of_getLast? hend.symm
        exact ⟨rest, last, hlast, Or.inl rfl⟩
      · exact absurd (hplain.unbroken _ (List.mem_of_getLast? hend.symm)) (by decide)
    simpa using hiff
  | singleQuoted =>
    exact ⟨fun _ => Or.inl rfl, fun _ => ⟨_, '\'', by decide, Or.inl (List.append_assoc ..).symm⟩⟩
  | doubleQuoted =>
    exact ⟨fun _ => Or.inr (Or.inl rfl),
      fun _ => ⟨_, '"', by decide, Or.inl (List.append_assoc ..).symm⟩⟩
  | literal =>
    have hne : text ≠ [] := List.ne_nil_of_mem (showable_of_scalarStyle hstyle).2
    rw [← List.append_assoc, endsVisibly_block_iff _ n hne]
    simp

theorem colon_mem_printEntries (k : Nat) (entry : Text × LayeredConfig.Node)
    (entries : List (Text × LayeredConfig.Node)) : ':' ∈ printEntries k (entry :: entries) := by
  obtain ⟨key, node⟩ := entry
  cases entries with
  | nil => simp [printEntries_one]
  | cons entry entries => simp [printEntries_more]

/-- A tree is not trimmed exactly if the end of its last scalar is kept. -/
theorem document_eq_nextLine_iff (tree : Tree) :
    OutputFormat.yaml.document tree = nextLine 0 (print tree) ↔
      ∀ text, lastScalar? (.branch tree) = some text → EndKept text := by
  have hvisible : ∃ c ∈ print tree, Text.isWhiteSpace c = false := by
    cases tree with
    | nil => exact ⟨'{', by decide, by decide⟩
    | cons entry entries => exact ⟨':', colon_mem_printEntries 0 entry entries, by decide⟩
  obtain ⟨front, n, hprint⟩ := exists_print_end tree
  rw [OutputFormat.document, show OutputFormat.yaml.print tree = print tree from rfl,
    trimEnd_eq_nextLine_iff hvisible, hprint]
  cases hlast : lastScalar? (.branch tree) with
  | none => exact ⟨by simp, fun _ => ⟨front, '}', by decide, Or.inl rfl⟩⟩
  | some text =>
    rw [printedEnd, endsVisibly_append_printScalar_iff]
    exact ⟨by rintro h _ ⟨⟩; exact h, fun h => h text rfl⟩

/-! ## The round trip -/

/-- **YAML output reads back.**  What is printed for a tree is read back, whatever the strings of
the tree are, if it has at most 128 levels.  The document of the tree is that text exactly if the
end of the last scalar is kept, and then it is read back as well. -/
theorem parse_printed {tree : Tree} (hsorted : tree.Sorted) (hlevels : tree.levels ≤ deepest)
    (file : Text) :
    FileFormat.yaml.parse file (nextLine 0 (print tree)) = .ok tree ∧
      (OutputFormat.yaml.document tree = nextLine 0 (print tree) ↔
        ∀ text, lastScalar? (.branch tree) = some text → EndKept text) ∧
      ((∀ text, lastScalar? (.branch tree) = some text → EndKept text) →
        FileFormat.yaml.parse file (OutputFormat.yaml.document tree) = .ok tree) := by
  have hread : FileFormat.yaml.parse file (nextLine 0 (print tree)) = .ok tree :=
    parse_of_tokens file (tokens?_print tree) hsorted hlevels
  have hdocument := document_eq_nextLine_iff tree
  exact ⟨hread, hdocument, fun hlast => (hdocument.mpr hlast).symm ▸ hread⟩

/-- A tree with an empty key, a string that looks like a number, a key with a line break, an empty
branch and a string that ends in a line break. -/
def awkwardTree : Tree :=
  [([], .scalar ['1']),
    (['?', '\n'], .branch [(['a'], .branch []), (['b'], .scalar ['x', '\n'])])]

theorem parse_printed_awkward :
    awkwardTree.Sorted ∧ awkwardTree.levels ≤ deepest ∧
      (∀ text, lastScalar? (.branch awkwardTree) = some text → EndKept text) ∧
        FileFormat.yaml.parse ['m'] (nextLine 0 (print awkwardTree)) = .ok awkwardTree ∧
          FileFormat.yaml.parse ['m'] (OutputFormat.yaml.document awkwardTree) =
            .ok awkwardTree := by
  have hend : ∀ text, lastScalar? (.branch awkwardTree) = some text → EndKept text := by
    rintro _ ⟨⟩
    exact Or.inr (Or.inr ⟨[], 'x', by decide, Or.inr rfl⟩)
  obtain ⟨hprinted, -, hdocument⟩ :=
    parse_printed (show awkwardTree.Sorted by decide) (by decide) ['m']
  exact ⟨by decide, by decide, hend, hprinted, hdocument hend⟩

/-- A tree with a string that ends in line feeds. -/
def endingTree (feeds : Nat) : Tree :=
  [(['a'], .scalar ('x' :: List.replicate feeds '\n'))]

/-- The second of two line feeds is lost. -/
theorem line_feed_lost :
    (endingTree 2).Sorted ∧ (endingTree 2).levels ≤ 127 ∧
      FileFormat.yaml.parse ['m'] (OutputFormat.yaml.document (endingTree 2)) =
        .ok (endingTree 1) ∧ endingTree 1 ≠ endingTree 2 := by
  have hread : tokens? (OutputFormat.yaml.document (endingTree 2)) =
      some [.blockMappingStart, .key, .scalar true ['a'], .value, .scalar false ['x', '\n'],
        .blockEnd] := by
    decide +kernel
  have htokens : nodeTokens (.branch (endingTree 1)) =
      [.blockMappingStart, .key, .scalar true ['a'], .value, .scalar false ['x', '\n'],
        .blockEnd] := by
    decide +kernel
  exact ⟨by decide, by decide, parse_of_tokens ['m'] (hread.trans (congrArg some htokens.symm))
    (by decide) (by decide), by simp [endingTree]⟩

end LayeredConfig.Yaml
