import LayeredConfig.Proofs.Yaml.ScalarTokens

/-!
# The tokens of a printed tree

The lexer reads what is printed for a tree as the tokens of the tree: a scalar is one token, a
branch is its entries between the ends of a block, and each entry has a token before its key and one
before its value.  `ReadsValue` and `ReadsEntries` say so of a node and of entries anywhere in a
text; there is one lemma for each kind of node, and `readsValue` and `readsEntries` put them
together along the tree.  Main statements:

* **`readsValue`**, **`readsEntries`** — every value and all entries are read as their tokens;
* **`tokens?_print`** — a printed tree with its line ended has the tokens of the tree.
-/

namespace LayeredConfig.Yaml

variable {c : Char} {text rest next tail : Text} {place : Place} {k n : Nat} {emitted : List Token}
  {indent : Int} {outers : List Int}

/-! ## The shape of what is printed -/

theorem printValue_ne_nil (marked : Bool) (node : LayeredConfig.Node) :
    printValue k marked node ≠ [] := by
  match node with
  | .scalar text => rw [printValue]; exact List.cons_ne_nil _ _
  | .branch [] => rw [printValue]; exact List.cons_ne_nil _ _
  | .branch (entry :: entries) => cases marked <;> simp [printValue]

theorem wordEnds_printValue (marked : Bool) (node : LayeredConfig.Node) :
    wordEnds (printValue k marked node ++ tail) = true := by
  match node with
  | .scalar text => rw [printValue]; rfl
  | .branch [] => rw [printValue]; rfl
  | .branch (entry :: entries) => cases marked <;> rw [printValue] <;> rfl

theorem printEntries_one (key : Text) (node : LayeredConfig.Node) :
    printEntries k [(key, node)] =
      printKey k key ++ ':' :: printValue k (needsKeyMark key) node := by
  rw [printEntries]
  rfl

theorem printEntries_more (key : Text) (node : LayeredConfig.Node)
    (entry : Text × LayeredConfig.Node) (entries : List (Text × LayeredConfig.Node)) :
    printEntries k ((key, node) :: entry :: entries) =
      printKey k key ++ ':' :: (printValue k (needsKeyMark key) node ++
        (lineEnd (printValue k (needsKeyMark key) node) ++
          (spaces k ++ printEntries k (entry :: entries)))) := by
  have hend : lineEnd (printKey k key ++ ':' :: printValue k (needsKeyMark key) node) =
      lineEnd (printValue k (needsKeyMark key) node) := by
    have h := lineEnd_append (printKey k key ++ [':'])
      (printValue_ne_nil (k := k) (needsKeyMark key) node)
    rwa [List.append_assoc] at h
  rw [printEntries]
  show nextLine k (printKey k key ++ ':' :: printValue k (needsKeyMark key) node) ++ _ = _
  rw [nextLine_eq, hend]
  simp

theorem printEntries_ne_nil (entry : Text × LayeredConfig.Node)
    (entries : List (Text × LayeredConfig.Node)) : printEntries k (entry :: entries) ≠ [] := by
  obtain ⟨key, node⟩ := entry
  cases entries with
  | nil => simp [printEntries_one]
  | cons entry entries => simp [printEntries_more]

theorem startsToken_printKey (key : Text) : StartsToken (printKey k key ++ rest) := by
  unfold printKey
  split_ifs
  · exact startsToken_cons_iff.mpr (by decide)
  · exact startsToken_printScalar _ _ _

theorem startsToken_printEntries (entry : Text × LayeredConfig.Node)
    (entries : List (Text × LayeredConfig.Node)) :
    StartsToken (printEntries k (entry :: entries) ++ rest) := by
  obtain ⟨key, node⟩ := entry
  cases entries with
  | nil =>
    rw [printEntries_one, List.append_assoc]
    exact startsToken_printKey key
  | cons entry entries =>
    rw [printEntries_more, List.append_assoc]
    exact startsToken_printKey key

/-! ## Tokens -/

mutual

/-- The tokens of a printed node. -/
def nodeTokens : LayeredConfig.Node → List Token
  | .scalar text => [scalarToken text]
  | .branch [] => [.flowMappingStart, .flowMappingEnd]
  | .branch (entry :: entries) =>
    .blockMappingStart :: (entryTokens (entry :: entries) ++ [.blockEnd])

/-- The tokens of printed entries. -/
def entryTokens : List (Text × LayeredConfig.Node) → List Token
  | [] => []
  | (key, node) :: rest =>
    .key :: scalarToken key :: .value :: (nodeTokens node ++ entryTokens rest)

end

namespace Lexer

/-- A mapping begins on the next line, or behind the colon of a marked key. -/
theorem leads_branchStart {marked : Bool} (emitted : List Token) (outers : List Int)
    (hcolumn : k < place.column) (hmarked : marked = true → place.column = k + 1)
    (hrest : StartsToken rest) :
    ∃ place' : Place, place'.column = k + 2 ∧
      Leads (stand place ((if marked then [' '] else '\n' :: spaces (k + 2)) ++ rest) emitted k
          outers marked)
        (ready place' rest emitted k outers) := by
  cases marked with
  | true =>
    have hafter : (place.after [' ']).column = k + 2 := by
      show place.column + 1 = k + 2
      rw [hmarked rfl]
    have hspace : (stand place (' ' :: rest) emitted k outers true).toNextToken =
        some (ready (place.after [' ']) rest emitted k outers) :=
      toNextToken_space hrest (by omega)
    have hready : (ready (place.after [' ']) rest emitted k outers).toNextToken =
        some (ready (place.after [' ']) rest emitted k outers) :=
      toNextToken_stand hrest (show (k : Int) ≤ ((place.column + 1 : Nat) : Int) by omega)
    exact ⟨_, hafter, Leads.of_toNextToken_eq (hspace.trans hready.symm) (Nat.le_succ _)⟩
  | false =>
    have hline : Leads
        (behind place [] ('\n' :: (spaces (k + 2) ++ rest)) [] emitted k outers false false)
        (ready (place.after ([] ++ '\n' :: spaces (k + 2))) rest ([] ++ emitted) k outers) :=
      leads_nextLine (by simp) hrest (by omega)
    exact ⟨_, (Place.after_newLine place (k + 2) (List.not_mem_nil : '\r' ∉ ([] : Text))
      (show isBreak '\n' = true by decide) (by decide)).1, hline⟩

/-- Whether what is printed for a node behind its key is read as the tokens of the node, up to what
stands on the next line. -/
def ReadsValue (k : Nat) (marked : Bool) (node : LayeredConfig.Node) : Prop :=
  ∀ (place : Place) (n : Nat) (next : Text) (emitted : List Token) (outers : List Int),
    k < place.column → (marked = true → place.column = k + 1) → n ≤ k → StartsToken next →
      ∃ place' : Place, place'.column = n ∧
        Leads (stand place (printValue k marked node ++
            (lineEnd (printValue k marked node) ++ (spaces n ++ next))) emitted k outers marked)
          (ready place' next ((nodeTokens node).reverse ++ emitted) k outers)

/-- Whether what is printed for entries is read as their tokens, up to what stands on the next
line. -/
def ReadsEntries (k : Nat) (entries : List (Text × LayeredConfig.Node)) : Prop :=
  ∀ (place : Place) (n : Nat) (next : Text) (emitted : List Token) (indent : Int)
      (outers : List Int),
    place.column = k → indent ≤ k → n ≤ k → StartsToken next →
      ∃ place' : Place, place'.column = n ∧
        Leads (ready place (printEntries k entries ++
            (lineEnd (printEntries k entries) ++ (spaces n ++ next))) emitted indent outers)
          (ready place' next ((entryTokens entries).reverse ++ openedTokens indent k emitted) k
            (openedOuters indent k outers))

theorem ReadsValue.scalar (k : Nat) (marked : Bool) (text : Text) :
    ReadsValue k marked (.scalar text) := by
  intro place n next emitted outers hcolumn _ hn hnext
  have hend : lineEnd (' ' :: printScalar (k + 2) text) = lineEnd (printScalar (k + 2) text) :=
    lineEnd_append [' '] (printScalar_ne_nil _ _)
  rw [printValue, hend, nodeTokens]
  exact leads_scalar text emitted outers marked hcolumn hn hnext

theorem ReadsValue.emptyBranch (k : Nat) (marked : Bool) : ReadsValue k marked (.branch []) := by
  intro place n next emitted outers hcolumn _ _ hnext
  rw [printValue, nodeTokens]
  exact leads_emptyBranch hcolumn hnext

/-- The block of a nested mapping begins two columns further to the right, and what stands on the
next line ends it. -/
theorem ReadsEntries.branch (marked : Bool) {entry : Text × LayeredConfig.Node}
    {entries : List (Text × LayeredConfig.Node)}
    (h : ReadsEntries (k + 2) (entry :: entries)) :
    ReadsValue k marked (.branch (entry :: entries)) := by
  intro place n next emitted outers hcolumn hmarked hn hnext
  obtain ⟨shown, hshown⟩ : ∃ shown, printEntries (k + 2) (entry :: entries) = shown := ⟨_, rfl⟩
  have hend : lineEnd (printValue k marked (.branch (entry :: entries))) = lineEnd shown := by
    rw [printValue, hshown]
    exact lineEnd_append _ (hshown ▸ printEntries_ne_nil _ _)
  have hstarts : StartsToken (shown ++ (lineEnd shown ++ (spaces n ++ next))) :=
    hshown ▸ startsToken_printEntries _ _
  obtain ⟨place₁, hplace₁, hstart⟩ := leads_branchStart emitted outers hcolumn hmarked hstarts
  obtain ⟨place₂, hplace₂, hentries⟩ := h place₁ n next emitted k outers hplace₁ (by omega)
    (Nat.le_add_right_of_le hn) hnext
  have hopened : (k : Int) < (k + 2 : Nat) := by omega
  rw [openedTokens, if_pos hopened, openedOuters, if_pos hopened, hshown] at hentries
  have hclose : Leads
      (ready place₂ next ((entryTokens (entry :: entries)).reverse ++
        .blockMappingStart :: emitted) (k + 2 : Nat) (k :: outers))
      (ready place₂ next (.blockEnd :: ((entryTokens (entry :: entries)).reverse ++
        .blockMappingStart :: emitted)) k outers) :=
    Leads.of_toNextToken_eq (toNextToken_blockEnd hnext (by omega)) le_rfl
  refine ⟨place₂, hplace₂, ?_⟩
  rw [hend, nodeTokens, printValue, hshown]
  simpa using (hstart.trans hentries).trans hclose

/-- A key and its value. -/
theorem ReadsValue.entry {key : Text} {node : LayeredConfig.Node} {next : Text}
    (h : ReadsValue k (needsKeyMark key) node) (hplace : place.column = k) (hcolumn : indent ≤ k)
    (hn : n ≤ k) (hnext : StartsToken next) :
    ∃ place' : Place, place'.column = n ∧
      Leads (ready place (printKey k key ++ ':' :: (printValue k (needsKeyMark key) node ++
          (lineEnd (printValue k (needsKeyMark key) node) ++ (spaces n ++ next)))) emitted indent
            outers)
        (ready place' next
          ((nodeTokens node).reverse ++ .value :: scalarToken key :: .key ::
            openedTokens indent k emitted) k (openedOuters indent k outers)) := by
  obtain ⟨place₁, hbehind, hmarked, hkey⟩ := leads_printKey key hplace hcolumn
    (wordEnds_printValue (needsKeyMark key) node)
  obtain ⟨place₂, hplace₂, hvalue⟩ := h place₁ n next
    (.value :: scalarToken key :: .key :: openedTokens indent k emitted)
    (openedOuters indent k outers) hbehind hmarked hn hnext
  exact ⟨place₂, hplace₂, hkey.trans hvalue⟩

theorem ReadsValue.one {key : Text} {node : LayeredConfig.Node}
    (h : ReadsValue k (needsKeyMark key) node) : ReadsEntries k [(key, node)] := by
  intro place n next emitted indent outers hplace hcolumn hn hnext
  have hend : lineEnd (printEntries k [(key, node)]) =
      lineEnd (printValue k (needsKeyMark key) node) := by
    rw [printEntries_one, ← List.singleton_append, ← List.append_assoc]
    exact lineEnd_append _ (printValue_ne_nil _ _)
  obtain ⟨place', hplace', hentry⟩ := h.entry hplace hcolumn hn hnext
  refine ⟨place', hplace', ?_⟩
  rw [hend, printEntries_one, entryTokens, entryTokens]
  simpa using hentry

theorem ReadsEntries.cons {key : Text} {node : LayeredConfig.Node}
    {entry : Text × LayeredConfig.Node} {entries : List (Text × LayeredConfig.Node)}
    (hnode : ReadsValue k (needsKeyMark key) node) (hrest : ReadsEntries k (entry :: entries)) :
    ReadsEntries k ((key, node) :: entry :: entries) := by
  intro place n next emitted indent outers hplace hcolumn hn hnext
  have hend : lineEnd (printEntries k ((key, node) :: entry :: entries)) =
      lineEnd (printEntries k (entry :: entries)) := by
    rw [printEntries_more]
    simp only [← List.append_assoc, ← List.cons_append]
    exact lineEnd_append _ (printEntries_ne_nil _ _)
  obtain ⟨place₁, hplace₁, hentry⟩ := hnode.entry hplace hcolumn (le_refl k)
    (startsToken_printEntries entry entries)
  obtain ⟨place₂, hplace₂, hentries⟩ := hrest place₁ n next
    ((nodeTokens node).reverse ++ .value :: scalarToken key :: .key ::
      openedTokens indent k emitted) k (openedOuters indent k outers) hplace₁ (Int.le_refl _) hn
    hnext
  rw [openedTokens_self, openedOuters_self] at hentries
  refine ⟨place₂, hplace₂, ?_⟩
  rw [hend, printEntries_more, entryTokens]
  simpa using hentry.trans hentries

mutual

/-- **The value of a key is read as its tokens.** -/
theorem readsValue (k : Nat) (marked : Bool) :
    (node : LayeredConfig.Node) → ReadsValue k marked node
  | .scalar text => .scalar k marked text
  | .branch [] => .emptyBranch k marked
  | .branch (entry :: entries) =>
    (readsEntries (k + 2) (entry :: entries) (List.cons_ne_nil _ _)).branch marked

/-- **The entries of a mapping are read as their tokens.** -/
theorem readsEntries (k : Nat) :
    (entries : List (Text × LayeredConfig.Node)) → entries ≠ [] → ReadsEntries k entries
  | [], hne => absurd rfl hne
  | [(key, node)], _ => (readsValue k (needsKeyMark key) node).one
  | (key, node) :: entry :: entries, _ =>
    .cons (readsValue k (needsKeyMark key) node)
      (readsEntries k (entry :: entries) (List.cons_ne_nil _ _))

end

end Lexer

/-! ## The whole text -/

theorem isPrintable_spaces (hc : c ∈ spaces k) : isPrintable c = true := by
  obtain rfl := List.eq_of_mem_replicate hc
  decide

theorem isPrintable_lineEnd (hc : c ∈ lineEnd text) : isPrintable c = true := by
  unfold lineEnd at hc
  split_ifs at hc
  · simp at hc
  · obtain rfl := List.mem_singleton.mp hc
    decide

theorem isPrintable_nextLine (htext : ∀ c ∈ text, isPrintable c = true) :
    ∀ c ∈ nextLine k text, isPrintable c = true := by
  intro c hc
  rw [nextLine_eq, List.mem_append, List.mem_append] at hc
  rcases hc with (hc | hc) | hc
  exacts [htext c hc, isPrintable_lineEnd hc, isPrintable_spaces hc]

theorem isPrintable_printKey (key : Text) : ∀ c ∈ printKey k key, isPrintable c = true := by
  unfold printKey
  split_ifs
  · refine isPrintable_nextLine fun c hc => ?_
    rcases List.mem_cons.mp hc with rfl | hc
    · decide
    rcases List.mem_cons.mp hc with rfl | hc
    · decide
    exact isPrintable_printScalar c hc
  · exact isPrintable_printScalar

mutual

theorem isPrintable_printValue (k : Nat) (marked : Bool) :
    (node : LayeredConfig.Node) → ∀ c ∈ printValue k marked node, isPrintable c = true
  | .scalar text => by
    rw [printValue]
    exact List.forall_mem_cons.mpr ⟨by decide, isPrintable_printScalar⟩
  | .branch [] => by
    have hshown : isPrintable ' ' = true ∧ isPrintable '{' = true ∧ isPrintable '}' = true := by
      decide
    simpa [printValue] using hshown
  | .branch (entry :: entries) => by
    rw [printValue]
    intro c hc
    rcases List.mem_append.mp hc with hc | hc
    · cases marked with
      | true =>
        obtain rfl := List.mem_singleton.mp hc
        decide
      | false =>
        rcases List.mem_cons.mp hc with rfl | hc
        · decide
        · exact isPrintable_spaces hc
    · exact isPrintable_printEntries (k + 2) (entry :: entries) c hc

theorem isPrintable_printEntries (k : Nat) :
    (entries : List (Text × LayeredConfig.Node)) →
      ∀ c ∈ printEntries k entries, isPrintable c = true
  | [] => by simp [printEntries]
  | [(key, node)] => by
    rw [printEntries_one]
    intro c hc
    rcases List.mem_append.mp hc with hc | hc
    · exact isPrintable_printKey key c hc
    rcases List.mem_cons.mp hc with rfl | hc
    · decide
    · exact isPrintable_printValue k (needsKeyMark key) node c hc
  | (key, node) :: entry :: entries => by
    rw [printEntries_more]
    intro c hc
    simp only [List.mem_append, List.mem_cons] at hc
    rcases hc with hc | rfl | hc | hc | hc | hc
    · exact isPrintable_printKey key c hc
    · decide
    · exact isPrintable_printValue k (needsKeyMark key) node c hc
    · exact isPrintable_lineEnd hc
    · exact isPrintable_spaces hc
    · exact isPrintable_printEntries k (entry :: entries) c hc

end

theorem start_eq (htext : ∀ c ∈ text, isPrintable c = true) :
    Lexer.start text = Lexer.ready ⟨0, 0, 0⟩ text [] (-1) [] := by
  unfold Lexer.start
  split
  · exact absurd (htext '\uFEFF' List.mem_cons_self) (by decide)
  · rfl

/-- **A printed tree has the tokens of the tree**, once its last line is ended. -/
theorem tokens?_print (tree : Tree) :
    tokens? (nextLine 0 (print tree)) = some (nodeTokens (.branch tree)) := by
  cases tree with
  | nil => rfl
  | cons entry entries =>
    show tokens? (nextLine 0 (printEntries 0 (entry :: entries))) = _
    have hprintable : ∀ c ∈ nextLine 0 (printEntries 0 (entry :: entries)), isPrintable c = true :=
      isPrintable_nextLine (isPrintable_printEntries 0 _)
    have htext : nextLine 0 (printEntries 0 (entry :: entries)) =
        printEntries 0 (entry :: entries) ++
          (lineEnd (printEntries 0 (entry :: entries)) ++ (spaces 0 ++ [])) := by
      rw [nextLine_eq, List.append_assoc, List.append_nil]
    obtain ⟨place, -, hleads⟩ := Lexer.readsEntries 0 (entry :: entries) (List.cons_ne_nil _ _)
      ⟨0, 0, 0⟩ 0 [] [] (-1) [] rfl (by decide) le_rfl startsToken_nil
    obtain ⟨fuel, hfuel, hrun⟩ := hleads _ (Nat.lt_succ_self _)
    obtain ⟨fuel, rfl⟩ := Nat.exists_eq_succ_of_ne_zero (Nat.ne_of_gt (Nat.zero_lt_of_lt hfuel))
    have hall : (nextLine 0 (printEntries 0 (entry :: entries))).all isAllowed = true :=
      List.all_eq_true.mpr fun c hc => isAllowed_of_isPrintable (hprintable c hc)
    rw [tokens?, if_pos hall, start_eq hprintable, htext]
    refine hrun.trans (Lexer.run_end.trans ?_)
    simp [nodeTokens, Lexer.openedTokens]

end LayeredConfig.Yaml
