import LayeredConfig.Proofs.Yaml.Literal
import LayeredConfig.Proofs.Yaml.Styles

/-!
# A printed string is one token

The lexer reads what is printed for a string as one token, wherever it is printed: behind a colon,
as a key, or as a key behind its mark.  `Lexer.Reads` says what the token is that begins at a lexer,
with one lemma for each style of a string; from there the lexer is led to the next line.  Main
statements:

* **`leads_scalar`** — a printed string behind a space is one token, up to what stands on the next
  line;
* `leads_emptyBranch` — the same for a pair of braces;
* **`leads_printKey`** — a printed key with its colon is a key token, the string and a value token,
  with the start of a block mapping before them where none is open.
-/

namespace LayeredConfig.Yaml

/-- The token of a printed string. -/
def scalarToken (text : Text) : Token :=
  .scalar (decide (scalarStyle text = .plain)) text

/-- What is printed of a key before its colon. -/
def printKey (k : Nat) (key : Text) : Text :=
  if needsKeyMark key then nextLine k ('?' :: ' ' :: printScalar (k + 2) key)
  else printScalar (k + 2) key

/-- The place where the next line begins. -/
theorem Place.column_after_lineEnd (place : Place) (n : Nat) {shown : Text}
    (hprintable : ∀ c ∈ shown, isPrintable c = true) :
    (place.after (shown ++ (lineEnd shown ++ spaces n))).column = n := by
  have hreturn : ∀ c ∈ shown, c ≠ '\r' := fun c hc =>
    ne_of_isPrintable (hprintable c hc) (by decide)
  have hword : (∀ c ∈ shown.getLast?, isBreak c = false) →
      (place.after (shown ++ (lineEnd shown ++ spaces n))).column = n := by
    intro hword
    rw [lineEnd_of_word hword]
    exact (Place.after_newLine place n (fun h => hreturn _ h rfl) (by decide) (by decide)).1
  rcases List.eq_nil_or_concat' shown with rfl | ⟨front, c, rfl⟩
  · exact hword (by simp)
  · by_cases hc : isBreak c = true
    · rw [lineEnd_append front (List.cons_ne_nil c []), lineEnd_of_break (List.cons_ne_nil c [])
        (by simpa using hc), List.append_assoc]
      exact (Place.after_newLine place n (fun h => hreturn _ (List.mem_append_left _ h) rfl) hc
        (hreturn c (by simp))).1
    · exact hword (by simpa using hc)

namespace Lexer

variable {c : Char} {text key gap next tail : Text} {place : Place} {k n : Nat}
  {emitted : List Token} {indent : Int} {outers : List Int} {allowed : Bool} {a b m : Lexer}

/-- Whether reading the token that begins at one lexer leads to another one. -/
def Reads (a m : Lexer) : Prop :=
  ∃ c rest, a.rest = c :: rest ∧ a.readToken c rest = some m

theorem Leads.of_reads (hnext : a.toNextToken = some b) (hreads : Reads b m)
    (hlength : m.rest.length < a.rest.length) : Leads a m := by
  obtain ⟨c, rest, hrest, htoken⟩ := hreads
  exact Leads.of_token hnext hrest htoken hlength

/-! ## The styles -/

/-- What stands behind a printed string: nothing, a line break or the colon behind a key. -/
def EndsScalar (tail : Text) : Prop :=
  ∀ c ∈ tail.head?, c = ':' ∨ c = '\n'

theorem isPrefixOf_append {marker : Text} (htail : EndsScalar tail) (hcolon : ':' ∉ marker)
    (hfeed : '\n' ∉ marker) (h : marker.isPrefixOf text = false) :
    marker.isPrefixOf (text ++ tail) = false := by
  induction text generalizing marker with
  | nil =>
    cases marker with
    | nil => simp at h
    | cons s marker =>
      cases tail with
      | nil => rfl
      | cons d tail =>
        have hne : s ≠ d := by
          rintro rfl
          rcases htail s rfl with rfl | rfl <;> simp at hcolon hfeed
        simp [List.isPrefixOf, hne]
  | cons c text ih =>
    cases marker with
    | nil => simp at h
    | cons s marker =>
      simp only [List.mem_cons, not_or] at hcolon hfeed
      rw [List.cons_append, List.isPrefixOf, Bool.and_eq_false_iff]
      rw [List.isPrefixOf, Bool.and_eq_false_iff] at h
      exact h.imp_right (ih hcolon.2 hfeed.2)

theorem startsMarker_append (htail : EndsScalar tail) (h : startsMarker text = false) :
    startsMarker (text ++ tail) = false := by
  simp only [startsMarker, Bool.or_eq_false_iff] at h ⊢
  exact ⟨isPrefixOf_append htail (by decide) (by decide) h.1,
    isPrefixOf_append htail (by decide) (by decide) h.2⟩

/-- A plain text is read up to what stands behind it. -/
theorem reads_plain (gap : Text) {brokeOff : Bool} (hplain : PlainText text)
    (htail : EndsScalar (gap ++ next))
    (hend : plainFrom false (indent + 1) (place.column + text.length) .empty (gap ++ next) =
      some ⟨[], brokeOff, next⟩) (hindent : indent ≤ place.column) :
    Reads (stand place (text ++ (gap ++ next)) emitted indent outers allowed)
      (behind place (text ++ gap) next [.scalar true text] emitted indent outers allowed
        brokeOff) := by
  have happend : plainFrom false (indent + 1) place.column (.inline []) (text ++ (gap ++ next)) =
      (plainFrom false (indent + 1) (place.column + text.length) .empty (gap ++ next)).map
        (·.prepend ([] ++ text)) :=
    plainFrom_append hplain.printable hplain.unbroken hplain.hasInnerIndicator_eq
      hplain.noSpaceLast (fun _ => rfl) (by omega) (fun h => absurd rfl h)
  have hread : plainFrom false (indent + 1) place.column .empty (text ++ (gap ++ next)) =
      some ⟨text, brokeOff, next⟩ :=
    happend.trans (by rw [hend]; simp [PlainScalar.prepend])
  obtain ⟨c, rest, rfl⟩ := List.exists_cons_of_ne_nil hplain.ne_nil
  have hword : c = '-' ∨ c = '?' ∨ c = ':' → wordEnds (rest ++ (gap ++ next)) = false := by
    intro hc
    have hends := hplain.wordEnds_tail hc
    rw [wordEnds_append]
    · exact hends
    · rintro rfl
      exact absurd hends (by decide)
  refine ⟨c, rest ++ (gap ++ next), rfl, ?_⟩
  refine (readToken_plain hplain.isIndicator_head hplain.isSpace_head hword fun _ => ?_).trans
    (readPlain_eq (by simp) hread)
  exact startsMarker_append htail hplain.noMarker

/-- What follows a quoted text does not matter. -/
theorem reads_quoted (hstyle : scalarStyle text = .singleQuoted ∨ scalarStyle text = .doubleQuoted)
    (htail : EndsScalar tail) :
    Reads (stand place (printScalar (n + 1) text ++ tail) emitted indent outers allowed)
      (behind place (printScalar (n + 1) text) tail [scalarToken text] emitted indent outers allowed
        false) := by
  have hquote : tail.head? ≠ some '\'' := by
    intro hhead
    rcases htail _ hhead with h | h <;> exact absurd h (by decide)
  rcases hstyle with hstyle | hstyle
  · have hread : singleQuotedFrom (place.column + 1) .empty
        (singleQuotedRest (n + 1) false text ++ '\'' :: tail) = some (text, tail) :=
      singleQuotedFrom_rest (Nat.succ_pos n) hquote (quotable_of_scalarStyle hstyle) gapFits_empty
        (fun _ => Nat.succ_pos _)
    have hshown : printScalar (n + 1) text ++ tail =
        '\'' :: (singleQuotedRest (n + 1) false text ++ '\'' :: tail) := by
      simp [printScalar, hstyle]
    rw [scalarToken, hstyle, hshown]
    refine ⟨_, _, rfl, (readToken_singleQuoted hread).trans (readKeyable_eq ?_)⟩
    exact hshown.symm
  · have hread : doubleQuotedFrom (place.column + 1) (.inline [])
        (text.flatMap doubleQuotedChar ++ '"' :: tail) = some (text, tail) :=
      doubleQuotedFrom_flatMap text [] (Nat.succ_pos _)
    have hshown : printScalar (n + 1) text ++ tail =
        '"' :: (text.flatMap doubleQuotedChar ++ '"' :: tail) := by
      simp [printScalar, hstyle]
    rw [scalarToken, hstyle, hshown]
    refine ⟨_, _, rfl, (readToken_doubleQuoted hread).trans (readKeyable_eq ?_)⟩
    exact hshown.symm

theorem lineEnd_printScalar_literal (hstyle : scalarStyle text = .literal) :
    lineEnd (printScalar n text) = lineEnd text := by
  have hne : text ≠ [] := by
    rintro rfl
    exact absurd (showable_of_scalarStyle hstyle).2 (by simp)
  have hlast : (printScalar n text).getLast? = text.getLast? := by
    obtain ⟨c, rest, rfl⟩ := List.exists_cons_of_ne_nil hne
    simp only [printScalar, hstyle]
    rw [List.getLast?_append, List.getLast?_cons, getLast?_literalRest, List.getLast?_cons]
    rfl
  rw [lineEnd, lineEnd, hlast]

/-- A literal block ends on the line of what follows. -/
theorem reads_literal (hstyle : scalarStyle text = .literal) (hn : n ≤ k)
    (hnext : StartsToken next) :
    Reads (stand place (printScalar (k + 2) text ++
        (lineEnd (printScalar (k + 2) text) ++ (spaces n ++ next))) emitted k outers allowed)
      (ready (place.after (printScalar (k + 2) text ++
        (lineEnd (printScalar (k + 2) text) ++ spaces n))) next (scalarToken text :: emitted) k
        outers) := by
  obtain ⟨hshowable, hfeed⟩ := showable_of_scalarStyle hstyle
  have hread := blockScalar?_literal (List.ne_nil_of_mem hfeed) hshowable.printable hn hnext
  have hshown : printScalar (k + 2) text ++ (lineEnd text ++ (spaces n ++ next)) =
      '|' :: ((if startsIndented text then ['2'] else []) ++ chompingSign text ++
        '\n' :: (literalRest (k + 2) true text ++ (lineEnd text ++ (spaces n ++ next)))) := by
    simp [printScalar, hstyle]
  rw [scalarToken, hstyle, lineEnd_printScalar_literal hstyle, hshown]
  refine ⟨_, _, rfl, readToken_literal.trans (readBlockScalar_eq ?_ hread)⟩
  rw [← hshown]
  simp

/-! ## Values -/

theorem lineEnd_printScalar (hstyle : scalarStyle text ≠ .literal) :
    lineEnd (printScalar n text) = ['\n'] := by
  refine lineEnd_of_word fun c hc => ?_
  unfold printScalar at hc
  cases hscalar : scalarStyle text with
  | plain =>
    rw [hscalar] at hc
    exact (plainText_of_scalarStyle hscalar).unbroken c (List.mem_of_getLast? hc)
  | singleQuoted =>
    simp only [hscalar, List.getLast?_append, List.getLast?_singleton] at hc
    obtain rfl : '\'' = c := by simpa using hc
    decide
  | doubleQuoted =>
    simp only [hscalar, List.getLast?_append, List.getLast?_singleton] at hc
    obtain rfl : '"' = c := by simpa using hc
    decide
  | literal => exact absurd hscalar hstyle

/-- Behind the last token of a line the next line is read. -/
theorem leads_nextLine {tokens : List Token} {shown : Text} (hshown : '\r' ∉ shown)
    (hnext : StartsToken next) (hindent : indent ≠ place.column) :
    Leads
      (behind place shown ('\n' :: (spaces n ++ next)) tokens emitted indent outers allowed false)
      (ready (place.after (shown ++ '\n' :: spaces n)) next (tokens ++ emitted) indent outers) := by
  obtain ⟨-, hline⟩ := Place.after_newLine place n hshown (show isBreak '\n' = true by decide)
    (by decide)
  rw [Place.after_append hshown] at hline ⊢
  refine Leads.of_toNextToken_eq (toNextToken_behind ('\n' :: spaces n) (by simp [spaces])
    (Or.inr rfl) hnext hindent hline) ?_
  simp only [behind_rest, ready_rest, List.length_cons, List.length_append]
  omega

/-- A plain scalar passes over the line break behind it. -/
theorem leads_brokeOff {tokens : List Token} {shown : Text} (hshown : '\r' ∉ shown)
    (hnext : StartsToken next) (hindent : indent ≠ place.column) :
    Leads (behind place (shown ++ '\n' :: spaces n) next tokens emitted indent outers allowed true)
      (ready (place.after (shown ++ '\n' :: spaces n)) next (tokens ++ emitted) indent outers) := by
  obtain ⟨-, hline⟩ := Place.after_newLine place n hshown (show isBreak '\n' = true by decide)
    (by decide)
  exact Leads.of_toNextToken_eq (toNextToken_behind [] (by simp) (Or.inl rfl) hnext hindent
    hline) le_rfl

/-- **A printed string is read as one token**, up to what stands on the next line. -/
theorem leads_scalar (text : Text) (emitted : List Token) (outers : List Int) (allowed : Bool)
    (hcolumn : k < place.column) (hn : n ≤ k) (hnext : StartsToken next) :
    ∃ place' : Place, place'.column = n ∧
      Leads (stand place (' ' :: (printScalar (k + 2) text ++
          (lineEnd (printScalar (k + 2) text) ++ (spaces n ++ next)))) emitted k outers allowed)
        (ready place' next (scalarToken text :: emitted) k outers) := by
  have hprintable : ∀ c ∈ printScalar (k + 2) text, isPrintable c = true := isPrintable_printScalar
  refine ⟨_, Place.column_after_lineEnd (place.after [' ']) n hprintable, ?_⟩
  have hreturn : '\r' ∉ printScalar (k + 2) text := fun h => absurd (hprintable _ h) (by decide)
  have hspace {tail : Text} : (stand place (' ' :: (printScalar (k + 2) text ++ tail)) emitted k
      outers allowed).toNextToken =
        some (stand (place.after [' ']) (printScalar (k + 2) text ++ tail) emitted k outers
          allowed) :=
    toNextToken_space (startsToken_printScalar _ _ _) (by omega)
  have hafter : (place.after [' ']).column = place.column + 1 := rfl
  have hinner : (k : Int) ≠ (place.after [' ']).column := by omega
  have hbound : (k : Int) ≤ (place.after [' ']).column := by omega
  cases hstyle : scalarStyle text with
  | plain =>
    have hplain := plainText_of_scalarStyle hstyle
    have hshown : printScalar (k + 2) text = text := by rw [printScalar, hstyle]
    rw [lineEnd_printScalar (by simp [hstyle]), scalarToken, hstyle]
    rw [hshown] at hspace hreturn ⊢
    refine (Leads.of_reads hspace (reads_plain ('\n' :: spaces n) hplain (by simp [EndsScalar])
      (plainFrom_newline n (by omega) hnext) hbound) ?_).trans
        (leads_brokeOff hreturn hnext hinner)
    simp only [stand_rest, behind_rest, List.length_cons, List.length_append]
    omega
  | singleQuoted | doubleQuoted =>
    rw [lineEnd_printScalar (by simp [hstyle])]
    refine (Leads.of_reads hspace (reads_quoted (by simp [hstyle]) (by simp [EndsScalar]))
      ?_).trans (leads_nextLine hreturn hnext hinner)
    simp only [stand_rest, behind_rest, List.length_cons, List.length_append]
    omega
  | literal =>
    refine Leads.of_reads hspace (reads_literal hstyle hn hnext) ?_
    simp only [stand_rest, ready_rest, List.length_cons, List.length_append]
    omega

theorem leads_emptyBranch (hcolumn : k < place.column) (hnext : StartsToken next) :
    ∃ place' : Place, place'.column = n ∧
      Leads (stand place (' ' :: '{' :: '}' :: '\n' :: (spaces n ++ next)) emitted k outers allowed)
        (ready place' next (.flowMappingEnd :: .flowMappingStart :: emitted) k outers) := by
  have hafter : (place.after [' ']).column = place.column + 1 := rfl
  have hspace : (stand place (' ' :: '{' :: '}' :: '\n' :: (spaces n ++ next)) emitted k outers
      allowed).toNextToken = some (stand (place.after [' '])
        ('{' :: '}' :: '\n' :: (spaces n ++ next)) emitted k outers allowed) :=
    toNextToken_space (startsToken_cons_iff.mpr (by decide)) (by omega)
  have hbraces : '\r' ∉ ['{', '}'] := by decide
  refine ⟨_, (Place.after_newLine (place.after [' ']) n hbraces
    (show isBreak '\n' = true by decide) (by decide)).1, ?_⟩
  exact (leads_braces hspace (by simp)).trans
    (leads_nextLine hbraces hnext (by omega))

/-! ## Keys -/

theorem reads_key (hbreak : ∀ c ∈ key, isBreak c = false) (hcolumn : indent ≤ place.column)
    (htail : wordEnds tail = true) :
    Reads (stand place (printScalar (n + 1) key ++ ':' :: tail) emitted indent outers allowed)
      (behind place (printScalar (n + 1) key) (':' :: tail) [scalarToken key] emitted indent outers
        allowed false) := by
  cases hstyle : scalarStyle key with
  | plain =>
    have hplain := plainText_of_scalarStyle hstyle
    have hshown : printScalar (n + 1) key = key := by rw [printScalar, hstyle]
    have hread : Reads (stand place (key ++ ':' :: tail) emitted indent outers allowed)
        (behind place (key ++ []) (':' :: tail) [.scalar true key] emitted indent outers allowed
          false) :=
      reads_plain [] hplain (by simp [EndsScalar]) (plainFrom_colon htail) hcolumn
    rw [List.append_nil] at hread
    rw [scalarToken, hstyle, hshown]
    exact hread
  | singleQuoted | doubleQuoted =>
    exact reads_quoted (by simp [hstyle]) (by simp [EndsScalar])
  | literal => exact absurd hstyle (scalarStyle_ne_literal hbreak)

/-- A key without a mark and its colon. -/
theorem leads_unmarkedKey (hmark : needsKeyMark key = false) (hcolumn : indent ≤ place.column)
    (htail : wordEnds tail = true) :
    Leads (ready place (printScalar (n + 1) key ++ ':' :: tail) emitted indent outers)
      (stand ((place.after (printScalar (n + 1) key)).after [':']) tail
        (.value :: scalarToken key :: .key :: openedTokens indent place.column emitted)
        place.column (openedOuters indent place.column outers) false) := by
  obtain ⟨hbreak, -⟩ := unbroken_of_needsKeyMark hmark
  obtain ⟨shown, hshown⟩ : ∃ shown, printScalar (n + 1) key = shown := ⟨_, rfl⟩
  have hkey : (stand place (shown ++ ':' :: tail) emitted indent outers true).toNextToken =
      some (stand place (shown ++ ':' :: tail) emitted indent outers true) :=
    toNextToken_stand (hshown ▸ startsToken_printScalar _ _ _) hcolumn
  have hcolon : (behind place shown (':' :: tail) [scalarToken key] emitted indent outers true
      false).toNextToken = some (behind place shown (':' :: tail) [scalarToken key] emitted indent
        outers true false) :=
    toNextToken_key (hshown ▸ isBreak_printScalar hbreak) (hshown ▸ length_printScalar_le hmark)
      (startsToken_cons_iff.mpr (by decide)) hcolumn
  have hread : Reads (stand place (shown ++ ':' :: tail) emitted indent outers true)
      (behind place shown (':' :: tail) [scalarToken key] emitted indent outers true false) :=
    hshown ▸ reads_key hbreak hcolumn htail
  rw [hshown]
  have hlength : 0 < shown.length :=
    List.length_pos_iff.mpr (hshown ▸ printScalar_ne_nil _ _)
  refine (Leads.of_reads hkey hread ?_).trans
    (Leads.of_token hcolon rfl ((readToken_colon htail).trans (readValue_of_scalar hcolumn)) ?_)
  · simpa using hlength
  · simp

/-- A key behind its mark, and its colon on a line of its own. -/
theorem leads_markedKey (key : Text) (emitted : List Token) (outers : List Int)
    (hplace : place.column = k) (hcolumn : indent ≤ k)
    (htail : wordEnds tail = true) :
    ∃ place' : Place, place'.column = k + 1 ∧
      Leads (ready place ('?' :: ' ' :: (printScalar (k + 2) key ++
          (lineEnd (printScalar (k + 2) key) ++ (spaces k ++ ':' :: tail)))) emitted indent outers)
        (stand place' tail
          (.value :: scalarToken key :: .key :: openedTokens indent k emitted) k
          (openedOuters indent k outers) true) := by
  obtain rfl := hplace
  have hafter : (place.after ['?']).column = place.column + 1 := rfl
  obtain ⟨place', hplace', hscalar⟩ := leads_scalar key
    (.key :: openedTokens indent place.column emitted) (openedOuters indent place.column outers)
    true (show place.column < (place.after ['?']).column by omega) (le_refl place.column)
    (startsToken_cons_iff.mpr (by decide) : StartsToken (':' :: tail))
  refine ⟨place'.after [':'], by rw [← hplace']; rfl, ?_⟩
  exact ((leads_question hcolumn rfl).trans hscalar).trans (leads_colon (by omega) htail)

/-- **A printed key is read with its colon**, behind a mark or not. -/
theorem leads_printKey (key : Text) (hplace : place.column = k) (hcolumn : indent ≤ k)
    (htail : wordEnds tail = true) :
    ∃ place' : Place, k < place'.column ∧ (needsKeyMark key = true → place'.column = k + 1) ∧
      Leads (ready place (printKey k key ++ ':' :: tail) emitted indent outers)
        (stand place' tail
          (.value :: scalarToken key :: .key :: openedTokens indent k emitted) k
          (openedOuters indent k outers) (needsKeyMark key)) := by
  unfold printKey
  cases hmark : needsKeyMark key with
  | true =>
    obtain ⟨place', hplace', hleads⟩ := leads_markedKey key emitted outers hplace hcolumn
      htail
    refine ⟨place', by omega, fun _ => hplace', ?_⟩
    have hend : lineEnd ('?' :: ' ' :: printScalar (k + 2) key) =
        lineEnd (printScalar (k + 2) key) :=
      lineEnd_append ['?', ' '] (printScalar_ne_nil _ _)
    rw [if_pos rfl, nextLine_eq, hend]
    simpa using hleads
  | false =>
    obtain rfl := hplace
    refine ⟨_, ?_, by simp, by simpa using leads_unmarkedKey hmark hcolumn htail⟩
    rw [Place.after_line (isBreak_printScalar (unbroken_of_needsKeyMark hmark).1)]
    show place.column < place.column + (printScalar (place.column + 2) key).length + 1
    omega

end Lexer

end LayeredConfig.Yaml
