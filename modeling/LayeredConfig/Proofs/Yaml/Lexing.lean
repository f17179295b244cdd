import LayeredConfig.Proofs.Yaml.Literal
import LayeredConfig.Proofs.Yaml.Scalars
import LayeredConfig.Yaml.Token.Lexer

/-!
# The lexer from one token to the next

The lexer is run on a text of which only the beginning is known.  `Lexer.Leads a b` says that
reading on from `a` comes to reading on from `b`; such steps are put together by `Leads.trans`.
Three forms of lexers stand between the steps: one where a token is to begin (`ready`), one where it
may be a key or not (`stand`), and one behind something that may turn out to be a key (`behind`).
Main statements:

* `Leads.of_token`, `Leads.of_toNextToken_eq` — a step over one token, and over what stands before
  one;
* `readToken_plain`, `readToken_singleQuoted`, … — what the first character of a token leads to;
* `readKey_eq`, `readValue_of_marked`, `readValue_of_scalar` — the question mark and the colon, with
  the block mapping that they open;
* `toNextToken_behind`, `toNextToken_key`, `toNextToken_blockEnd` — the line ends, keys and ends of
  blocks between tokens;
* `leads_question`, `leads_colon`, `leads_braces` — the signs that stand for themselves.
-/

namespace LayeredConfig.Yaml

variable {c : Char} {text rest next gap : Text} {place : Place} {k : Nat}

/-! ## Places -/

namespace Place

theorem after_cons (hc : c ≠ '\r') :
    place.after (c :: rest) =
      if isBreak c then Place.after ⟨place.index + 1, place.line + 1, 0⟩ rest
      else Place.after ⟨place.index + 1, place.line, place.column + 1⟩ rest := by
  rw [Place.after.eq_3 _ _ _ fun _ h _ => hc h]

theorem after_append {front : Text} (hfront : '\r' ∉ front) :
    place.after (front ++ rest) = (place.after front).after rest := by
  induction front generalizing place with
  | nil => rfl
  | cons c front ih =>
    obtain ⟨hc, hfront'⟩ : '\r' ≠ c ∧ '\r' ∉ front := by simpa using hfront
    rw [List.cons_append, after_cons hc.symm, after_cons hc.symm]
    split_ifs <;> exact ih hfront'

/-- On one line the index and the column count the characters. -/
theorem after_line (htext : ∀ c ∈ text, isBreak c = false) :
    place.after text = ⟨place.index + text.length, place.line, place.column + text.length⟩ := by
  induction text generalizing place with
  | nil => rfl
  | cons c rest ih =>
    obtain ⟨hc, hrest⟩ := List.forall_mem_cons.mp htext
    have hreturn : c ≠ '\r' := by
      rintro rfl
      exact absurd hc (by decide)
    rw [after_cons hreturn, if_neg (by simp [hc]), ih hrest, List.length_cons]
    simp only [Place.mk.injEq, true_and]
    omega

theorem line_le_after (hreturn : '\r' ∉ text) : place.line ≤ (place.after text).line := by
  induction text generalizing place with
  | nil => exact le_refl _
  | cons c rest ih =>
    obtain ⟨hc, hrest⟩ : '\r' ≠ c ∧ '\r' ∉ rest := by simpa using hreturn
    rw [after_cons hc.symm]
    split_ifs
    · exact Nat.le_of_succ_le (@ih ⟨place.index + 1, place.line + 1, 0⟩ hrest)
    · exact @ih ⟨place.index + 1, place.line, place.column + 1⟩ hrest

theorem isBreak_spaces : ∀ c ∈ spaces k, isBreak c = false := by
  intro c hc
  obtain rfl := List.eq_of_mem_replicate hc
  decide

/-- The place behind a line break and an indentation. -/
theorem after_newLine (place : Place) (k : Nat) {front : Text} (hfront : '\r' ∉ front)
    (hc : isBreak c = true) (hreturn : c ≠ '\r') :
    (place.after (front ++ c :: spaces k)).column = k ∧
      place.line < (place.after (front ++ c :: spaces k)).line := by
  rw [after_append hfront, after_cons hreturn, if_pos hc, after_line isBreak_spaces]
  refine ⟨?_, Nat.lt_succ_of_le (line_le_after hfront)⟩
  simp [spaces]

end Place

/-! ## Between tokens -/

namespace Lexer

variable {lexer : Lexer} {emitted : List Token} {indent : Int} {outers : List Int}

/-- The lexer where a token is to begin, in blocks that are indented by `indent` and `outers`. -/
def ready (place : Place) (rest : Text) (emitted : List Token) (indent : Int)
    (outers : List Int) : Lexer where
  place := place
  rest := rest
  emitted := emitted
  indent := indent
  outerIndents := outers
  keyStart := none
  outerKeyStarts := []
  keyAllowed := true

theorem moveTo_append (gap : Text) (hrest : lexer.rest = gap ++ next) :
    lexer.moveTo next = { lexer with place := lexer.place.after gap, rest := next } := by
  have htake : (gap ++ next).take ((gap ++ next).length - next.length) = gap := by
    rw [List.length_append, Nat.add_sub_cancel, List.take_left]
  rw [moveTo, hrest, htake]

theorem skip_one (hrest : lexer.rest = c :: next) :
    lexer.skip 1 = { lexer with place := lexer.place.after [c], rest := next } := by
  rw [skip, hrest, List.drop_one, List.tail_cons]
  exact moveTo_append [c] hrest

theorem closeBlocks_of_le {column : Int} (h : lexer.indent ≤ column) :
    lexer.closeBlocks column = lexer := by
  have hclose : closeIndents column lexer.indent lexer.outerIndents =
      (0, lexer.indent, lexer.outerIndents) := by
    cases lexer.outerIndents with
    | nil => rfl
    | cons next outer => rw [closeIndents, if_neg (by omega)]
  rw [closeBlocks, hclose]
  split_ifs <;> rfl

theorem passSpace_append {inFlow allowed : Bool} (hgap : ∀ c ∈ gap, c = ' ' ∨ c = '\n')
    (hnext : StartsToken next) :
    passSpace inFlow allowed false (gap ++ next) =
      (allowed || (gap.any isBreak && !inFlow), next) := by
  induction gap generalizing allowed with
  | nil =>
    cases next with
    | nil => simp [passSpace]
    | cons c rest =>
      obtain ⟨hspace, hsign⟩ := startsToken_cons_iff.mp hnext
      simp only [isSpace, isBlank, Bool.or_eq_false_iff, decide_eq_false_iff_not] at hspace
      simp [passSpace, hspace.1.1, hspace.1.2, hspace.2, hsign]
  | cons c gap ih =>
    obtain ⟨hc, hgap'⟩ := List.forall_mem_cons.mp hgap
    rcases hc with rfl | rfl
    · rw [List.cons_append, passSpace, if_neg (by decide), if_neg Bool.false_ne_true,
        if_pos (by simp), ih hgap']
      simp [isBreak]
    · rw [List.cons_append, passSpace, if_pos (by decide), ih hgap']
      cases inFlow <;> simp [isBreak]

/-- The next token outside brackets, after spaces and line ends. -/
theorem toNextToken_eq (gap : Text) (keyStart : Option KeyStart)
    (hflow : lexer.outerKeyStarts = [])
    (hrest : lexer.rest = gap ++ next) (hgap : ∀ c ∈ gap, c = ' ' ∨ c = '\n')
    (hnext : StartsToken next)
    (hkey : currentAll (lexer.place.after gap) [lexer.keyStart] = some [keyStart]) :
    lexer.toNextToken =
      some (closeBlocks { lexer with
        place := lexer.place.after gap, rest := next, keyStart := keyStart
        keyAllowed := lexer.keyAllowed || gap.any isBreak }
        (lexer.place.after gap).column) := by
  obtain ⟨place, rest, emitted, indent, outers, start, outerStarts, allowed⟩ := lexer
  obtain rfl : rest = gap ++ next := hrest
  obtain rfl : outerStarts = [] := hflow
  rw [toNextToken, show Lexer.inFlow _ = false from rfl, passSpace_append hgap hnext]
  simp only [Bool.not_false, Bool.and_true]
  rw [moveTo_append gap rfl, forgetStale]
  simp only [hkey, Option.bind_eq_bind, Option.bind_some]
  rfl

/-! ## Tokens one after the other -/

/-- Whether reading on from one lexer comes to reading on from another one, given fuel for each of
their characters. -/
def Leads (a b : Lexer) : Prop :=
  ∀ fuel, a.rest.length < fuel → ∃ fuel', b.rest.length < fuel' ∧ run fuel a = run fuel' b

namespace Leads

variable {a b d m : Lexer}

theorem trans (hab : Leads a b) (hbd : Leads b d) : Leads a d := by
  intro fuel hfuel
  obtain ⟨fuel', hfuel', hrun⟩ := hab fuel hfuel
  obtain ⟨fuel'', hfuel'', hrun'⟩ := hbd fuel' hfuel'
  exact ⟨fuel'', hfuel'', hrun.trans hrun'⟩

/-- One token is read. -/
theorem of_token (hnext : a.toNextToken = some b) (hrest : b.rest = c :: rest)
    (htoken : b.readToken c rest = some m) (hlength : m.rest.length < a.rest.length) :
    Leads a m := by
  intro fuel hfuel
  cases fuel with
  | zero => exact absurd hfuel (Nat.not_lt_zero _)
  | succ fuel =>
    refine ⟨fuel, by omega, ?_⟩
    rw [run, hnext, Option.bind_eq_bind, Option.bind_some]
    simp only [hrest, htoken, Option.bind_some]

/-- What stands before the next token does not count. -/
theorem of_toNextToken_eq (hnext : a.toNextToken = b.toNextToken)
    (hlength : b.rest.length ≤ a.rest.length) : Leads a b := by
  intro fuel hfuel
  refine ⟨fuel, by omega, ?_⟩
  cases fuel with
  | zero => rfl
  | succ fuel => rw [run, run, hnext]

end Leads

/-- The lexer before a token that may be a key or not. -/
def stand (place : Place) (rest : Text) (emitted : List Token) (indent : Int) (outers : List Int)
    (allowed : Bool) : Lexer :=
  { ready place rest emitted indent outers with keyAllowed := allowed }

/-- The place of a key, if one may begin there. -/
def keyStartAt (place : Place) (emitted : List Token) (indent : Int) (allowed : Bool) :
    Option KeyStart :=
  if allowed then some ⟨emitted.length, place, decide (indent = place.column)⟩ else none

theorem place_of_keyStartAt {allowed : Bool} {start : KeyStart}
    (h : keyStartAt place emitted indent allowed = some start) : start.place = place := by
  unfold keyStartAt at h
  split_ifs at h
  exact Option.some.inj h ▸ rfl

/-- The lexer behind what is shown and may be a key, with its tokens. -/
def behind (place : Place) (shown next : Text) (tokens emitted : List Token) (indent : Int)
    (outers : List Int) (allowed allowedNext : Bool) : Lexer :=
  { ready (place.after shown) next (tokens ++ emitted) indent outers with
    keyStart := keyStartAt place emitted indent allowed
    keyAllowed := allowedNext }

variable {token : Token} {shown : Text} {allowed : Bool}

@[simp]
theorem ready_rest : (ready place rest emitted indent outers).rest = rest := rfl

@[simp]
theorem stand_rest : (stand place rest emitted indent outers allowed).rest = rest := rfl

@[simp]
theorem stand_place : (stand place rest emitted indent outers allowed).place = place := rfl

@[simp]
theorem stand_inFlow : (stand place rest emitted indent outers allowed).inFlow = false := rfl

@[simp]
theorem behind_rest {tokens : List Token} {allowedNext : Bool} :
    (behind place shown next tokens emitted indent outers allowed allowedNext).rest = next := rfl

theorem rememberKey_stand : (stand place rest emitted indent outers allowed).rememberKey =
    some { stand place rest emitted indent outers allowed with
      keyStart := keyStartAt place emitted indent allowed } := by
  cases allowed <;> rfl

theorem readKeyable_eq (hrest : rest = shown ++ next) :
    (stand place rest emitted indent outers allowed).readKeyable token next =
      some (behind place shown next [token] emitted indent outers allowed false) := by
  rw [readKeyable, rememberKey_stand, Option.bind_eq_bind, Option.bind_some]
  dsimp only
  rw [moveTo_append shown hrest]
  rfl

/-! ## The first character of a token -/

theorem readToken_singleQuoted
    (h : singleQuotedFrom (place.column + 1) .empty rest = some (text, next)) :
    (stand place ('\'' :: rest) emitted indent outers allowed).readToken '\'' rest =
      (stand place ('\'' :: rest) emitted indent outers allowed).readKeyable (.scalar false text)
        next := by
  simp only [readToken, stand_place, h]
  simp [startsWord, startMarker, endMarker, Text.dropStart?]

theorem readToken_doubleQuoted
    (h : doubleQuotedFrom (place.column + 1) .empty rest = some (text, next)) :
    (stand place ('"' :: rest) emitted indent outers allowed).readToken '"' rest =
      (stand place ('"' :: rest) emitted indent outers allowed).readKeyable (.scalar false text)
        next := by
  simp only [readToken, stand_place, h]
  simp [startsWord, startMarker, endMarker, Text.dropStart?]

theorem isPrefixOf_of_startsWord {marker : Text} (h : startsWord marker text = true) :
    marker.isPrefixOf text = true := by
  have hdrop : ∀ marker text : Text, (Text.dropStart? marker text).isSome = true →
      marker.isPrefixOf text = true := by
    intro marker
    induction marker with
    | nil => intro text _; rfl
    | cons s marker ih =>
      intro text h
      cases text with
      | nil => simp [Text.dropStart?] at h
      | cons c text =>
        rw [Text.dropStart?] at h
        split_ifs at h with hsc
        · simp [List.isPrefixOf, hsc, ih text h]
        · simp at h
  refine hdrop marker text ?_
  unfold startsWord at h
  split at h
  · next heq => simp [heq]
  · exact absurd h (by simp)

theorem startsWord_of_startsMarker (h : startsMarker text = false) :
    startsWord startMarker text = false ∧ startsWord endMarker text = false := by
  simp only [startsMarker, Bool.or_eq_false_iff] at h
  constructor
  · by_contra hstart
    simp [isPrefixOf_of_startsWord (by simpa using hstart)] at h
  · by_contra hend
    simp [isPrefixOf_of_startsWord (by simpa using hend)] at h

theorem startsPlain_of_word (hindicator : isIndicator c = false) (hspace : isSpace c = false)
    (hword : c = '-' ∨ c = '?' ∨ c = ':' → wordEnds rest = false) :
    startsPlain false c rest = true := by
  unfold startsPlain
  split_ifs with hdash hmark
  · have hends := hword (Or.inl hdash)
    cases rest with
    | nil => rfl
    | cons d rest =>
      simp only [wordEnds, isSpace, Bool.or_eq_false_iff] at hends
      simp [startsBlank, hends.1]
  · simp [hword (Or.inr hmark)]
  · simp only [isIndicator, Bool.or_eq_false_iff] at hindicator
    simp only [isSpace, Bool.or_eq_false_iff] at hspace
    simp [hspace.1, hindicator]

/-- A plain scalar begins with a character that has no meaning of its own there. -/
theorem readToken_plain (hindicator : isIndicator c = false) (hspace : isSpace c = false)
    (hword : c = '-' ∨ c = '?' ∨ c = ':' → wordEnds rest = false)
    (hmarker : place.column = 0 → startsMarker (c :: rest) = false) :
    (stand place (c :: rest) emitted indent outers allowed).readToken c rest =
      (stand place (c :: rest) emitted indent outers allowed).readPlain := by
  have hstart : ¬(place.column = 0 ∧ startsWord startMarker (c :: rest) = true) :=
    fun h => by simp [startsWord_of_startsMarker (hmarker h.1)] at h
  have hend : ¬(place.column = 0 ∧ startsWord endMarker (c :: rest) = true) :=
    fun h => by simp [startsWord_of_startsMarker (hmarker h.1)] at h
  have hdash : ¬(c = '-' ∧ wordEnds rest = true) := fun h => by simp [hword (Or.inl h.1)] at h
  have hquestion : ¬(c = '?' ∧ wordEnds rest = true) :=
    fun h => by simp [hword (Or.inr (Or.inl h.1))] at h
  have hcolon : ¬(c = ':' ∧ wordEnds rest = true) :=
    fun h => by simp [hword (Or.inr (Or.inr h.1))] at h
  have hstarts : startsPlain false c rest = true := startsPlain_of_word hindicator hspace hword
  simp only [isIndicator, isFlowIndicator, Bool.or_eq_false_iff, decide_eq_false_iff_not]
    at hindicator
  simp only [readToken, stand_place, stand_inFlow, hstarts]
  simp [hstart, hend, hindicator, if_neg hdash, if_neg hquestion, if_neg hcolon]

theorem readToken_literal :
    (stand place ('|' :: rest) emitted indent outers allowed).readToken '|' rest =
      (stand place ('|' :: rest) emitted indent outers allowed).readBlockScalar false := by
  simp only [readToken, stand_place, stand_inFlow]
  simp [startsWord, startMarker, endMarker, Text.dropStart?]

theorem readToken_question (hrest : wordEnds rest = true) :
    lexer.readToken '?' rest = lexer.readKey := by
  simp [readToken, startsWord, startMarker, endMarker, Text.dropStart?, hrest]

theorem readToken_colon (hrest : wordEnds rest = true) :
    lexer.readToken ':' rest = lexer.readValue := by
  simp [readToken, startsWord, startMarker, endMarker, Text.dropStart?, hrest]

theorem readToken_openBrace : lexer.readToken '{' rest = lexer.openFlow .flowMappingStart := by
  simp [readToken, startsWord, startMarker, endMarker, Text.dropStart?]

theorem readToken_closeBrace : lexer.readToken '}' rest = lexer.closeFlow .flowMappingEnd := by
  simp [readToken, startsWord, startMarker, endMarker, Text.dropStart?]

/-! ## What a token does -/

theorem readPlain_eq {brokeOff : Bool} (hrest : rest = shown ++ next)
    (h : plainFrom false (indent + 1) place.column .empty rest = some ⟨text, brokeOff, next⟩) :
    (stand place rest emitted indent outers allowed).readPlain =
      some (behind place shown next [.scalar true text] emitted indent outers allowed
        brokeOff) := by
  have hread : plainFrom (stand place rest emitted indent outers allowed).inFlow
      ((stand place rest emitted indent outers allowed).indent + 1)
      (stand place rest emitted indent outers allowed).place.column .empty
      (stand place rest emitted indent outers allowed).rest = some ⟨text, brokeOff, next⟩ := h
  rw [readPlain, hread, Option.bind_eq_bind, Option.bind_some, readKeyable_eq hrest]
  rfl

theorem readBlockScalar_eq (hrest : '|' :: rest = shown ++ next)
    (h : blockScalar? false indent rest = some (text, next)) :
    (stand place ('|' :: rest) emitted indent outers allowed).readBlockScalar false =
      some (ready (place.after shown) next (.scalar false text :: emitted) indent outers) := by
  have hforget : (stand place ('|' :: rest) emitted indent outers allowed).forgetKey =
      some (stand place ('|' :: rest) emitted indent outers allowed) := rfl
  have hread : blockScalar? false (stand place ('|' :: rest) emitted indent outers allowed).indent
      ((stand place ('|' :: rest) emitted indent outers allowed).rest.drop 1) =
        some (text, next) := h
  rw [readBlockScalar, hforget, Option.bind_eq_bind, Option.bind_some, hread]
  simp only [Option.bind_eq_bind, Option.bind_some]
  rw [moveTo_append shown hrest]
  rfl

/-- The tokens once a block mapping is open in a column. -/
def openedTokens (indent : Int) (column : Nat) (emitted : List Token) : List Token :=
  if indent < column then .blockMappingStart :: emitted else emitted

/-- The indentations around a block mapping that is open in a column. -/
def openedOuters (indent : Int) (column : Nat) (outers : List Int) : List Int :=
  if indent < column then indent :: outers else outers

theorem openedTokens_self (column : Nat) (emitted : List Token) :
    openedTokens column column emitted = emitted :=
  if_neg (Int.lt_irrefl _)

theorem openedOuters_self (column : Nat) (outers : List Int) :
    openedOuters column column outers = outers :=
  if_neg (Int.lt_irrefl _)

/-- A block is opened before the last tokens. -/
theorem openBlock_eq {column : Nat} (tokens : List Token) (hflow : lexer.outerKeyStarts = [])
    (hemitted : lexer.emitted = tokens ++ emitted) (hcolumn : lexer.indent ≤ column) :
    lexer.openBlock column emitted.length .blockMappingStart =
      { lexer with
        emitted := tokens ++ openedTokens lexer.indent column emitted
        indent := column
        outerIndents := openedOuters lexer.indent column lexer.outerIndents } := by
  have hinFlow : lexer.inFlow = false := by simp [inFlow, hflow]
  have hlater : (tokens ++ emitted).length - emitted.length = tokens.length := by simp
  rw [openBlock, hinFlow, openedTokens, openedOuters]
  by_cases hlt : lexer.indent < column
  · rw [if_pos ⟨rfl, hlt⟩, if_pos hlt, if_pos hlt, emitBehind]
    simp only [hemitted, hlater, List.take_left, List.drop_left]
  · have heq : lexer.indent = column := by omega
    rw [if_neg fun h => hlt h.2, if_neg hlt, if_neg hlt, ← hemitted, ← heq]

theorem readKey_eq (hcolumn : indent ≤ place.column) :
    (ready place ('?' :: rest) emitted indent outers).readKey =
      some (stand (place.after ['?']) rest
        (.key :: openedTokens indent place.column emitted) place.column
        (openedOuters indent place.column outers) true) := by
  have hopen : (ready place ('?' :: rest) emitted indent outers).openBlockHere
      .blockMappingStart = ready place ('?' :: rest) (openedTokens indent place.column emitted)
        place.column (openedOuters indent place.column outers) :=
    openBlock_eq [] rfl rfl hcolumn
  have hforget : (ready place ('?' :: rest) (openedTokens indent place.column emitted)
      place.column (openedOuters indent place.column outers)).forgetKey =
        some (ready place ('?' :: rest) (openedTokens indent place.column emitted)
          place.column (openedOuters indent place.column outers)) := rfl
  rw [readKey, show (ready place ('?' :: rest) emitted indent outers).inFlow = false from rfl,
    show (ready place ('?' :: rest) emitted indent outers).keyAllowed = true from rfl]
  simp only [Bool.false_eq_true, if_false, if_true, hopen, Option.bind_eq_bind, Option.bind_some,
    hforget]
  rw [skip_one rfl]
  rfl

/-- A colon behind a marked key. -/
theorem readValue_of_marked (hcolumn : indent = place.column) :
    (ready place (':' :: rest) emitted indent outers).readValue =
      some (stand (place.after [':']) rest (.value :: emitted) indent outers true) := by
  have hopen : (ready place (':' :: rest) emitted indent outers).openBlockHere
      .blockMappingStart = ready place (':' :: rest) emitted indent outers :=
    if_neg fun h => absurd h.2 (by simp [ready, hcolumn])
  rw [readValue]
  simp only [show (ready place (':' :: rest) emitted indent outers).keyStart = none from rfl]
  rw [if_neg (show ¬(ready place (':' :: rest) emitted indent outers).inFlow = true from
    Bool.false_ne_true), if_pos (show (ready place (':' :: rest) emitted indent outers).keyAllowed =
    true from rfl), hopen, skip_one rfl]
  rfl

/-- A colon behind a scalar that is a key. -/
theorem readValue_of_scalar (hcolumn : indent ≤ place.column) :
    (behind place shown (':' :: rest) [token] emitted indent outers true false).readValue =
      some (stand ((place.after shown).after [':']) rest
        (.value :: token :: .key :: openedTokens indent place.column emitted) place.column
        (openedOuters indent place.column outers) false) := by
  have hkey : (behind place shown (':' :: rest) [token] emitted indent outers true false).emitBehind
      emitted.length .key =
        { behind place shown (':' :: rest) [token] emitted indent outers true false with
          emitted := [token, .key] ++ emitted } := by
    simp [emitBehind, behind, ready]
  rw [readValue]
  simp only [show (behind place shown (':' :: rest) [token] emitted indent outers true
    false).keyStart = some ⟨emitted.length, place, decide (indent = place.column)⟩ from rfl, hkey]
  rw [openBlock_eq [token, .key] rfl rfl hcolumn, skip_one rfl]
  rfl

/-! ## From one token to the next -/

/-- At the beginning of a token nothing has to be passed over. -/
theorem toNextToken_stand (hrest : StartsToken rest) (hindent : indent ≤ place.column) :
    (stand place rest emitted indent outers allowed).toNextToken =
      some (stand place rest emitted indent outers allowed) := by
  rw [toNextToken_eq [] none rfl rfl (by simp) hrest rfl]
  simp only [List.any_nil, Bool.or_false]
  exact congrArg some (closeBlocks_of_le hindent)

theorem toNextToken_ready (hrest : StartsToken rest) :
    (ready place rest emitted indent outers).toNextToken =
      some ((ready place rest emitted indent outers).closeBlocks place.column) := by
  rw [toNextToken_eq [] none rfl rfl (by simp) hrest rfl]
  rfl

/-- A space leads to what stands behind it. -/
theorem toNextToken_space (hrest : StartsToken rest) (hindent : indent ≤ place.column + 1) :
    (stand place (' ' :: rest) emitted indent outers allowed).toNextToken =
      some (stand (place.after [' ']) rest emitted indent outers allowed) := by
  rw [toNextToken_eq [' '] none rfl rfl (by simp) hrest rfl]
  simp only [List.any_cons, List.any_nil, Bool.or_false, show isBreak ' ' = false from by decide]
  exact congrArg some (closeBlocks_of_le hindent)

/-- Behind the last token of a line the next line is read on. -/
theorem toNextToken_behind (gap : Text) {tokens : List Token} {allowedNext : Bool}
    (hgap : ∀ c ∈ gap, c = ' ' ∨ c = '\n') (hallowed : allowedNext = true ∨ gap.any isBreak = true)
    (hnext : StartsToken next) (hindent : indent ≠ place.column)
    (hline : place.line < ((place.after shown).after gap).line) :
    (behind place shown (gap ++ next) tokens emitted indent outers allowed
        allowedNext).toNextToken =
      (ready ((place.after shown).after gap) next (tokens ++ emitted) indent
        outers).toNextToken := by
  have hkey : currentAll ((place.after shown).after gap)
      [keyStartAt place emitted indent allowed] = some [none] := by
    cases allowed with
    | false => rfl
    | true =>
      simp [keyStartAt, currentAll, KeyStart.current?, hline, hindent]
  rw [toNextToken_eq gap none rfl rfl hgap hnext hkey, toNextToken_ready hnext]
  have hor : (allowedNext || gap.any isBreak) = true := by simpa using hallowed
  show some (closeBlocks { behind place shown (gap ++ next) tokens emitted indent outers allowed
    allowedNext with place := _, rest := next, keyStart := none
                     keyAllowed := allowedNext || gap.any isBreak } _) = _
  rw [hor]
  rfl

/-- Behind a key on one line that is not too long the key is remembered. -/
theorem toNextToken_key (hshown : ∀ c ∈ shown, isBreak c = false)
    (hlength : shown.length ≤ longestKey) (hnext : StartsToken next)
    (hindent : indent ≤ place.column) :
    (behind place shown next [token] emitted indent outers true false).toNextToken =
      some (behind place shown next [token] emitted indent outers true false) := by
  have hafter : place.after shown = _ := Place.after_line hshown
  have hkey : currentAll ((place.after shown).after [])
      [(behind place shown next [token] emitted indent outers true false).keyStart] =
        some [some ⟨emitted.length, place, decide (indent = place.column)⟩] := by
    rw [Place.after, hafter]
    have hshort : ¬place.index + longestKey < place.index + shown.length := by omega
    simp [behind, keyStartAt, currentAll, KeyStart.current?, hshort]
  rw [toNextToken_eq [] _ rfl rfl (by simp) hnext hkey]
  refine congrArg some (closeBlocks_of_le ?_)
  show indent ≤ ((place.after shown).column : Int)
  rw [hafter]
  show indent ≤ ((place.column + shown.length : Nat) : Int)
  omega

/-- What stands to the left of a block ends it. -/
theorem toNextToken_blockEnd {inner : Int} (hnext : StartsToken next)
    (hcolumn : (place.column : Int) < inner) :
    (ready place next emitted inner (indent :: outers)).toNextToken =
      (ready place next (.blockEnd :: emitted) indent outers).toNextToken := by
  rw [toNextToken_ready hnext, toNextToken_ready hnext]
  refine congrArg some ?_
  have hinner : (ready place next emitted inner (indent :: outers)).inFlow = false := rfl
  have houter : (ready place next (.blockEnd :: emitted) indent outers).inFlow = false := rfl
  rw [closeBlocks, closeBlocks, hinner, houter, if_neg Bool.false_ne_true,
    if_neg Bool.false_ne_true]
  simp only [ready, closeIndents, if_pos hcolumn]
  rw [List.replicate_succ', List.append_assoc]
  rfl

/-- At the end of the text the blocks end. -/
theorem run_end {fuel : Nat} :
    run (fuel + 1) (ready place [] emitted 0 [-1]) = some (.blockEnd :: emitted).reverse := by
  rw [run, toNextToken_ready startsToken_nil, Option.bind_eq_bind, Option.bind_some,
    closeBlocks_of_le (show (0 : Int) ≤ place.column by omega)]
  rfl

/-- A question mark is read. -/
theorem leads_question (hcolumn : indent ≤ place.column) (hrest : wordEnds rest = true) :
    Leads (ready place ('?' :: rest) emitted indent outers)
      (stand (place.after ['?']) rest (.key :: openedTokens indent place.column emitted)
        place.column (openedOuters indent place.column outers) true) := by
  have hmark : (ready place ('?' :: rest) emitted indent outers).toNextToken =
      some (ready place ('?' :: rest) emitted indent outers) :=
    toNextToken_stand (startsToken_cons_iff.mpr (by decide)) hcolumn
  exact Leads.of_token hmark rfl ((readToken_question hrest).trans (readKey_eq hcolumn))
    (Nat.lt_succ_self _)

/-- A colon behind a marked key is read. -/
theorem leads_colon (hcolumn : indent = place.column) (hrest : wordEnds rest = true) :
    Leads (ready place (':' :: rest) emitted indent outers)
      (stand (place.after [':']) rest (.value :: emitted) indent outers true) := by
  have hcolon : (ready place (':' :: rest) emitted indent outers).toNextToken =
      some (ready place (':' :: rest) emitted indent outers) :=
    toNextToken_stand (startsToken_cons_iff.mpr (by decide)) (by omega)
  exact Leads.of_token hcolon rfl ((readToken_colon hrest).trans (readValue_of_marked hcolumn))
    (Nat.lt_succ_self _)

/-! ## Braces -/

/-- The lexer behind a brace. -/
def inBraces (place : Place) (rest : Text) (emitted : List Token) (indent : Int)
    (outers : List Int) (keyStart : Option KeyStart) : Lexer :=
  { ready (place.after ['{']) rest (.flowMappingStart :: emitted) indent outers with
    outerKeyStarts := [keyStart] }

theorem openFlow_eq :
    (stand place ('{' :: rest) emitted indent outers allowed).openFlow .flowMappingStart =
      some (inBraces place rest emitted indent outers
        (keyStartAt place emitted indent allowed)) := by
  rw [openFlow, rememberKey_stand, Option.bind_eq_bind, Option.bind_some]
  dsimp only
  rw [skip_one rfl]
  rfl

/-- A place of a key on the line of a brace is remembered within the braces. -/
theorem toNextToken_inBraces {keyStart : Option KeyStart} (hrest : StartsToken rest)
    (hkey : ∀ start, keyStart = some start → start.place = place) :
    (inBraces place rest emitted indent outers keyStart).toNextToken =
      some (inBraces place rest emitted indent outers keyStart) := by
  have hpass : passSpace true true false rest = (true, rest) := by
    simpa using @passSpace_append rest [] true true (by simp) hrest
  have hcurrent : currentAll (place.after ['{']) [none, keyStart] = some [none, keyStart] := by
    cases keyStart with
    | none => rfl
    | some start =>
      rw [show place.after ['{'] = _ from Place.after_line (by simp [isBreak])]
      simp [currentAll, KeyStart.current?, hkey start rfl, longestKey]
  rw [toNextToken]
  simp only [show (inBraces place rest emitted indent outers keyStart).inFlow = true from rfl,
    show (inBraces place rest emitted indent outers keyStart).keyAllowed = true from rfl,
    show (inBraces place rest emitted indent outers keyStart).rest = rest from rfl, hpass]
  rw [moveTo_append [] rfl, forgetStale]
  simp only [Place.after, show (inBraces place rest emitted indent outers keyStart).place =
    place.after ['{'] from rfl,
    show (inBraces place rest emitted indent outers keyStart).keyStart = none from rfl,
    show (inBraces place rest emitted indent outers keyStart).outerKeyStarts = [keyStart] from rfl,
    hcurrent]
  rfl

theorem closeFlow_eq :
    (inBraces place ('}' :: next) emitted indent outers
      (keyStartAt place emitted indent allowed)).closeFlow .flowMappingEnd =
      some (behind place ['{', '}'] next [.flowMappingEnd, .flowMappingStart] emitted indent outers
        allowed false) := by
  rw [closeFlow, show forgetKey (inBraces place ('}' :: next) emitted indent outers _) =
    some (inBraces place ('}' :: next) emitted indent outers _) from rfl, Option.bind_eq_bind,
    Option.bind_some]
  simp only [inBraces]
  rw [skip_one rfl]
  rfl

/-- A pair of braces is read. -/
theorem leads_braces {lexer : Lexer}
    (hlexer : lexer.toNextToken =
      some (stand place ('{' :: '}' :: next) emitted indent outers allowed))
    (hlength : next.length + 2 ≤ lexer.rest.length) :
    Leads lexer (behind place ['{', '}'] next [.flowMappingEnd, .flowMappingStart] emitted indent
      outers allowed false) := by
  have hopen := Leads.of_token hlexer rfl (readToken_openBrace.trans openFlow_eq)
    (Nat.lt_of_succ_le hlength)
  refine hopen.trans (Leads.of_token ?_ rfl (readToken_closeBrace.trans closeFlow_eq)
    (Nat.lt_succ_self next.length))
  exact toNextToken_inBraces (startsToken_cons_iff.mpr (by decide)) fun _ => place_of_keyStartAt

end Lexer

end LayeredConfig.Yaml
