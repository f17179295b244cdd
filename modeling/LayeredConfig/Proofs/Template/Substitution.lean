import LayeredConfig.Proofs.Template.References
import Mathlib.Data.List.TakeWhile

/-!
# Rendering token by token

Rendering expands each name of a text once and puts the result wherever a token with that name
stands.  Nothing is lost by this: a text is rendered as if each of its tokens were rendered alone.

* `Segments` — a text read as gaps and tokens, where each token is the first one that begins in
  what is left of the text; `exists_segments_drop` and `Segments.unique` say that there is exactly
  one way to read a text like this;
* `Segments.pieces_eq` — the pieces that rendering works on are these gaps and tokens;
* `fill_text_eq`, `fill_missing_eq` — what is put for a token, and what is missing for it, depends
  on the token alone;
* **`render_segments`** — the rendered text is the gaps with the rendered tokens between them, and
  what is missing is what is missing for the tokens, each name at its first occurrence.
-/

namespace LayeredConfig.Template

/-! ## Tokens that begin a text -/

/-- Whether a token with a name begins a text. -/
def BeginsWith (name text : Text) : Prop :=
  name ≠ [] ∧ '}' ∉ name ∧ tokenText name <+: text

theorem BeginsWith.token {name : Text} (named : name ≠ []) (closed : '}' ∉ name) (rest : Text) :
    BeginsWith name (tokenText name ++ rest) :=
  ⟨named, closed, List.prefix_append _ _⟩

/-- The name of a token ends at the first closing brace. -/
theorem span_name {name : Text} (closed : '}' ∉ name) (rest : Text) :
    (name ++ '}' :: rest).takeWhile (· ≠ '}') = name ∧
      (name ++ '}' :: rest).dropWhile (· ≠ '}') = '}' :: rest := by
  have hall : ∀ c ∈ name, decide (c ≠ '}') = true := by
    intro c hc
    rw [decide_eq_true_eq]
    intro heq
    exact closed (heq ▸ hc)
  rw [List.takeWhile_append_of_pos hall, List.dropWhile_append_of_pos hall]
  simp

theorem tokenAt?_eq_some_iff {name text : Text} :
    tokenAt? text = some name ↔ BeginsWith name text := by
  constructor
  · intro h
    unfold tokenAt? at h
    split at h
    · next rest =>
      simp only [Option.ite_none_right_eq_some, Option.some.injEq] at h
      obtain ⟨⟨hne, hclose⟩, rfl⟩ := h
      refine ⟨hne, fun hmem => ?_, ?_⟩
      · simpa using List.mem_takeWhile_imp hmem
      · obtain ⟨tail, htail⟩ := List.isPrefixOf_iff_prefix.mp hclose
        refine ⟨tail, ?_⟩
        rw [tokenText, List.append_assoc, List.append_assoc, htail,
          List.takeWhile_append_dropWhile]
        rfl
    · simp at h
  · intro h
    obtain ⟨named, closed, tail, rfl⟩ := h
    have hshape : tokenText name ++ tail = '{' :: '{' :: (name ++ '}' :: '}' :: tail) := by
      simp [tokenText]
    obtain ⟨htake, hdrop⟩ := span_name closed ('}' :: tail)
    rw [hshape]
    simp only [tokenAt?]
    rw [htake, hdrop]
    simp [named]

/-- At most one token begins a text. -/
theorem BeginsWith.unique {name name' text : Text} (h : BeginsWith name text)
    (h' : BeginsWith name' text) : name = name' := by
  rw [← tokenAt?_eq_some_iff] at h h'
  exact Option.some.inj (h.symm.trans h')

/-- What comes after a token at the beginning of a text. -/
theorem BeginsWith.eq_append {name rest : Text} {c : Char} (h : BeginsWith name (c :: rest)) :
    c :: rest = tokenText name ++ rest.drop (name.length + 3) := by
  obtain ⟨-, -, tail, htail⟩ := h
  have hdrop : (tokenText name ++ tail).drop (name.length + 4) = tail :=
    List.drop_left' (by simp [tokenText])
  rw [htail, List.drop_succ_cons] at hdrop
  rw [hdrop, htail]

/-! ## Gaps and tokens -/

/-- Whether no token begins before the rest of a text. -/
def Gap (gap rest : Text) : Prop :=
  ∀ v, v ≠ [] → v <:+ gap → ∀ name, ¬BeginsWith name (v ++ rest)

/-- A text read from the left as gaps, each with the name of the token after it, and a gap at the
end.  Each token is the first one that begins in what is left of the text. -/
inductive Segments : Text → List (Text × Text) → Text → Prop
  | last {gap : Text} (free : Gap gap []) : Segments gap [] gap
  | token {gap name rest last : Text} {parts : List (Text × Text)}
      (free : Gap gap (tokenText name ++ rest)) (named : name ≠ []) (closed : '}' ∉ name)
      (more : Segments rest parts last) :
      Segments (gap ++ (tokenText name ++ rest)) ((gap, name) :: parts) last

theorem gap_nil (rest : Text) : Gap [] rest := by
  intro v hne hsuffix
  exact absurd (List.suffix_nil.mp hsuffix) hne

theorem gap_cons_iff {c : Char} {gap rest : Text} :
    Gap (c :: gap) rest ↔ tokenAt? (c :: (gap ++ rest)) = none ∧ Gap gap rest := by
  have hnone : tokenAt? (c :: (gap ++ rest)) = none ↔
      ∀ name, ¬BeginsWith name (c :: (gap ++ rest)) := by
    simp only [← tokenAt?_eq_some_iff, Option.eq_none_iff_forall_ne_some, ne_eq]
  rw [hnone]
  constructor
  · intro h
    refine ⟨fun name => h (c :: gap) (by simp) (List.suffix_refl _) name, ?_⟩
    intro v hne hsuffix
    exact h v hne (hsuffix.trans (List.suffix_cons c gap))
  · intro h v hne hsuffix name
    rcases List.suffix_cons_iff.mp hsuffix with rfl | hsuffix
    · exact h.1 name
    · exact h.2 v hne hsuffix name

/-- A text that holds a token is no gap. -/
theorem not_gap_of_token {name : Text} (named : name ≠ []) (closed : '}' ∉ name)
    (before rest : Text) : ¬Gap (before ++ (tokenText name ++ rest)) [] := by
  intro free
  apply free (tokenText name ++ rest) (by simp [tokenText]) (List.suffix_append _ _) name
  rw [List.append_nil]
  exact .token named closed rest

/-- No gap goes on beyond the place where a token begins. -/
theorem Gap.length_le {gap gap' text name rest : Text} (free : Gap gap text)
    (h : gap ++ text = gap' ++ (tokenText name ++ rest)) (named : name ≠ [])
    (closed : '}' ∉ name) : gap.length ≤ gap'.length := by
  by_contra hlt
  rcases List.append_eq_append_iff.mp h with ⟨v, rfl, -⟩ | ⟨v, rfl, htext⟩
  · simp at hlt
  · have hv : v ≠ [] := by
      intro heq
      simp [heq] at hlt
    exact free v hv (List.suffix_append gap' v) name (htext ▸ .token named closed rest)

/-- There is only one way to read a text as gaps and tokens. -/
theorem Segments.unique {text last last' : Text} {parts parts' : List (Text × Text)}
    (h : Segments text parts last) (h' : Segments text parts' last') :
    parts' = parts ∧ last' = last := by
  induction h generalizing parts' with
  | @last gap free =>
    cases h' with
    | last _ => exact ⟨rfl, rfl⟩
    | token _ named closed _ => exact absurd free (not_gap_of_token named closed _ _)
  | @token gap name rest last parts free named closed more ih =>
    generalize htext : gap ++ (tokenText name ++ rest) = text at h'
    cases h' with
    | last free' => exact absurd (htext ▸ free') (not_gap_of_token named closed _ _)
    | @token gap' name' rest' _ parts' free' named' closed' more' =>
      have hlength : gap.length = gap'.length :=
        le_antisymm (free.length_le htext named' closed')
          (free'.length_le htext.symm named closed)
      obtain ⟨rfl, htokens⟩ := List.append_inj htext hlength
      obtain rfl : name = name' :=
        BeginsWith.unique (.token named closed rest) (htokens ▸ .token named' closed' rest')
      obtain rfl := List.append_cancel_left htokens
      obtain ⟨rfl, rfl⟩ := ih more'
      exact ⟨rfl, rfl⟩

/-- Every text can be read as gaps and tokens.  The induction is on the text, as in the search for
its pieces: the characters of a token that has been found are skipped. -/
theorem exists_segments_drop (text : Text) (skip : Nat) :
    ∃ parts last, Segments (text.drop skip) parts last := by
  induction text generalizing skip with
  | nil => exact ⟨[], [], by simpa using .last (gap_nil [])⟩
  | cons c rest ih =>
    cases skip with
    | succ skip => exact ih skip
    | zero =>
      rw [List.drop_zero]
      cases htoken : tokenAt? (c :: rest) with
      | some name =>
        have hbegins := tokenAt?_eq_some_iff.mp htoken
        obtain ⟨parts, last, h⟩ := ih (name.length + 3)
        rw [hbegins.eq_append]
        exact ⟨_, last, .token (gap_nil _) hbegins.1 hbegins.2.1 h⟩
      | none =>
        obtain ⟨parts, last, h⟩ := ih 0
        rw [List.drop_zero] at h
        cases h with
        | last free =>
          exact ⟨[], c :: rest, .last (gap_cons_iff.mpr ⟨by rwa [List.append_nil], free⟩)⟩
        | token free named closed more =>
          exact ⟨_, last, .token (gap_cons_iff.mpr ⟨htoken, free⟩) named closed more⟩

theorem exists_segments (text : Text) : ∃ parts last, Segments text parts last := by
  obtain ⟨parts, last, h⟩ := exists_segments_drop text 0
  exact ⟨parts, last, by rwa [List.drop_zero] at h⟩

/-! ## The pieces of a text -/

theorem piecesFrom_eq (skip : Nat) (text : Text) :
    piecesFrom skip text = pieces (text.drop skip) := by
  induction text generalizing skip with
  | nil => simp [pieces, piecesFrom]
  | cons c rest ih =>
    cases skip with
    | zero => rfl
    | succ skip => exact ih skip

theorem pieces_cons (c : Char) (rest : Text) :
    pieces (c :: rest) =
      match tokenAt? (c :: rest) with
      | some name => .token name :: pieces (rest.drop (name.length + 3))
      | none => .char c :: pieces rest := by
  rw [pieces, piecesFrom]
  cases tokenAt? (c :: rest) with
  | some name => simp only [piecesFrom_eq]
  | none => simp only [piecesFrom_eq, List.drop_zero]

theorem pieces_token {name : Text} (named : name ≠ []) (closed : '}' ∉ name) (rest : Text) :
    pieces (tokenText name ++ rest) = .token name :: pieces rest := by
  have hbegins := BeginsWith.token named closed rest
  have hcons : tokenText name ++ rest = '{' :: ('{' :: name ++ ['}', '}'] ++ rest) := rfl
  rw [hcons] at hbegins ⊢
  have htail := hbegins.eq_append
  rw [← hcons] at htail
  rw [pieces_cons, tokenAt?_eq_some_iff.mpr hbegins]
  simp only [← List.append_cancel_left htail]

theorem pieces_gap {gap rest : Text} (free : Gap gap rest) :
    pieces (gap ++ rest) = gap.map Piece.char ++ pieces rest := by
  induction gap with
  | nil => rfl
  | cons c gap ih =>
    obtain ⟨hnone, free⟩ := gap_cons_iff.mp free
    rw [List.cons_append, pieces_cons, hnone]
    simp only [ih free, List.map_cons, List.cons_append]

/-- The pieces of a text are the characters of its gaps and its tokens. -/
theorem Segments.pieces_eq {text last : Text} {parts : List (Text × Text)}
    (h : Segments text parts last) :
    pieces text =
      parts.flatMap (fun part => part.1.map Piece.char ++ [Piece.token part.2]) ++
        last.map Piece.char := by
  induction h with
  | last free =>
    have hpieces := pieces_gap free
    rwa [List.append_nil, pieces, pieces, piecesFrom, List.append_nil] at hpieces
  | token free named closed more ih =>
    rw [pieces_gap free, pieces_token named closed, ih]
    simp

/-! ## First occurrences -/

theorem addNew_of_mem {items : List Text} {item : Text} (h : item ∈ items) :
    Text.addNew items item = items := if_pos h

theorem foldl_addNew_of_subset {items new : List Text} (h : new ⊆ items) :
    new.foldl Text.addNew items = items := by
  induction new with
  | nil => rfl
  | cons first rest ih =>
    rw [List.foldl_cons, addNew_of_mem (h List.mem_cons_self)]
    exact ih fun x hx => h (List.mem_cons_of_mem _ hx)

/-- What is added one by one are the first occurrences. -/
theorem foldl_addNew_nil (items : List Text) : items.foldl Text.addNew [] = items.eraseDups := by
  induction items using List.reverseRecOn with
  | nil => rfl
  | append_singleton items item ih =>
    rw [List.foldl_append, ih, List.foldl_cons, List.foldl_nil, List.eraseDups_append,
      Text.addNew]
    by_cases hitem : item ∈ items
    · simp [List.removeAll, hitem]
    · simp [List.removeAll, hitem, List.eraseDups_cons]

theorem eraseDups_append_eq_foldl (items new : List Text) :
    (items ++ new).eraseDups = new.foldl Text.addNew items.eraseDups := by
  rw [← foldl_addNew_nil, List.foldl_append, foldl_addNew_nil]

theorem eraseDups_append_of_subset {items new : List Text} (h : new ⊆ items) :
    (items ++ new).eraseDups = items.eraseDups := by
  rw [eraseDups_append_eq_foldl]
  exact foldl_addNew_of_subset fun x hx => List.mem_eraseDups.mpr (h hx)

theorem nodup_eraseDups (items : List Text) : items.eraseDups.Nodup := by
  induction items using List.reverseRecOn with
  | nil => exact List.nodup_nil
  | append_singleton items item ih =>
    rw [eraseDups_append_eq_foldl, List.foldl_cons, List.foldl_nil, Text.addNew]
    split_ifs with hitem
    · exact ih
    · exact List.nodup_append.mpr ⟨ih, by simp, by
        intro x hx y hy heq
        obtain rfl := List.mem_singleton.mp hy
        exact hitem (heq ▸ hx)⟩

theorem foldl_addNew_eraseDups (items new : List Text) :
    new.eraseDups.foldl Text.addNew items = new.foldl Text.addNew items := by
  induction new using List.reverseRecOn with
  | nil => rfl
  | append_singleton new item ih =>
    by_cases hitem : item ∈ new
    · have hmem : item ∈ new.foldl Text.addNew items := mem_foldl_addNew.mpr (Or.inr hitem)
      rw [eraseDups_append_of_subset (by simpa using hitem), ih, List.foldl_append,
        List.foldl_cons, List.foldl_nil, addNew_of_mem hmem]
    · rw [eraseDups_append_eq_foldl, List.foldl_cons, List.foldl_nil, Text.addNew,
        if_neg (by simpa using hitem), List.foldl_append, List.foldl_append, ih]

/-- A name that comes again brings nothing new. -/
theorem eraseDups_flatMap_eraseDups (f : Text → List Text) (items : List Text) :
    (items.eraseDups.flatMap f).eraseDups = (items.flatMap f).eraseDups := by
  induction items using List.reverseRecOn with
  | nil => rfl
  | append_singleton items item ih =>
    rw [List.flatMap_append]
    by_cases hitem : item ∈ items
    · have hsub : [item].flatMap f ⊆ items.flatMap f := by
        intro x hx
        rw [List.flatMap_singleton] at hx
        exact List.mem_flatMap.mpr ⟨item, hitem, hx⟩
      rw [eraseDups_append_of_subset (by simpa using hitem), ih, eraseDups_append_of_subset hsub]
    · rw [eraseDups_append_eq_foldl items, List.foldl_cons, List.foldl_nil, Text.addNew,
        if_neg (by simpa using hitem), List.flatMap_append, eraseDups_append_eq_foldl, ih,
        ← eraseDups_append_eq_foldl]

theorem eraseDups_flatMap_of_eraseDups {α : Type} (f : α → List Text) (items : List α) :
    (items.flatMap fun item => (f item).eraseDups).eraseDups = (items.flatMap f).eraseDups := by
  induction items using List.reverseRecOn with
  | nil => rfl
  | append_singleton items item ih =>
    simp only [List.flatMap_append, List.flatMap_singleton]
    rw [eraseDups_append_eq_foldl, ih, foldl_addNew_eraseDups, ← eraseDups_append_eq_foldl]

/-! ## Tokens alone -/

variable {expand : Text → Expansion}

/-- The names that an expansion reports as missing. -/
def reported : Expansion → List Text
  | .ok _ => []
  | .error names => names

/-- What stands in the place of a token after its expansion. -/
def standing (name : Text) : Expansion → Text
  | .ok value => value
  | .error _ => tokenText name

/-- The names of all tokens of a text, as often as they occur. -/
def occurrences (text : Text) : List Text :=
  (pieces text).filterMap Piece.name?

theorem names_eq_eraseDups (text : Text) : names text = (occurrences text).eraseDups :=
  foldl_addNew_nil _

theorem missingOf_eq (known : List (Text × Expansion)) :
    missingOf known = (known.flatMap fun entry => reported entry.2).eraseDups := by
  induction known using List.reverseRecOn with
  | nil => rfl
  | append_singleton known entry ih =>
    obtain ⟨name, expansion⟩ := entry
    rw [List.flatMap_append, List.flatMap_singleton, eraseDups_append_eq_foldl, ← ih]
    cases expansion with
    | ok value => exact missingOf_concat_ok known name value
    | error names => exact missingOf_concat_error known name names

theorem lookup_map (f : Text → Expansion) {name : Text} {items : List Text} (h : name ∈ items) :
    (items.map fun item => (item, f item)).lookup name = some (f name) := by
  induction items with
  | nil => simp at h
  | cons first rest ih =>
    rw [List.map_cons, List.lookup_cons]
    by_cases hname : name = first
    · simp [hname]
    · rw [beq_eq_false_iff_ne.mpr hname]
      exact ih ((List.mem_cons.mp h).resolve_left hname)

theorem token_fill (expand : Text → Expansion) {name text : Text} (h : name ∈ occurrences text) :
    Piece.fill (expansions expand text) (.token name) = standing name (expand name) := by
  have hlookup : (expansions expand text).lookup name = some (expand name) := by
    apply lookup_map
    rwa [names_eq_eraseDups, List.mem_eraseDups]
  rw [Piece.fill, hlookup]
  cases expand name with
  | ok value => rfl
  | error names => rfl

theorem Segments.occurrences_eq {text last : Text} {parts : List (Text × Text)}
    (h : Segments text parts last) : occurrences text = parts.map Prod.snd := by
  have hchars : ∀ gap : Text, (gap.map Piece.char).filterMap Piece.name? = [] := by
    intro gap
    simp [List.filterMap_eq_nil_iff, Piece.name?]
  rw [occurrences, h.pieces_eq, List.filterMap_append, hchars, List.append_nil,
    List.filterMap_flatMap, List.map_eq_flatMap]
  refine List.flatMap_congr fun part _ => ?_
  rw [List.filterMap_append, hchars]
  rfl

/-- A text is its gaps with its tokens between them. -/
theorem Segments.text_eq {text last : Text} {parts : List (Text × Text)}
    (h : Segments text parts last) :
    parts.flatMap (fun part => part.1 ++ tokenText part.2) ++ last = text := by
  induction h with
  | last _ => rfl
  | token _ _ _ _ ih => rw [List.flatMap_cons, List.append_assoc, ih, List.append_assoc]

/-- The names of a text are those of its tokens. -/
theorem Segments.mem_names_iff {text last name : Text} {parts : List (Text × Text)}
    (h : Segments text parts last) : name ∈ names text ↔ ∃ part ∈ parts, part.2 = name := by
  rw [names_eq_eraseDups, List.mem_eraseDups, h.occurrences_eq, List.mem_map]

/-- Every occurrence of a token is filled with the same text, whatever else is around it. -/
theorem fill_text_eq (expand : Text → Expansion) {text last : Text} {parts : List (Text × Text)}
    (h : Segments text parts last) :
    (fill expand text).text =
      parts.flatMap (fun part => part.1 ++ standing part.2 (expand part.2)) ++ last := by
  have hchars : ∀ (known : List (Text × Expansion)) (gap : Text),
      (gap.map Piece.char).flatMap (Piece.fill known) = gap := by
    intro known gap
    simp [List.flatMap_map, Piece.fill]
  show (pieces text).flatMap (Piece.fill (expansions expand text)) = _
  rw [h.pieces_eq, List.flatMap_append, hchars, List.flatMap_assoc]
  congr 1
  refine List.flatMap_congr fun part hpart => ?_
  have hname : part.2 ∈ occurrences text := by
    rw [h.occurrences_eq]
    exact List.mem_map_of_mem hpart
  rw [List.flatMap_append, hchars, List.flatMap_singleton, token_fill expand hname]

/-- What is missing are the names missing for each of the tokens. -/
theorem fill_missing_eq (expand : Text → Expansion) {text last : Text}
    {parts : List (Text × Text)} (h : Segments text parts last) :
    (fill expand text).missing =
      (parts.flatMap fun part => reported (expand part.2)).eraseDups := by
  show missingOf (expansions expand text) = _
  rw [missingOf_eq, expansions, List.flatMap_map, names_eq_eraseDups,
    eraseDups_flatMap_eraseDups (fun name => reported (expand name)), h.occurrences_eq,
    List.flatMap_map]

/-- A token alone is a text without gaps. -/
theorem segments_token {name : Text} (named : name ≠ []) (closed : '}' ∉ name) :
    Segments (tokenText name) [([], name)] [] := by
  have h := Segments.token (gap_nil (tokenText name ++ [])) named closed (.last (gap_nil []))
  rwa [List.nil_append, List.append_nil] at h

theorem fill_token (expand : Text → Expansion) {name : Text} (named : name ≠ [])
    (closed : '}' ∉ name) :
    (fill expand (tokenText name)).text = standing name (expand name) ∧
      (fill expand (tokenText name)).missing = (reported (expand name)).eraseDups := by
  have h := segments_token named closed
  rw [fill_text_eq expand h, fill_missing_eq expand h]
  simp

theorem Segments.proper {text last : Text} {parts : List (Text × Text)}
    (h : Segments text parts last) : ∀ part ∈ parts, part.2 ≠ [] ∧ '}' ∉ part.2 := by
  induction h with
  | last _ => simp
  | token _ named closed _ ih =>
    intro part hpart
    rcases List.mem_cons.mp hpart with rfl | hpart
    · exact ⟨named, closed⟩
    · exact ih part hpart

/-- **Rendering is compositional.**  There is one way to read a text as gaps and tokens, and
rendering puts each token rendered alone between the gaps.  The missing names are those of the
tokens rendered alone, each where it occurs first. -/
theorem render_segments (config : Tree) (budget : Nat) (text : Text) :
    ∃ parts last, Segments text parts last ∧
      (∀ parts' last', Segments text parts' last' → parts' = parts ∧ last' = last) ∧
      (renderWithin budget config text).text =
        parts.flatMap (fun part =>
          part.1 ++ (renderWithin budget config (tokenText part.2)).text) ++ last ∧
      (renderWithin budget config text).missing =
        (parts.flatMap fun part =>
          (renderWithin budget config (tokenText part.2)).missing).eraseDups ∧
      (renderWithin budget config text).missing.Nodup := by
  obtain ⟨parts, last, h⟩ := exists_segments_drop text 0
  rw [List.drop_zero] at h
  have halone : ∀ part ∈ parts,
      (renderWithin budget config (tokenText part.2)).text =
          standing part.2 (expand config budget part.2) ∧
        (renderWithin budget config (tokenText part.2)).missing =
          (reported (expand config budget part.2)).eraseDups := by
    intro part hpart
    obtain ⟨named, closed⟩ := h.proper part hpart
    exact fill_token (expand config budget) named closed
  have hmissing := fill_missing_eq (expand config budget) h
  refine ⟨parts, last, h, fun _ _ => h.unique, ?_, ?_, ?_⟩
  · rw [renderWithin, fill_text_eq _ h]
    congr 1
    refine List.flatMap_congr fun part hpart => ?_
    rw [(halone part hpart).1]
  · rw [renderWithin, hmissing,
      List.flatMap_congr fun part hpart => (halone part hpart).2,
      eraseDups_flatMap_of_eraseDups]
  · rw [renderWithin, hmissing]
    exact nodup_eraseDups _

end LayeredConfig.Template
