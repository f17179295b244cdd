import LayeredConfig.Proofs.Yaml.Scalars
import LayeredConfig.Yaml.Token.Block
import Mathlib.Data.List.TakeWhile

/-!
# Literal blocks read back

A text with a line feed is written as a block of lines behind a header, which says how the block is
indented if its first line does not show it and what becomes of the line breaks at its end.  Main
statements:

* `emptyLines_break`, `emptyLines_spaces`, `emptyLines_stop` — what is passed over between lines;
* `Lines`, `lines_of_head` — a text by its lines, each with the breaks behind it;
* `exists_blockLines` — the lines of a block are read back, by induction on `Lines`;
* `chompingSign_eq` — the sign in the header stands for what keeps the breaks at the end;
* **`blockScalar?_literal`** — a literal block is read back, up to what is indented less.
-/

namespace LayeredConfig.Yaml

variable {c : Char} {text rest next : Text} {column widest n k : Nat} {breaks : Text}
  {indent : Option Nat}

/-! ## Empty lines -/

theorem emptyLines_break (hprintable : isPrintable c = true) (hbreak : isBreak c = true) :
    emptyLines indent column widest breaks (c :: rest) =
      emptyLines indent 0 (max widest column) (breaks ++ [c]) rest := by
  have hreturn : c ≠ '\r' := ne_of_isPrintable hprintable (by decide)
  have htab : c ≠ '\t' := ne_of_isPrintable hprintable (by decide)
  have hspace : c ≠ ' ' := by
    rintro rfl
    exact absurd hbreak (by decide)
  rw [emptyLines.eq_3 _ _ _ _ _ _ fun _ h _ => hreturn h]
  simp only [hspace, htab, false_and, if_false, if_pos hbreak,
    breakText_of_isPrintable hprintable hbreak]

/-- Indentation that is not more than it has to be is passed over. -/
theorem emptyLines_spaces (m : Nat) (hm : ∀ n ∈ indent, column + m ≤ n) :
    emptyLines indent column widest breaks (spaces m ++ rest) =
      emptyLines indent (column + m) widest breaks rest := by
  induction m generalizing column with
  | zero => rfl
  | succ m ih =>
    have hindenting : ((indent.map fun n => decide (column < n)).getD true) = true := by
      cases indent with
      | none => rfl
      | some n =>
        have := hm n rfl
        simp only [Option.map_some, Option.getD_some, decide_eq_true_eq]
        omega
    rw [spaces, List.replicate_succ, List.cons_append, emptyLines.eq_3 _ _ _ _ _ _ (by simp)]
    simp only [hindenting, and_true, if_true]
    refine (ih fun n hn => ?_).trans (by rw [Nat.add_right_comm]; rfl)
    have := hm n hn
    omega

/-- A line begins at a character that is no indentation. -/
theorem emptyLines_stop (hbreak : isBreak c = false) (htab : c ≠ '\t')
    (hspace : c = ' ' → ∃ n ∈ indent, n ≤ column) :
    emptyLines indent column widest breaks (c :: rest) =
      some ⟨breaks, column, max widest column, c :: rest⟩ := by
  have hreturn : c ≠ '\r' := by
    rintro rfl
    exact absurd hbreak (by decide)
  have hnot : ¬(c = ' ' ∧ ((indent.map fun n => decide (column < n)).getD true) = true) := by
    rintro ⟨rfl, hindenting⟩
    obtain ⟨n, hn, hle⟩ := hspace rfl
    obtain rfl := Option.mem_def.mp hn
    simp at hindenting
    omega
  rw [emptyLines.eq_3 _ _ _ _ _ _ fun _ h _ => hreturn h]
  simp only [if_neg hnot, htab, false_and, if_false, hbreak, Bool.false_eq_true]

/-- Line breaks alone are empty lines. -/
theorem exists_emptyLines_append {more : Text} (hprintable : ∀ c ∈ more, isPrintable c = true)
    (hbreak : ∀ c ∈ more, isBreak c = true) :
    ∃ widest', emptyLines indent 0 widest breaks (more ++ rest) =
      emptyLines indent 0 widest' (breaks ++ more) rest := by
  induction more generalizing widest breaks with
  | nil => exact ⟨widest, by simp⟩
  | cons c more ih =>
    obtain ⟨hc, hprintable'⟩ := List.forall_mem_cons.mp hprintable
    obtain ⟨hcbreak, hbreak'⟩ := List.forall_mem_cons.mp hbreak
    obtain ⟨widest', hrest⟩ := @ih (max widest 0) (breaks ++ [c]) hprintable' hbreak'
    refine ⟨widest', ?_⟩
    rw [List.cons_append, emptyLines_break hc hcbreak, hrest, List.append_assoc,
      List.singleton_append]

/-- Less indentation than that of the block ends it. -/
theorem emptyLines_end (hk : k < n) (hnext : StartsToken next) :
    emptyLines (some n) 0 widest breaks (spaces k ++ next) =
      some ⟨breaks, k, max widest k, next⟩ := by
  rw [emptyLines_spaces k fun m hm => by obtain rfl := Option.some.inj hm; omega, Nat.zero_add]
  cases next with
  | nil => rfl
  | cons c rest =>
    obtain ⟨hspace, -⟩ := startsToken_cons_iff.mp hnext
    simp only [isSpace, isBlank, Bool.or_eq_false_iff, decide_eq_false_iff_not] at hspace
    exact emptyLines_stop hspace.2 hspace.1.2 fun h => absurd h hspace.1.1

/-! ## The lines of a block -/

theorem literalRest_breaks {more : Text} (hbreak : ∀ c ∈ more, isBreak c = true) :
    literalRest n true (more ++ rest) = more ++ literalRest n true rest := by
  induction more with
  | nil => rfl
  | cons c more ih =>
    obtain ⟨hc, hbreak'⟩ := List.forall_mem_cons.mp hbreak
    rw [List.cons_append, literalRest, if_pos hc, ih hbreak', List.cons_append]

theorem literalRest_words {words : Text} (hwords : ∀ c ∈ words, isBreak c = false) :
    literalRest n false (words ++ rest) = words ++ literalRest n false rest := by
  induction words with
  | nil => rfl
  | cons c words ih =>
    obtain ⟨hc, hwords'⟩ := List.forall_mem_cons.mp hwords
    rw [List.cons_append, literalRest, if_neg (by simp [hc]), if_neg Bool.false_ne_true,
      List.nil_append, ih hwords', List.cons_append]

/-- A text by its lines, each with the line breaks after it. -/
inductive Lines : Text → Prop
  | last {words breaks : Text} (hne : words ≠ []) (hwords : ∀ c ∈ words, isBreak c = false)
      (hbreaks : ∀ c ∈ breaks, isBreak c = true) : Lines (words ++ breaks)
  | next {words breaks rest : Text} {c : Char} (hne : words ≠ [])
      (hwords : ∀ c ∈ words, isBreak c = false) (hc : isBreak c = true)
      (hbreaks : ∀ c ∈ breaks, isBreak c = true) (hrest : Lines rest) :
      Lines (words ++ c :: (breaks ++ rest))

theorem Lines.exists_cons (h : Lines text) : ∃ c rest, text = c :: rest ∧ isBreak c = false := by
  cases h with
  | @last words breaks hne hwords _ =>
    obtain ⟨c, words, rfl⟩ := List.exists_cons_of_ne_nil hne
    exact ⟨c, words ++ breaks, rfl, hwords c List.mem_cons_self⟩
  | next hne hwords _ _ _ =>
    rename_i words breaks rest d
    obtain ⟨c, words, rfl⟩ := List.exists_cons_of_ne_nil hne
    exact ⟨c, _, rfl, hwords c List.mem_cons_self⟩

theorem takeWhile_append_cons (inClass : Char → Bool) (rest : Text) {front : Text}
    (hfront : ∀ d ∈ front, inClass d = true) (hc : inClass c = false) :
    (front ++ c :: rest).takeWhile inClass = front ∧
      (front ++ c :: rest).dropWhile inClass = c :: rest := by
  rw [List.takeWhile_append_of_pos hfront, List.dropWhile_append_of_pos hfront,
    List.takeWhile_cons_of_neg (by simp [hc]), List.dropWhile_cons_of_neg (by simp [hc]),
    List.append_nil]
  exact ⟨rfl, rfl⟩

/-- A text is the longest front in a class, and a rest that does not begin in it. -/
theorem exists_front (inClass : Char → Bool) (text : Text) :
    ∃ front rest, text = front ++ rest ∧ (∀ c ∈ front, inClass c = true) ∧
      ∀ c ∈ rest.head?, inClass c = false :=
  ⟨text.takeWhile inClass, text.dropWhile inClass, List.takeWhile_append_dropWhile.symm,
    fun _ hc => List.mem_takeWhile_imp hc, fun c hc => by
      have := List.head?_dropWhile_not inClass text
      rw [Option.mem_def.mp hc] at this
      simpa using this⟩

/-- A text that does not begin with a line break is made of lines. -/
theorem lines_of_head (c : Char) (text : Text) (hc : isBreak c = false) : Lines (c :: text) := by
  obtain ⟨words, more, htext, hwords, hmore⟩ := exists_front (fun d => !isBreak d) text
  have hne : c :: words ≠ [] := List.cons_ne_nil c words
  have hwords' : ∀ d ∈ c :: words, isBreak d = false := by
    simpa [hc] using hwords
  rw [htext, ← List.cons_append]
  cases more with
  | nil => exact .last hne hwords' (List.forall_mem_nil _)
  | cons d more =>
    have hd : isBreak d = true := by simpa using hmore d rfl
    obtain ⟨breaks, line, hsplit, hbreaks, hline⟩ := exists_front isBreak more
    rw [hsplit]
    cases line with
    | nil =>
      rw [List.append_nil]
      exact .last hne hwords' (List.forall_mem_cons.mpr ⟨hd, hbreaks⟩)
    | cons e line => exact .next hne hwords' hd hbreaks (lines_of_head e line (hline e rfl))
termination_by text.length
decreasing_by
  rw [htext, hsplit]
  simp only [List.length_append, List.length_cons]
  omega

/-- The end of the last line of a text, unless it has one. -/
def lineEnd (text : Text) : Text :=
  if (text.getLast?.map isBreak).getD false then [] else ['\n']

theorem nextLine_eq (k : Nat) (text : Text) : nextLine k text = text ++ lineEnd text ++ spaces k :=
  rfl

/-- A line and the empty lines after it. -/
theorem blockLines_cons {fuel : Nat} {words body after : Text} {lines : List BlockLine}
    (hwords : ∀ d ∈ words, isBreak d = false) (hprintable : isPrintable c = true)
    (hc : isBreak c = true)
    (hempty : emptyLines (some n) 0 0 [] body = some ⟨breaks, column, widest, rest⟩)
    (hlines : blockLines n fuel column rest = some (lines, after)) :
    blockLines n (fuel + 1) n (words ++ c :: body) =
      some (⟨words, [c], breaks⟩ :: lines, after) := by
  have hnot : (!isBreak c) = false := by simp [hc]
  have hwords' : ∀ d ∈ words, (!isBreak d) = true := by simpa using hwords
  obtain ⟨htake, hdrop⟩ := takeWhile_append_cons (fun d => !isBreak d) body hwords' hnot
  have hbreak : takeBreak (c :: body) = ([c], body) := by
    have hreturn : c ≠ '\r' := ne_of_isPrintable hprintable (by decide)
    rw [takeBreak, breakText_of_isPrintable hprintable hc,
      dropBreak.eq_2 _ _ fun _ h _ => hreturn h, if_pos hc]
  rw [blockLines, if_pos ⟨rfl, by simp⟩]
  simp only [htake, hdrop, hbreak, hempty, hlines, Option.bind_eq_bind, Option.bind_some]
  rfl

theorem blockLines_of_ne {fuel : Nat} (hcolumn : column ≠ n) :
    blockLines n fuel column rest = some ([], rest) := by
  cases fuel with
  | zero => rfl
  | succ fuel => rw [blockLines, if_neg fun h => hcolumn h.1]

/-! ## What becomes of the line breaks at the end -/

theorem lineEnd_append (front : Text) (hne : text ≠ []) :
    lineEnd (front ++ text) = lineEnd text := by
  obtain ⟨c, hlast⟩ := List.getLast?_isSome.mpr hne |> Option.isSome_iff_exists.mp
  rw [lineEnd, lineEnd, List.getLast?_append, hlast, Option.some_or]

theorem lineEnd_of_break (hne : breaks ≠ []) (hbreaks : ∀ c ∈ breaks, isBreak c = true) :
    lineEnd breaks = [] := by
  rw [lineEnd, List.getLast?_eq_some_getLast hne, Option.map_some, Option.getD_some,
    if_pos (hbreaks _ (List.getLast_mem hne))]

theorem lineEnd_of_word (hbreak : ∀ c ∈ text.getLast?, isBreak c = false) :
    lineEnd text = ['\n'] := by
  cases hlast : text.getLast? with
  | none => rw [lineEnd, hlast]; rfl
  | some c =>
    rw [lineEnd, hlast, Option.map_some, Option.getD_some, if_neg (by simp [hbreak c hlast])]

/-- The lines of a block end like their text. -/
theorem getLast?_literalRest (indent : Nat) (newLine : Bool) (text : Text) :
    (literalRest indent newLine text).getLast? = text.getLast? := by
  induction text generalizing newLine with
  | nil => rfl
  | cons c rest ih =>
    have hlast : ∀ newLine, (c :: literalRest indent newLine rest).getLast? =
        (c :: rest).getLast? := by
      intro newLine
      rw [List.getLast?_cons, List.getLast?_cons, ih]
    rw [literalRest]
    split_ifs
    · exact hlast true
    · rw [List.getLast?_append, hlast, List.getLast?_cons]
      rfl
    · exact hlast false

/-- The chomping that keeps the line breaks at the end of a text. -/
def endChomping (text : Text) : Chomping :=
  match text.reverse with
  | [] => .strip
  | [c] => if isBreak c then .keep else .strip
  | c :: d :: _ => if isBreak c then if isBreak d then .keep else .clip else .strip

/-- The lines before the last one do not count. -/
theorem endChomping_append {front : Text} (h : Lines text) :
    endChomping (front ++ text) = endChomping text := by
  obtain ⟨c, rest, rfl, hc⟩ := h.exists_cons
  simp only [endChomping, List.reverse_append, List.reverse_cons, List.append_assoc,
    List.singleton_append]
  cases rest.reverse with
  | nil => cases front.reverse <;> simp [hc]
  | cons d more => cases more <;> rfl

theorem endChomping_word (hbreak : ∀ c ∈ text.getLast?, isBreak c = false) :
    endChomping text = .strip := by
  rw [← List.head?_reverse] at hbreak
  unfold endChomping
  cases hreverse : text.reverse with
  | nil => rfl
  | cons c rest =>
    have hc : isBreak c = false := hbreak c (by rw [hreverse]; rfl)
    cases rest <;> simp [hc]

/-- Of several line breaks at the end none is dropped. -/
theorem endChomping_breaks {words : Text} (hne : words ≠ [])
    (hwords : ∀ d ∈ words, isBreak d = false) (hc : isBreak c = true)
    (hbreaks : ∀ d ∈ breaks, isBreak d = true) :
    endChomping (words ++ c :: breaks) = if breaks = [] then .clip else .keep := by
  have hshown : (words ++ c :: breaks).reverse = breaks.reverse ++ c :: words.reverse := by simp
  unfold endChomping
  rw [hshown]
  cases hreverse : breaks.reverse with
  | nil =>
    rw [if_pos (List.reverse_eq_nil_iff.mp hreverse)]
    cases hlast : words.reverse with
    | nil => exact absurd (List.reverse_eq_nil_iff.mp hlast) hne
    | cons d front =>
      have hd : isBreak d = false := hwords d (List.mem_reverse.mp (hlast ▸ List.mem_cons_self))
      simp [hc, hd]
  | cons d front =>
    have hmem : ∀ e ∈ d :: front, isBreak e = true :=
      fun e he => hbreaks e (List.mem_reverse.mp (hreverse ▸ he))
    rw [if_neg fun hnil => by simp [hnil] at hreverse]
    cases front with
    | nil => simp [hc, hmem d]
    | cons e front => simp [hmem d, hmem e]

/-- The last line and the line breaks after it. -/
theorem blockTextFrom_last {words : Text} (hne : words ≠ [])
    (hwords : ∀ d ∈ words, isBreak d = false) (hc : isBreak c = true)
    (hbreaks : ∀ d ∈ breaks, isBreak d = true) (previous : BlockLine) :
    blockTextFrom false (endChomping (words ++ c :: breaks)) previous [⟨words, [c], breaks⟩] =
      previous.lineBreak ++ previous.emptyAfter ++ (words ++ c :: breaks) := by
  rw [endChomping_breaks hne hwords hc hbreaks]
  by_cases hnil : breaks = []
  · subst hnil
    simp [blockTextFrom]
  · simp [blockTextFrom, hnil]

/-- The first line of a text that does not begin with a line break is indented. -/
theorem literalRest_line {d : Char} (hd : isBreak d = false) (newLine : Bool) :
    literalRest n newLine (d :: rest) =
      (if newLine then spaces n else []) ++ d :: literalRest n false rest := by
  rw [literalRest, if_neg (by simp [hd])]

/-- The empty lines before a line. -/
theorem exists_emptyLines_line (n : Nat) (rest : Text) {d : Char} (hd : isBreak d = false)
    (hprintable : isPrintable d = true) (hbreaks : ∀ c ∈ breaks, isBreak c = true)
    (hall : ∀ c ∈ breaks, isPrintable c = true) :
    ∃ widest', emptyLines (some n) 0 widest [] (breaks ++ (spaces n ++ d :: rest)) =
      some ⟨breaks, n, widest', d :: rest⟩ := by
  obtain ⟨widest', hempty⟩ := exists_emptyLines_append hall hbreaks
  refine ⟨max widest' n, ?_⟩
  rw [hempty, emptyLines_spaces n fun m hm => by obtain rfl := Option.some.inj hm; omega,
    Nat.zero_add, List.nil_append]
  exact emptyLines_stop hd (ne_of_isPrintable hprintable (by decide)) fun _ => ⟨n, rfl, le_refl n⟩

/-- An indentation that is not known yet is found on the first line. -/
theorem emptyLines_first (n : Nat) (rest : Text) {d : Char} (hd : isBreak d = false)
    (hspace : d ≠ ' ') (hprintable : isPrintable d = true) :
    emptyLines none 0 0 [] (spaces n ++ d :: rest) = some ⟨[], n, n, d :: rest⟩ := by
  rw [emptyLines_spaces n (by simp), emptyLines_stop hd (ne_of_isPrintable hprintable (by decide))
    fun h => absurd h hspace]
  simp

/-- Empty lines before what is indented less. -/
theorem exists_emptyLines_end (hbreaks : ∀ c ∈ breaks, isBreak c = true)
    (hall : ∀ c ∈ breaks, isPrintable c = true) (hk : k < n) (hnext : StartsToken next) :
    ∃ widest', emptyLines (some n) 0 widest [] (breaks ++ (spaces k ++ next)) =
      some ⟨breaks, k, widest', next⟩ := by
  obtain ⟨widest', hempty⟩ := exists_emptyLines_append hall hbreaks
  exact ⟨max widest' k, hempty.trans (emptyLines_end hk hnext)⟩

/-- **The lines of a literal block are read back**, up to what is indented less. -/
theorem exists_blockLines (h : Lines text) (hprintable : ∀ c ∈ text, isPrintable c = true)
    (hk : k < n) (hnext : StartsToken next) {fuel : Nat} (hfuel : text.length ≤ fuel) :
    ∃ lines,
      blockLines n fuel n (literalRest n false text ++ (lineEnd text ++ (spaces k ++ next))) =
        some (lines, next) ∧
      ∀ previous, blockTextFrom false (endChomping text) previous lines =
        previous.lineBreak ++ previous.emptyAfter ++ text := by
  induction h generalizing fuel with
  | @last words breaks hne hwords hbreaks =>
    obtain ⟨fuel, rfl⟩ : ∃ m, fuel = m + 1 := by
      have := List.length_pos_iff.mpr hne
      simp only [List.length_append] at hfuel
      exact ⟨fuel - 1, by omega⟩
    rw [literalRest_words hwords, List.append_assoc]
    cases breaks with
    | nil =>
      have hword : ∀ c ∈ (words ++ []).getLast?, isBreak c = false := by
        rw [List.append_nil]
        exact fun c hc => hwords c (List.mem_of_getLast? hc)
      rw [lineEnd_of_word hword, endChomping_word hword, List.append_nil]
      refine ⟨_, blockLines_cons hwords (by decide) (by decide) (emptyLines_end hk hnext)
        (blockLines_of_ne hk.ne), fun previous => ?_⟩
      simp [blockTextFrom]
    | cons c breaks =>
      obtain ⟨hc, hbreaks'⟩ := List.forall_mem_cons.mp hbreaks
      obtain ⟨hcprintable, hall⟩ := List.forall_mem_cons.mp
        fun d hd => hprintable d (List.mem_append_right words hd)
      obtain ⟨widest', hempty⟩ := exists_emptyLines_end hbreaks' hall hk hnext
      rw [lineEnd_append _ (List.cons_ne_nil c breaks), lineEnd_of_break (List.cons_ne_nil c breaks)
        hbreaks, literalRest, if_pos hc, ← List.append_nil breaks, literalRest_breaks hbreaks',
        literalRest, List.append_nil]
      exact ⟨_, blockLines_cons hwords hcprintable hc hempty (blockLines_of_ne hk.ne),
        blockTextFrom_last hne hwords hc hbreaks'⟩
  | @next words breaks rest c hne hwords hc hbreaks hrest ih =>
    obtain ⟨fuel, rfl⟩ : ∃ m, fuel = m + 1 := by
      have := List.length_pos_iff.mpr hne
      simp only [List.length_append] at hfuel
      exact ⟨fuel - 1, by omega⟩
    obtain ⟨hcprintable, hall⟩ := List.forall_mem_cons.mp
      fun d hd => hprintable d (List.mem_append_right words hd)
    have hfuel' : rest.length ≤ fuel := by
      simp only [List.length_append, List.length_cons] at hfuel
      omega
    obtain ⟨lines, hlines, htext⟩ :=
      ih (fun d hd => hall d (List.mem_append_right breaks hd)) hfuel'
    obtain ⟨d, rest, rfl, hd⟩ := hrest.exists_cons
    have hshown : lineEnd (words ++ c :: (breaks ++ d :: rest)) = lineEnd (d :: rest) := by
      rw [← List.cons_append, ← List.append_assoc, lineEnd_append _ (List.cons_ne_nil d rest)]
    have hchomping : endChomping (words ++ c :: (breaks ++ d :: rest)) =
        endChomping (d :: rest) := by
      rw [← List.cons_append, ← List.append_assoc, endChomping_append hrest]
    obtain ⟨widest', hempty⟩ := exists_emptyLines_line n
      (literalRest n false rest ++ (lineEnd (d :: rest) ++ (spaces k ++ next))) hd
      (hall d (by simp)) hbreaks fun e he => hall e (List.mem_append_left _ he)
    rw [literalRest_line hd, if_neg Bool.false_ne_true, List.nil_append, List.cons_append] at hlines
    rw [hshown, hchomping, literalRest_words hwords, literalRest, if_pos hc,
      literalRest_breaks hbreaks, literalRest_line hd, if_pos rfl]
    simp only [List.append_assoc, List.cons_append]
    refine ⟨_, blockLines_cons hwords hcprintable hc hempty hlines, fun previous => ?_⟩
    rw [blockTextFrom, htext]
    simp

/-! ## The whole scalar -/

/-- The sign of a chomping. -/
def Chomping.sign : Chomping → Text
  | .strip => ['-']
  | .clip => []
  | .keep => ['+']

theorem chompingSign_eq (text : Text) : chompingSign text = (endChomping text).sign := by
  unfold chompingSign endChomping
  cases text.reverse with
  | nil => rfl
  | cons c rest =>
    cases rest with
    | nil => cases hc : isBreak c <;> simp [hc, Chomping.sign]
    | cons d rest => cases hc : isBreak c <;> cases hd : isBreak d <;> simp [hc, hd, Chomping.sign]

theorem blockHeader?_marks (indented : Bool) (chomping : Chomping) (body : Text) :
    blockHeader? ((if indented then ['2'] else []) ++ chomping.sign ++ '\n' :: body) =
      some (chomping, if indented then some 2 else none, body) := by
  cases indented <;> cases chomping <;> rfl

theorem length_le_literalRest (newLine : Bool) (text : Text) :
    text.length ≤ (literalRest n newLine text).length := by
  induction text generalizing newLine with
  | nil => exact Nat.zero_le _
  | cons c rest ih =>
    have htrue := ih true
    have hfalse := ih false
    rw [literalRest]
    split_ifs <;> simp only [List.length_cons, List.length_append] <;> omega

theorem endChomping_of_breaks (hne : breaks ≠ []) (hbreaks : ∀ c ∈ breaks, isBreak c = true) :
    endChomping breaks = .keep := by
  have hmem : ∀ c ∈ breaks.reverse, isBreak c = true :=
    fun c hc => hbreaks c (List.mem_reverse.mp hc)
  unfold endChomping
  cases hreverse : breaks.reverse with
  | nil => exact absurd (List.reverse_eq_nil_iff.mp hreverse) hne
  | cons c rest =>
    rw [hreverse] at hmem
    cases rest with
    | nil => simp [hmem c]
    | cons d rest => simp [hmem c, hmem d]

/-- The block after its header, when the indentation is known and empty lines have been passed. -/
theorem exists_blockLines_from {line : Text} (h : Lines line)
    (hprintable : ∀ c ∈ line, isPrintable c = true) (hk : k < n) (hnext : StartsToken next) :
    ∃ lines, blockLines n
        (literalRest n false line ++ (lineEnd line ++ (spaces k ++ next))).length n
        (literalRest n false line ++ (lineEnd line ++ (spaces k ++ next))) = some (lines, next) ∧
      ∀ previous, blockTextFrom false (endChomping line) previous lines =
        previous.lineBreak ++ previous.emptyAfter ++ line := by
  refine exists_blockLines h hprintable hk hnext ?_
  rw [List.length_append]
  exact Nat.le_add_right_of_le (length_le_literalRest false line)

/-- A block scalar by its header, the empty lines after that and its lines. -/
theorem blockScalar?_of_lines {outer : Nat} {increment : Option Nat} {chomping : Chomping}
    {body after : Text} {lines : List BlockLine}
    (hheader : blockHeader? text = some (chomping, increment, body))
    (hempty : emptyLines (increment.map (outer + ·)) 0 0 [] body =
      some ⟨breaks, column, widest, rest⟩)
    (hindent : (increment.map (outer + ·)).getD (max (max widest (outer + 1)) 1) = n)
    (hlines : blockLines n rest.length column rest = some (lines, after)) :
    blockScalar? false outer text =
      some (blockTextFrom false chomping ⟨[], [], breaks⟩ lines, after) := by
  have hgiven : (increment.map fun n => if (0 : Int) ≤ outer then (outer : Int).toNat + n else n) =
      increment.map (outer + ·) := by
    simp
  have houter : ((outer : Int) + 1).toNat = outer + 1 := by omega
  rw [blockScalar?, hheader]
  simp only [Option.bind_eq_bind, Option.bind_some, hgiven, hempty, houter, hindent, hlines]
  rfl

/-- **A literal block is read back.** -/
theorem blockScalar?_literal {outer : Nat} (hne : text ≠ [])
    (hprintable : ∀ c ∈ text, isPrintable c = true) (hk : k ≤ outer) (hnext : StartsToken next) :
    blockScalar? false outer ((if startsIndented text then ['2'] else []) ++ chompingSign text ++
      '\n' :: (literalRest (outer + 2) true text ++ (lineEnd text ++ (spaces k ++ next)))) =
        some (text, next) := by
  have hk' : k < outer + 2 := by omega
  have hheader := blockHeader?_marks (startsIndented text) (endChomping text)
    (literalRest (outer + 2) true text ++ (lineEnd text ++ (spaces k ++ next)))
  rw [← chompingSign_eq] at hheader
  obtain ⟨breaks, line, rfl, hbreaks, hline⟩ := exists_front isBreak text
  have hall : ∀ c ∈ breaks, isPrintable c = true :=
    fun c hc => hprintable c (List.mem_append_left _ hc)
  have hindented : breaks ≠ [] → startsIndented (breaks ++ line) = true := by
    intro hne
    obtain ⟨c, more, rfl⟩ := List.exists_cons_of_ne_nil hne
    simp [startsIndented, hbreaks c]
  cases line with
  | nil =>
    rw [List.append_nil] at hne hindented hheader ⊢
    obtain ⟨widest', hempty⟩ := exists_emptyLines_end hbreaks hall hk' hnext
    have hbody : literalRest (outer + 2) true breaks = breaks := by
      rw [← List.append_nil breaks, literalRest_breaks hbreaks, literalRest]
    rw [lineEnd_of_break hne hbreaks, hbody, hindented hne, if_pos rfl, if_pos rfl,
      List.nil_append, endChomping_of_breaks hne hbreaks] at hheader
    rw [lineEnd_of_break hne hbreaks, hbody, hindented hne, if_pos rfl, List.nil_append]
    rw [blockScalar?_of_lines hheader hempty rfl (blockLines_of_ne hk'.ne)]
    rfl
  | cons d rest =>
    have hd : isBreak d = false := hline d rfl
    have hlines := lines_of_head d rest hd
    have hdprintable : isPrintable d = true := hprintable d (by simp)
    obtain ⟨lines, hread, htext⟩ := exists_blockLines_from hlines
      (fun c hc => hprintable c (List.mem_append_right _ hc)) hk' hnext
    rw [endChomping_append hlines] at hheader
    rw [literalRest_line hd, if_neg Bool.false_ne_true, List.nil_append, List.cons_append] at hread
    rw [lineEnd_append _ (List.cons_ne_nil d rest), literalRest_breaks hbreaks, literalRest_line hd,
      if_pos rfl] at hheader ⊢
    simp only [List.append_assoc, List.cons_append] at hheader ⊢
    by_cases hstart : startsIndented (breaks ++ d :: rest) = true
    · obtain ⟨widest', hempty⟩ := exists_emptyLines_line (outer + 2)
        (literalRest (outer + 2) false rest ++ (lineEnd (d :: rest) ++ (spaces k ++ next))) hd
        hdprintable hbreaks hall
      rw [if_pos hstart, if_pos hstart] at hheader
      rw [if_pos hstart, blockScalar?_of_lines hheader hempty rfl hread, htext]
      rfl
    · obtain rfl : breaks = [] := by
        by_contra hne
        exact hstart (hindented hne)
      have hspace : d ≠ ' ' := by
        rintro rfl
        exact hstart rfl
      have hempty := emptyLines_first (outer + 2)
        (literalRest (outer + 2) false rest ++ (lineEnd (d :: rest) ++ (spaces k ++ next))) hd
        hspace hdprintable
      rw [if_neg hstart, if_neg hstart] at hheader
      rw [if_neg hstart, blockScalar?_of_lines hheader hempty (by simp) hread, htext]
      rfl

end LayeredConfig.Yaml
