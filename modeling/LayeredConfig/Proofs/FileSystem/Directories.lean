import LayeredConfig.FileSystem.Write
import LayeredConfig.Proofs.FileSystem.Ancestors
import LayeredConfig.Proofs.FileSystem.Filling

/-!
# Making directories

The directories on the way down some names are made as far as they are missing, and that works
unless one of the names stands for a file.  Main statements:

* `createDirectories_of_isDirectory` — where the directory exists, nothing is done;
* `createDirectories_below` — **the exact outcome** for names below a directory: with a file on
  the way an error and no change, otherwise exactly the missing directories are new.
-/

namespace LayeredConfig.FileSystem

variable {fs : FileSystem} {here : Location} {ns init : Location} {name : Text} {base : Path}

/-! ## One directory -/

theorem makeDirectory_of_enters (hlf : fs.LinkFree) {path : Text} (h : fs.Enters path)
    (hne : path ≠ []) : fs.makeDirectory path = .error .exists := by
  unfold makeDirectory
  rw [(follow_eq_found_iff hlf).mpr ⟨hne, h.isOpen, rfl⟩]

theorem createDirectories_of_isDirectory (hlf : fs.LinkFree) {path : Text}
    (h : fs.isDirectory path = true) : fs.createDirectories path = (.ok (), fs) := by
  have hne : path ≠ [] := ((isDirectory_iff hlf).mp h).1.1
  unfold createDirectories
  rw [ancestors, ancestorsFrom]
  cases parent? path with
  | none => rfl
  | some above =>
    simp only [makeFirst, makeDirectory_of_enters hlf (enters_of_isDirectory hlf h) hne, h, if_true]

/-- Whether a place is on the way down some names, the end included and the beginning not. -/
def OnWay (here ns l : Location) : Prop :=
  here <+: l ∧ l ≠ here ∧ l <+: here ++ ns

instance (here ns l : Location) : Decidable (OnWay here ns l) :=
  inferInstanceAs (Decidable (_ ∧ _ ∧ _))

/-- Whether a file stands on the way down some names. -/
def FileOnWay (fs : FileSystem) (here ns : Location) : Prop :=
  ∃ l, OnWay here ns l ∧ (fs.fileAt? l).isSome

theorem onWay_iff {l : Location} :
    OnWay here ns l ↔ ∃ p, p <+: ns ∧ p ≠ [] ∧ l = here ++ p := by
  constructor
  · intro hway
    obtain ⟨⟨p, rfl⟩, hne, hpre⟩ := hway
    exact ⟨p, (List.prefix_append_right_inj here).mp hpre, fun hp => hne (by simp [hp]), rfl⟩
  · intro hway
    obtain ⟨p, hpre, hp, rfl⟩ := hway
    exact ⟨List.prefix_append here p, by simpa using hp,
      (List.prefix_append_right_inj here).mpr hpre⟩

theorem onWay_concat_iff {l : Location} :
    OnWay here (ns ++ [name]) l ↔ l = here ++ (ns ++ [name]) ∨ OnWay here ns l := by
  simp only [onWay_iff]
  constructor
  · intro hway
    obtain ⟨p, hpre, hp, rfl⟩ := hway
    rcases List.prefix_concat_iff.mp hpre with rfl | hpre
    · exact Or.inl rfl
    · exact Or.inr ⟨p, hpre, hp, rfl⟩
  · intro hway
    rcases hway with rfl | ⟨p, hpre, hp, rfl⟩
    · exact ⟨ns ++ [name], List.prefix_refl _, by simp, rfl⟩
    · exact ⟨p, List.prefix_concat_iff.mpr (Or.inr hpre), hp, rfl⟩

/-- What is on the way to a directory is a directory. -/
theorem faceAt?_of_onWay {l : Location} (h : OnWay here ns l)
    (hdir : fs.faceAt? (here ++ ns) = some .directory) : fs.faceAt? l = some .directory := by
  by_cases hl : l = here ++ ns
  · rw [hl, hdir]
  · exact faceAt?_of_prefix h.2.2 hl (by simp [hdir])

/-- What is above an entry, on the way to it, is a directory. -/
theorem faceAt?_of_onWay_dropLast {l : Location} (hne : ns ≠ []) (h : OnWay here ns.dropLast l)
    (hface : fs.faceAt? (here ++ ns) ≠ none) : fs.faceAt? l = some .directory := by
  have hlast : here ++ ns = here ++ ns.dropLast ++ [ns.getLast hne] := by
    rw [List.append_assoc, List.dropLast_append_getLast]
  rw [hlast] at hface
  exact faceAt?_of_onWay h (faceAt?_of_append (List.cons_ne_nil _ _) hface)

section Walking

variable {onLink : Location → Text → List Step → Except OsError Destination} {followLast : Bool}

theorem walkWith_fileOnWay (hlf : fs.LinkFree) (h : FileOnWay fs here init) :
    walkWith onLink followLast fs.root here ((init ++ [name]).map .down) =
      .error .notADirectory := by
  obtain ⟨l, hway, hfile⟩ := h
  obtain ⟨p, ⟨rest, rfl⟩, hp, rfl⟩ := onWay_iff.mp hway
  obtain ⟨content, hfile⟩ := Option.isSome_iff_exists.mp hfile
  have hface := fileAt?_eq_some_iff.mp hfile
  have hopen : Open fs here (p.map .down) := (open_down_iff hp).mpr (by simp [hface])
  rw [List.append_assoc, List.map_append, walkWith_append hlf hopen, foldl_next_down]
  exact walkWith_file hface (by simp)

theorem walkWith_notFound (hlf : fs.LinkFree) (hdir : fs.faceAt? here = some .directory)
    (hno : ¬FileOnWay fs here init) (hmissing : fs.faceAt? (here ++ init) = none) :
    walkWith onLink followLast fs.root here ((init ++ [name]).map .down) = .error .notFound := by
  induction init generalizing here with
  | nil => simp [hdir] at hmissing
  | cons first rest ih =>
    have hfirst := faceAt?_cases hlf (here ++ [first])
    rw [List.cons_append, List.map_cons]
    rcases hfirst with hnone | ⟨content, hfile⟩ | hdir'
    · exact walkWith_missing hdir hnone (by simp)
    · refine absurd ⟨here ++ [first], onWay_iff.mpr ⟨[first], by simp, by simp, rfl⟩, ?_⟩ hno
      rw [fileAt?_eq_some_iff.mpr hfile]
      rfl
    · have hopen : Open fs here ([first].map .down) :=
        (open_down_iff (List.cons_ne_nil first [])).mpr (by simp [hdir'])
      rw [walkWith_cons hlf hopen]
      refine ih hdir' ?_ (by simpa [Step.next] using hmissing)
      intro hway
      obtain ⟨l, hway, hfile⟩ := hway
      obtain ⟨p, hpre, hp, rfl⟩ := onWay_iff.mp hway
      refine hno ⟨_, onWay_iff.mpr ⟨first :: p, ?_, by simp, rfl⟩, by simpa [Step.next] using hfile⟩
      simpa using hpre

end Walking

/-- What following the names below a directory comes to. -/
theorem follow_below (hbase : fs.Enters base.text) (hlf : fs.LinkFree) (hne : ns ≠ [])
    (h : ∀ n ∈ ns, ProperName n) (followLast : Bool) :
    ∃ onLink, fs.follow followLast (base.below ns) (Step.ofPath (base.below ns)) =
      walkWith onLink followLast fs.root (placeOf fs.workingDirectory base.text)
        (ns.map .down) := by
  obtain ⟨onLink, hwalk⟩ := walk_eq_walkWith followLast fs.root mostLinks
  refine ⟨onLink, ?_⟩
  rw [follow, if_neg (Path.below_ne_nil hne h base), hwalk, Path.ofPath_below hne h,
    Path.start_below hne h, walkWith_append hlf hbase.isOpen]
  rfl

section Below

variable (hbase : fs.Enters base.text) (hs : fs.Sound)
  (h : ∀ n ∈ init ++ [name], ProperName n)

include hbase hs h

theorem makeDirectory_fileOnWay
    (hfile : FileOnWay fs (placeOf fs.workingDirectory base.text) init) :
    fs.makeDirectory (base.below (init ++ [name])) = .error .notADirectory := by
  obtain ⟨onLink, hfollow⟩ := follow_below hbase hs.linkFree (by simp) h false
  rw [makeDirectory, hfollow, walkWith_fileOnWay hs.linkFree hfile]

theorem makeDirectory_notFound
    (hno : ¬FileOnWay fs (placeOf fs.workingDirectory base.text) init)
    (hmissing : fs.faceAt? (placeOf fs.workingDirectory base.text ++ init) = none) :
    fs.makeDirectory (base.below (init ++ [name])) = .error .notFound := by
  obtain ⟨onLink, hfollow⟩ := follow_below hbase hs.linkFree (by simp) h false
  rw [makeDirectory, hfollow, walkWith_notFound hs.linkFree hbase.directory hno hmissing]

theorem makeDirectory_present
    (hface : fs.faceAt? (placeOf fs.workingDirectory base.text ++ (init ++ [name])) ≠ none) :
    fs.makeDirectory (base.below (init ++ [name])) = .error .exists := by
  have hreach := (reaches_below_iff (by simp) h hbase).mpr hface
  rw [Reaches, Path.toEntry_below (by simp) h, ← Path.ofPath_below (by simp) h] at hreach
  rw [makeDirectory, (follow_eq_found_iff hs.linkFree).mpr ⟨hreach.1, hreach.2, rfl⟩]

theorem makeDirectory_vacant
    (hdir : fs.faceAt? (placeOf fs.workingDirectory base.text ++ init) = some .directory)
    (hface : fs.faceAt? (placeOf fs.workingDirectory base.text ++ (init ++ [name])) = none) :
    fs.makeDirectory (base.below (init ++ [name])) =
      .ok (fs.put (placeOf fs.workingDirectory base.text ++ (init ++ [name])) (.directory [])) := by
  obtain ⟨onLink, hfollow⟩ := follow_below hbase hs.linkFree (by simp) h false
  have hopen : Open fs (placeOf fs.workingDirectory base.text) (init.map .down) := by
    cases init with
    | nil => trivial
    | cons first rest => exact (open_down_iff (by simp)).mpr (by simp [hdir])
  rw [← List.append_assoc] at hface
  rw [makeDirectory, hfollow, List.map_append, walkWith_append hs.linkFree hopen, foldl_next_down,
    List.map_cons, List.map_nil, walkWith_vacant hdir hface]
  simp only [List.append_assoc]

end Below

/-! ## All directories on the way -/

theorem makeFirst_ok {path : Text} {fs' : FileSystem} (h : fs.makeDirectory path = .ok fs')
    (above : List Text) : makeFirst (path :: above) fs = (.ok (), fs') := by
  simp only [makeFirst, h]

theorem makeFirst_refused {path : Text} {reason : OsError}
    (h : fs.makeDirectory path = .error reason) (hreason : reason ≠ .notFound)
    (above : List Text) :
    makeFirst (path :: above) fs =
      if fs.isDirectory path then (.ok (), fs) else (.error reason, fs) := by
  cases reason with
  | notFound => exact absurd rfl hreason
  | _ => simp only [makeFirst, h]

theorem makeFirst_notFound {path : Text} (h : fs.makeDirectory path = .error .notFound)
    {above : List Text} {fs' fs'' : FileSystem} (habove : makeFirst above fs = (.ok (), fs'))
    (hthen : fs'.makeDirectory path = .ok fs'') :
    makeFirst (path :: above) fs = (.ok (), fs'') := by
  simp only [makeFirst, h, habove, hthen]

/-- The faces when all directories on the way down some names exist. -/
def withDirectories (here ns : Location) (fs : FileSystem) (l : Location) : Option Face :=
  if OnWay here ns l then some .directory else fs.faceAt? l

theorem withDirectories_of_directory (hdir : fs.faceAt? (here ++ ns) = some .directory)
    (l : Location) : withDirectories here ns fs l = fs.faceAt? l := by
  unfold withDirectories
  split_ifs with hway
  · exact (faceAt?_of_onWay hway hdir).symm
  · rfl

theorem withDirectories_concat (l : Location) :
    withDirectories here (ns ++ [name]) fs l =
      if l = here ++ (ns ++ [name]) then some .directory else withDirectories here ns fs l := by
  simp only [withDirectories, onWay_concat_iff]
  by_cases h1 : l = here ++ (ns ++ [name])
  · simp [h1]
  · simp [h1]

theorem withDirectories_self (hne : ns ≠ []) :
    withDirectories here ns fs (here ++ ns) = some .directory :=
  if_pos (onWay_iff.mpr ⟨ns, List.prefix_refl ns, hne, rfl⟩)

/-- A place below the last name is not on the way to it. -/
theorem withDirectories_next (here ns : Location) (name : Text) (fs : FileSystem) :
    withDirectories here ns fs (here ++ (ns ++ [name])) = fs.faceAt? (here ++ (ns ++ [name])) := by
  rw [withDirectories, if_neg]
  intro hway
  have hlen := hway.2.2.length_le
  simp only [List.length_append, List.length_singleton] at hlen
  omega

theorem Becomes.keeps_withDirectories {fs' : FileSystem}
    (h : Becomes fs fs' (withDirectories here ns fs)) : Keeps fs fs' := by
  refine h.keeps (fun l => ?_)
  unfold withDirectories
  split_ifs with hway
  · by_cases hdir : fs.faceAt? l = some .directory
    · exact Or.inl hdir.symm
    · exact Or.inr ⟨hdir, by simp⟩
  · exact Or.inl rfl

theorem fileOnWay_of_file {content : Bytes} (hne : ns ≠ [])
    (hfile : fs.faceAt? (here ++ ns) = some (.file content)) : FileOnWay fs here ns := by
  refine ⟨here ++ ns, onWay_iff.mpr ⟨ns, List.prefix_refl ns, hne, rfl⟩, ?_⟩
  rw [fileAt?_eq_some_iff.mpr hfile]
  rfl

theorem FileOnWay.concat (h : FileOnWay fs here ns) (name : Text) :
    FileOnWay fs here (ns ++ [name]) := by
  obtain ⟨l, hway, hfile⟩ := h
  exact ⟨l, onWay_concat_iff.mpr (Or.inr hway), hfile⟩

/-- No directory is below a file. -/
theorem FileOnWay.not_directory (h : FileOnWay fs here ns) :
    fs.faceAt? (here ++ ns) ≠ some .directory := by
  intro hdir
  obtain ⟨l, hway, hfile⟩ := h
  obtain ⟨content, hfile⟩ := Option.isSome_iff_exists.mp hfile
  have hface := faceAt?_of_onWay hway hdir
  rw [fileAt?_eq_some_iff.mp hfile] at hface
  simp at hface

theorem fileOnWay_concat_iff :
    FileOnWay fs here (ns ++ [name]) ↔
      FileOnWay fs here ns ∨ (fs.fileAt? (here ++ (ns ++ [name]))).isSome := by
  constructor
  · intro hway
    obtain ⟨l, hway, hfile⟩ := hway
    rcases onWay_concat_iff.mp hway with rfl | hway
    · exact Or.inr hfile
    · exact Or.inl ⟨l, hway, hfile⟩
  · intro hway
    rcases hway with h | hfile
    · exact h.concat name
    · exact ⟨_, onWay_concat_iff.mpr (Or.inl rfl), hfile⟩

theorem ancestorsFrom_succ_below (h : ∀ n ∈ init ++ [name], ProperName n) (base : Path)
    (fuel : Nat) :
    ∃ above, ancestorsFrom (fuel + 1) (base.below (init ++ [name])) =
      base.below (init ++ [name]) :: above := by
  have hsplit := Path.splitAt_below (by simp) h base
  rw [← List.append_assoc] at hsplit
  obtain ⟨above, habove⟩ := parent?_eq_some (h name (by simp)) hsplit
  exact ⟨_, by rw [ancestorsFrom, habove]⟩

section Below

variable (hbase : fs.Enters base.text) (hs : fs.Sound)

include hbase hs

theorem makeFirst_below_fileOnWay (hne : ns ≠ []) (h : ∀ n ∈ ns, ProperName n)
    (hfile : FileOnWay fs (placeOf fs.workingDirectory base.text) ns) (fuel : Nat) :
    ∃ reason, makeFirst (ancestorsFrom (fuel + 1) (base.below ns)) fs = (.error reason, fs) := by
  have hnot : fs.isDirectory (base.below ns) = false := by
    rw [Bool.eq_false_iff, ne_eq, isDirectory_below_iff hne h hs.linkFree hbase]
    exact hfile.not_directory
  obtain ⟨init, last, rfl⟩ := List.eq_nil_or_concat' ns |>.resolve_left hne
  obtain ⟨above, habove⟩ := ancestorsFrom_succ_below h base fuel
  rw [habove]
  rcases fileOnWay_concat_iff.mp hfile with hinit | hlast
  · refine ⟨.notADirectory, ?_⟩
    rw [makeFirst_refused (makeDirectory_fileOnWay hbase hs h hinit) (by simp), hnot]
    rfl
  · refine ⟨.exists, ?_⟩
    have hface : fs.faceAt? (placeOf fs.workingDirectory base.text ++ (init ++ [last])) ≠ none := by
      obtain ⟨content, hlast⟩ := Option.isSome_iff_exists.mp hlast
      simp [fileAt?_eq_some_iff.mp hlast]
    rw [makeFirst_refused (makeDirectory_present hbase hs h hface) (by simp), hnot]
    rfl

/-- The last directory is made where the one above it exists. -/
theorem makeDirectory_below (h : ∀ n ∈ init ++ [name], ProperName n)
    (hdir : fs.faceAt? (placeOf fs.workingDirectory base.text ++ init) = some .directory)
    (hnone : fs.faceAt? (placeOf fs.workingDirectory base.text ++ (init ++ [name])) = none) :
    ∃ fs', fs.makeDirectory (base.below (init ++ [name])) = .ok fs' ∧
      Becomes fs fs' fun l =>
        if l = placeOf fs.workingDirectory base.text ++ (init ++ [name]) then some .directory
        else fs.faceAt? l := by
  have hfits : fs.Fits (placeOf fs.workingDirectory base.text ++ (init ++ [name])) :=
    ⟨_, name, (List.append_assoc ..).symm, h name (by simp), hdir, by simp [hnone]⟩
  exact ⟨_, makeDirectory_vacant hbase hs h hdir hnone, becomes_put hs hfits DirEntry.fresh_nil⟩

/-- The induction is on the names from the last one back, as the directories above are made only
when there is no place for the one below. -/
theorem makeFirst_below (hne : ns ≠ []) (h : ∀ n ∈ ns, ProperName n)
    (hno : ¬FileOnWay fs (placeOf fs.workingDirectory base.text) ns) {fuel : Nat}
    (hfuel : ns.length ≤ fuel) :
    ∃ fs', makeFirst (ancestorsFrom fuel (base.below ns)) fs = (.ok (), fs') ∧
      Becomes fs fs' (withDirectories (placeOf fs.workingDirectory base.text) ns fs) := by
  induction ns using List.reverseRecOn generalizing fuel with
  | nil => exact absurd rfl hne
  | append_singleton init last ih =>
    have hlast : ProperName last := h last (by simp)
    have hinit : ∀ n ∈ init, ProperName n := fun n hn => h n (List.mem_append_left _ hn)
    have hno' := fun hfile => hno (fileOnWay_concat_iff.mpr (Or.inl hfile))
    obtain ⟨fuel, rfl⟩ : ∃ k, fuel = k + 1 := by
      refine ⟨fuel - 1, ?_⟩
      simp only [List.length_append, List.length_singleton] at hfuel
      omega
    by_cases hdir : fs.faceAt? (placeOf fs.workingDirectory base.text ++ init) = some .directory
    · obtain ⟨above, habove⟩ := ancestorsFrom_succ_below h base fuel
      rw [habove]
      rcases faceAt?_cases hs.linkFree (placeOf fs.workingDirectory base.text ++ (init ++ [last]))
        with hnone | ⟨content, hfile⟩ | hthere
      · obtain ⟨fs', hmade, hfs'⟩ := makeDirectory_below hbase hs h hdir hnone
        refine ⟨fs', makeFirst_ok hmade above, hfs'.congr (fun l => ?_)⟩
        rw [withDirectories_concat, withDirectories_of_directory hdir]
      · exact absurd (fileOnWay_of_file hne hfile) hno
      · refine ⟨fs, ?_, hs.becomes.congr fun l => (withDirectories_of_directory hthere l).symm⟩
        rw [makeFirst_refused (makeDirectory_present hbase hs h (by simp [hthere])) (by simp),
          (isDirectory_below_iff hne h hs.linkFree hbase).mpr hthere]
        rfl
    · have hne' : init ≠ [] := by
        intro heq
        subst heq
        exact hdir (by simpa using hbase.directory)
      have hmissing : fs.faceAt? (placeOf fs.workingDirectory base.text ++ init) = none := by
        rcases faceAt?_cases hs.linkFree (placeOf fs.workingDirectory base.text ++ init) with
          hnone | ⟨content, hfile⟩ | hthere
        · exact hnone
        · exact absurd (fileOnWay_of_file hne' hfile) hno'
        · exact absurd hthere hdir
      have hfuel' : init.length ≤ fuel := by simpa using hfuel
      obtain ⟨fs₁, hmade, hfs₁⟩ := ih hne' hinit hno' hfuel'
      have hwd := hfs₁.workingDirectory
      have hbase₁ : fs₁.Enters base.text := hbase.mono hfs₁.keeps_withDirectories
      have hdir₁ : fs₁.faceAt? (placeOf fs₁.workingDirectory base.text ++ init) =
          some .directory := by
        rw [hwd, hfs₁.face, withDirectories_self hne']
      have hnone₁ : fs₁.faceAt? (placeOf fs₁.workingDirectory base.text ++ (init ++ [last])) =
          none := by
        rw [hwd, hfs₁.face, withDirectories_next]
        by_contra hface
        rw [← List.append_assoc] at hface
        rw [faceAt?_of_append (by simp) hface] at hmissing
        simp at hmissing
      obtain ⟨fs₂, hthen, hfs₂⟩ := makeDirectory_below hbase₁ hfs₁.sound h hdir₁ hnone₁
      rw [ancestorsFrom_below hne' hinit hlast]
      refine ⟨fs₂, makeFirst_notFound (makeDirectory_notFound hbase hs h hno' hmissing) hmade hthen,
        (hfs₁.trans hfs₂).congr (fun l => ?_)⟩
      rw [withDirectories_concat, hfs₁.face, hwd]

theorem createDirectories_below (hne : ns ≠ []) (h : ∀ n ∈ ns, ProperName n)
    (hno : ¬FileOnWay fs (placeOf fs.workingDirectory base.text) ns) :
    ∃ fs', fs.createDirectories (base.below ns) = (.ok (), fs') ∧
      Becomes fs fs' (withDirectories (placeOf fs.workingDirectory base.text) ns fs) := by
  apply makeFirst_below hbase hs hne h hno
  have hlen := Text.length_splitAt_le '/' (base.below ns)
  rw [Path.splitAt_below hne h, List.length_append] at hlen
  omega

theorem createDirectories_below_fileOnWay (hne : ns ≠ []) (h : ∀ n ∈ ns, ProperName n)
    (hfile : FileOnWay fs (placeOf fs.workingDirectory base.text) ns) :
    ∃ reason, fs.createDirectories (base.below ns) = (.error reason, fs) :=
  makeFirst_below_fileOnWay hbase hs hne h hfile _

end Below

end LayeredConfig.FileSystem
