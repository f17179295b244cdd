import LayeredConfig.Proofs.Entries
import Mathlib.Data.Finset.Card
import Mathlib.Data.List.Forall2

/-!
# Computations that can fail, and maps collected by them

When a computation that can fail gives a result, so did each of its parts, and when it fails, one
of them did.  The laws of `Except` below take such a computation apart without opening any of the
functions in it.

Objects and mappings are turned into entries member by member: each member becomes an entry, or
nothing, or it fails and with it the whole.  `collect` is this loop for any kind of member, and the
lemmas here say once what it gives:

* `collect_eq_ok_iff` — it succeeds exactly if every member does, and gives the map of the entries
  that the members become;
* `exists_of_collect_eq_error` — a fault is the fault of a member;
* `collect_eq_collect` — members of two kinds that become the same are collected to the same, in
  whatever order they are, if they become entries with different keys and can have one fault only.

About the map of a list of entries:

* `get?_ofList_of_last` — an entry counts if its key does not come again;
* `get?_ofList_iff`, `ofList_congr` — if the keys are different, every entry of the list counts and
  the order does not;
* `length_ofList_eq_iff` — as many keys as entries means that the keys are different.
-/

/-! ## Computations that can fail -/

namespace Except

variable {ε ε' α β : Type}

theorem bind_eq_ok_iff {x : Except ε α} {f : α → Except ε β} {b : β} :
    (x >>= f) = .ok b ↔ ∃ a, x = .ok a ∧ f a = .ok b := by
  cases x with
  | error e => simp [bind, Except.bind]
  | ok a => simp [bind, Except.bind]

theorem map_eq_ok_iff {x : Except ε α} {f : α → β} {b : β} :
    x.map f = .ok b ↔ ∃ a, x = .ok a ∧ f a = b := by
  cases x with
  | error e => simp [Except.map]
  | ok a => simp [Except.map]

@[simp] theorem mapError_error (f : ε → ε') (e : ε) :
    (Except.error e : Except ε α).mapError f = .error (f e) := rfl

@[simp] theorem mapError_ok (f : ε → ε') (a : α) :
    (Except.ok a : Except ε α).mapError f = .ok a := rfl

theorem mapError_eq_ok_iff {x : Except ε α} {f : ε → ε'} {a : α} :
    x.mapError f = .ok a ↔ x = .ok a := by
  cases x with
  | error e => simp
  | ok b => simp

theorem bind_eq_error_iff {x : Except ε α} {f : α → Except ε β} {e : ε} :
    (x >>= f) = .error e ↔ x = .error e ∨ ∃ a, x = .ok a ∧ f a = .error e := by
  cases x with
  | error e => simp [bind, Except.bind]
  | ok a => simp [bind, Except.bind]

theorem map_eq_error_iff {x : Except ε α} {f : α → β} {e : ε} :
    x.map f = .error e ↔ x = .error e := by
  cases x with
  | error e => simp [Except.map]
  | ok a => simp [Except.map]

theorem mapError_eq_error_iff {x : Except ε α} {f : ε → ε'} {e : ε'} :
    x.mapError f = .error e ↔ ∃ cause, x = .error cause ∧ f cause = e := by
  cases x with
  | error e => simp
  | ok a => simp

/-! ### One for each item of a list -/

variable {f : α → Except ε β} {items : List α}

theorem mapM_eq_ok_iff {results : List β} :
    items.mapM f = .ok results ↔ List.Forall₂ (fun a b => f a = .ok b) items results := by
  induction items generalizing results with
  | nil => rw [List.mapM_nil, List.forall₂_nil_left_iff]; simp [pure, Except.pure, eq_comm]
  | cons item items ih =>
    rw [List.mapM_cons, List.forall₂_cons_left_iff, bind_eq_ok_iff]
    constructor
    · rintro ⟨b, hb, hrest⟩
      obtain ⟨bs, hbs, hresult⟩ := bind_eq_ok_iff.mp hrest
      exact ⟨b, bs, hb, ih.mp hbs, (Except.ok.inj hresult).symm⟩
    · rintro ⟨b, bs, hb, hbs, rfl⟩
      exact ⟨b, hb, bind_eq_ok_iff.mpr ⟨bs, ih.mpr hbs, rfl⟩⟩

theorem exists_of_mapM_eq_ok {results : List β} (h : items.mapM f = .ok results) :
    ∀ item ∈ items, ∃ b, f item = .ok b := by
  have hall := mapM_eq_ok_iff.mp h
  clear h
  induction hall with
  | nil => simp
  | cons hfirst _ ih => exact List.forall_mem_cons.mpr ⟨⟨_, hfirst⟩, ih⟩

theorem exists_of_mapM_eq_error {e : ε} (h : items.mapM f = .error e) :
    ∃ item ∈ items, f item = .error e := by
  induction items with
  | nil => simp [pure, Except.pure] at h
  | cons item items ih =>
    rw [List.mapM_cons] at h
    rcases bind_eq_error_iff.mp h with hitem | ⟨b, -, hrest⟩
    · exact ⟨item, List.mem_cons_self, hitem⟩
    · rcases bind_eq_error_iff.mp hrest with hitems | ⟨bs, -, hresult⟩
      · obtain ⟨other, hother, hfault⟩ := ih hitems
        exact ⟨other, List.mem_cons_of_mem _ hother, hfault⟩
      · simp [pure, Except.pure] at hresult

end Except

namespace LayeredConfig.Entries

variable {α β ε : Type}

/-! ## The map of a list of entries -/

/-- If the keys are different, every entry counts. -/
theorem get?_ofList_iff {entries : List (Text × α)} (h : (entries.map Prod.fst).Nodup) {key : Text}
    {value : α} : get? key (ofList entries) = some value ↔ (key, value) ∈ entries := by
  induction entries using List.reverseRecOn with
  | nil => simp [ofList, get?]
  | append_singleton entries last ih =>
    obtain ⟨name, other⟩ := last
    rw [List.map_append, List.nodup_append] at h
    obtain ⟨hentries, -, hlast⟩ := h
    rw [ofList_concat, get?_insert, List.mem_append, List.mem_singleton, Prod.mk.injEq]
    split_ifs with hname
    · subst hname
      have hnot : (name, value) ∉ entries := fun hmem =>
        hlast name (List.mem_map_of_mem hmem) name (by simp) rfl
      simp [hnot, eq_comm]
    · rw [ih hentries, or_iff_left fun heq => hname heq.1.symm]

/-- An entry counts if its key does not come again. -/
theorem get?_ofList_of_last {before after : List (Text × α)} {key : Text} (value : α)
    (h : key ∉ after.map Prod.fst) :
    get? key (ofList (before ++ (key, value) :: after)) = some value := by
  induction after using List.reverseRecOn with
  | nil => rw [ofList_concat, get?_insert_self]
  | append_singleton after last ih =>
    obtain ⟨name, other⟩ := last
    rw [List.map_append, List.mem_append, not_or] at h
    have hne : name ≠ key := fun heq => h.2 (by simp [heq])
    rw [← List.cons_append, ← List.append_assoc, ofList_concat, get?_insert_of_ne hne, ih h.1]

/-- If the keys are different, only the entries count and not their order. -/
theorem ofList_congr {entries others : List (Text × α)} (h : (entries.map Prod.fst).Nodup)
    (h' : (others.map Prod.fst).Nodup) (hmem : ∀ entry, entry ∈ entries ↔ entry ∈ others) :
    ofList entries = ofList others := by
  refine eq_of_get?_eq (increasing_ofList _) (increasing_ofList _) fun key => ?_
  refine Option.ext fun value => ?_
  rw [get?_ofList_iff h, get?_ofList_iff h', hmem]

theorem mem_keys_ofList {entries : List (Text × α)} {key : Text} :
    key ∈ keys (ofList entries) ↔ key ∈ entries.map Prod.fst := by
  rw [← not_iff_not, ← get?_eq_none_iff, get?_ofList, get?_eq_none_iff, keys, List.map_reverse,
    List.mem_reverse]

theorem nodup_keys {entries : Entries α} (hi : Increasing entries) : (keys entries).Nodup := by
  rw [keys, List.Nodup, List.pairwise_map]
  exact (increasing_iff_pairwise.mp hi).imp ne_of_lt

/-- The map of a list has as many keys as the list has entries exactly if the keys are different. -/
theorem length_ofList_eq_iff {entries : List (Text × α)} :
    (ofList entries).length = entries.length ↔ (entries.map Prod.fst).Nodup := by
  have hsame : (keys (ofList entries)).toFinset = (entries.map Prod.fst).toFinset := by
    ext key
    rw [List.mem_toFinset, List.mem_toFinset, mem_keys_ofList]
  have hkeys : (entries.map Prod.fst).toFinset.card = (ofList entries).length := by
    rw [← hsame, List.toFinset_card_of_nodup (nodup_keys (increasing_ofList _)), keys,
      List.length_map]
  have hlength : entries.length = (entries.map Prod.fst).length := by rw [List.length_map]
  rw [← hkeys, hlength]
  exact Multiset.toFinset_card_eq_card_iff_nodup (m := Multiset.ofList (entries.map Prod.fst))

/-! ## Collecting -/

/-- A map with the entries that the members of a list become, a later one in place of an earlier
one with its key. -/
def collect (entryOf? : β → Except ε (Option (Text × α))) (map : Entries α) :
    List β → Except ε (Entries α)
  | [] => .ok map
  | member :: rest => do
    match ← entryOf? member with
    | some (key, value) => collect entryOf? (insert key value map) rest
    | none => collect entryOf? map rest

/-- The entries that the members of a list become, in their order. -/
def entriesOf (entryOf? : β → Except ε (Option (Text × α))) (members : List β) : List (Text × α) :=
  members.filterMap fun member => (entryOf? member).toOption.join

variable {entryOf? : β → Except ε (Option (Text × α))} {members : List β}

theorem toOption_join_eq_some_iff {found : Except ε (Option α)} {value : α} :
    found.toOption.join = some value ↔ found = .ok (some value) := by
  cases found with
  | error fault => simp [Except.toOption]
  | ok found => simp [Except.toOption]

theorem mem_entriesOf {entry : Text × α} :
    entry ∈ entriesOf entryOf? members ↔
      ∃ member ∈ members, entryOf? member = .ok (some entry) := by
  rw [entriesOf, List.mem_filterMap]
  simp only [toOption_join_eq_some_iff]

theorem entriesOf_cons {member : β} {found : Option (Text × α)} (h : entryOf? member = .ok found)
    (rest : List β) :
    entriesOf entryOf? (member :: rest) = found.toList ++ entriesOf entryOf? rest := by
  cases found with
  | none => simp [entriesOf, h, Except.toOption]
  | some entry => simp [entriesOf, h, Except.toOption]

/-- The keys are different if no two members become entries with one key. -/
theorem nodup_entriesOf_iff :
    ((entriesOf entryOf? members).map Prod.fst).Nodup ↔
      members.Pairwise fun member other => ∀ entry, entryOf? member = .ok (some entry) →
        ∀ later, entryOf? other = .ok (some later) → entry.1 ≠ later.1 := by
  rw [List.Nodup, List.pairwise_map, entriesOf, List.pairwise_filterMap]
  simp only [toOption_join_eq_some_iff]

/-- Collecting succeeds exactly if every member does, and puts in what they become. -/
theorem collect_eq_ok_iff {map result : Entries α} :
    collect entryOf? map members = .ok result ↔
      (∀ member ∈ members, ∃ found, entryOf? member = .ok found) ∧
        result = (entriesOf entryOf? members).foldl (fun map (key, value) => insert key value map)
          map := by
  induction members generalizing map with
  | nil => simp [collect, entriesOf, eq_comm]
  | cons member rest ih =>
    rw [collect, Except.bind_eq_ok_iff, List.forall_mem_cons]
    constructor
    · intro h
      obtain ⟨found, hfound, hrest⟩ := h
      rw [entriesOf_cons hfound, List.foldl_append]
      cases found with
      | none =>
        obtain ⟨hall, hresult⟩ := ih.mp hrest
        exact ⟨⟨⟨none, hfound⟩, hall⟩, hresult⟩
      | some entry =>
        obtain ⟨hall, hresult⟩ := ih.mp hrest
        exact ⟨⟨⟨some entry, hfound⟩, hall⟩, hresult⟩
    · intro h
      obtain ⟨⟨⟨found, hfound⟩, hall⟩, hresult⟩ := h
      rw [entriesOf_cons hfound, List.foldl_append] at hresult
      refine ⟨found, hfound, ?_⟩
      cases found with
      | none => exact ih.mpr ⟨hall, hresult⟩
      | some entry => exact ih.mpr ⟨hall, hresult⟩

/-- A fault is the fault of a member. -/
theorem exists_of_collect_eq_error {map : Entries α} {fault : ε}
    (h : collect entryOf? map members = .error fault) :
    ∃ member ∈ members, entryOf? member = .error fault := by
  induction members generalizing map with
  | nil => simp [collect] at h
  | cons member rest ih =>
    rw [collect] at h
    rcases Except.bind_eq_error_iff.mp h with hmember | ⟨found, -, hrest⟩
    · exact ⟨member, List.mem_cons_self, hmember⟩
    · cases found with
      | none =>
        obtain ⟨other, hother, hfault⟩ := ih hrest
        exact ⟨other, List.mem_cons_of_mem _ hother, hfault⟩
      | some entry =>
        obtain ⟨other, hother, hfault⟩ := ih hrest
        exact ⟨other, List.mem_cons_of_mem _ hother, hfault⟩

/-- Collecting fails exactly if a member does. -/
theorem collect_fails_iff {map : Entries α} :
    (∃ fault, collect entryOf? map members = .error fault) ↔
      ∃ member ∈ members, ∃ fault, entryOf? member = .error fault := by
  constructor
  · intro h
    obtain ⟨fault, hcollect⟩ := h
    obtain ⟨member, hmember, hfault⟩ := exists_of_collect_eq_error hcollect
    exact ⟨member, hmember, fault, hfault⟩
  · intro h
    obtain ⟨member, hmember, fault, hfault⟩ := h
    cases hcollect : collect entryOf? map members with
    | error other => exact ⟨other, rfl⟩
    | ok result =>
      obtain ⟨found, hfound⟩ := (collect_eq_ok_iff.mp hcollect).1 member hmember
      rw [hfault] at hfound
      simp at hfound

/-- Members of two kinds are collected to the same map, or to the same fault, if each of one kind
becomes the same as one of the other kind, if the entries have different keys and if the faults are
all the same.  Their order does not matter. -/
theorem collect_eq_collect {γ : Type} {other? : γ → Except ε (Option (Text × α))} {others : List γ}
    (hthere : ∀ member ∈ members, ∃ other ∈ others, entryOf? member = other? other)
    (hback : ∀ other ∈ others, ∃ member ∈ members, entryOf? member = other? other)
    (hkeys : ((entriesOf entryOf? members).map Prod.fst).Nodup)
    (hkeys' : ((entriesOf other? others).map Prod.fst).Nodup) {fault : ε}
    (hfault : ∀ member ∈ members, ∀ found, entryOf? member = .error found → found = fault) :
    collect entryOf? [] members = collect other? [] others := by
  have hmem : ∀ entry, entry ∈ entriesOf entryOf? members ↔ entry ∈ entriesOf other? others := by
    intro entry
    rw [mem_entriesOf, mem_entriesOf]
    constructor
    · intro h
      obtain ⟨member, hmember, hentry⟩ := h
      obtain ⟨other, hother, heq⟩ := hthere member hmember
      exact ⟨other, hother, heq ▸ hentry⟩
    · intro h
      obtain ⟨other, hother, hentry⟩ := h
      obtain ⟨member, hmember, heq⟩ := hback other hother
      exact ⟨member, hmember, heq ▸ hentry⟩
  cases hmembers : collect entryOf? [] members with
  | ok result =>
    obtain ⟨hall, rfl⟩ := collect_eq_ok_iff.mp hmembers
    refine (collect_eq_ok_iff.mpr ⟨fun other hother => ?_, ?_⟩).symm
    · obtain ⟨member, hmember, heq⟩ := hback other hother
      exact heq ▸ hall member hmember
    · exact ofList_congr hkeys hkeys' hmem
  | error found =>
    obtain ⟨member, hmember, hfound⟩ := exists_of_collect_eq_error hmembers
    obtain ⟨other, hother, heq⟩ := hthere member hmember
    obtain ⟨found', hothers⟩ := collect_fails_iff.mpr ⟨other, hother, found, heq ▸ hfound⟩
    obtain ⟨other', hother', hfound'⟩ := exists_of_collect_eq_error hothers
    obtain ⟨member', hmember', heq'⟩ := hback other' hother'
    rw [hothers, hfault member hmember _ hfound, hfault member' hmember' _ (heq'.trans hfound')]

end LayeredConfig.Entries
