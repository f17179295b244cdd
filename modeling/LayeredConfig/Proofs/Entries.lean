import LayeredConfig.Proofs.Text.Order
import LayeredConfig.Text.Basic
import Mathlib.Data.List.Induction

/-!
# Laws of entries by key

A list of entries is read through `get?`.  What `insert` and `erase` do to this view holds for
lists of any shape, except that `erase` needs the keys to be different; `Increasing` is kept by
both.  Main statements:

* `get?_insert` — an inserted key has its value, every other key keeps the one it had;
* `get?_erase` — an erased key is gone, every other key keeps its value;
* `increasing_insert`, `increasing_erase` — both keep the keys in strictly increasing order;
* `insert_insert`, `erase_insert`, `insert_of_get?` — a later insertion hides an earlier one, and
  undoing an insertion or repeating it changes nothing;
* `insert_last` — a key that comes after all others is put at the end;
* `get?_of_mem`, `mem_of_get?` — in increasing entries the listed pairs are the ones that `get?`
  finds;
* `eq_of_get?_eq` — so increasing entries are the same if `get?` finds the same in them;
* `get?_ofList` — of the entries of a list the last one with a key counts.
-/

namespace LayeredConfig.Entries

variable {α : Type}

/-! ## Reading after writing -/

theorem get?_cons (key k : Text) (value : α) (rest : Entries α) :
    get? key ((k, value) :: rest) = if k = key then some value else get? key rest := rfl

theorem get?_insert (key k : Text) (value : α) (entries : Entries α) :
    get? k (insert key value entries) = if key = k then some value else get? k entries := by
  induction entries with
  | nil => rfl
  | cons entry rest ih =>
    obtain ⟨name, old⟩ := entry
    by_cases h1 : name = key
    · subst h1
      simp only [insert, if_true, get?_cons]
      split_ifs <;> rfl
    · by_cases h2 : key < name
      · simp only [insert, if_neg h1, if_pos h2, get?_cons]
      · simp only [insert, if_neg h1, if_neg h2, get?_cons, ih]
        by_cases h3 : name = k
        · rw [if_pos h3, if_pos h3, if_neg (fun h => h1 (h3.trans h.symm))]
        · rw [if_neg h3, if_neg h3]

@[simp] theorem get?_insert_self (key : Text) (value : α) (entries : Entries α) :
    get? key (insert key value entries) = some value := by
  rw [get?_insert, if_pos rfl]

theorem get?_insert_of_ne {key k : Text} (h : key ≠ k) (value : α) (entries : Entries α) :
    get? k (insert key value entries) = get? k entries := by
  rw [get?_insert, if_neg h]

theorem get?_eq_none_iff {key : Text} {entries : Entries α} :
    get? key entries = none ↔ key ∉ keys entries := by
  induction entries with
  | nil => simp [get?, keys]
  | cons entry rest ih =>
    obtain ⟨name, old⟩ := entry
    rw [get?_cons]
    split_ifs with h
    · simp [keys, h]
    · rw [ih]
      simp [keys, Ne.symm h]

theorem mem_of_get? {key : Text} {value : α} {entries : Entries α}
    (h : get? key entries = some value) : (key, value) ∈ entries := by
  induction entries with
  | nil => simp [get?] at h
  | cons entry rest ih =>
    obtain ⟨name, old⟩ := entry
    rw [get?_cons] at h
    split_ifs at h with hk
    · obtain rfl := Option.some.inj h
      exact hk ▸ List.mem_cons_self
    · exact List.mem_cons_of_mem _ (ih h)

theorem mem_insert {key k : Text} {value v : α} {entries : Entries α}
    (h : (k, v) ∈ insert key value entries) : (k, v) = (key, value) ∨ (k, v) ∈ entries := by
  induction entries with
  | nil => exact Or.inl (List.mem_singleton.mp h)
  | cons entry rest ih =>
    obtain ⟨name, old⟩ := entry
    simp only [insert] at h
    split_ifs at h with h1 h2
    · rcases List.mem_cons.mp h with h | h
      · exact Or.inl h
      · exact Or.inr (List.mem_cons_of_mem _ h)
    · rcases List.mem_cons.mp h with h | h
      · exact Or.inl h
      · exact Or.inr h
    · rcases List.mem_cons.mp h with h | h
      · exact Or.inr (h ▸ List.mem_cons_self)
      · exact (ih h).imp_right (List.mem_cons_of_mem _)

theorem mem_of_mem_erase {key : Text} {entry : Text × α} {entries : Entries α}
    (h : entry ∈ erase key entries) : entry ∈ entries := by
  induction entries with
  | nil => exact h
  | cons first rest ih =>
    obtain ⟨name, old⟩ := first
    simp only [erase] at h
    split_ifs at h with hk
    · exact List.mem_cons_of_mem _ h
    · rcases List.mem_cons.mp h with h | h
      · exact h ▸ List.mem_cons_self
      · exact List.mem_cons_of_mem _ (ih h)

/-! ## Increasing keys -/

instance decidableIncreasing : (entries : Entries α) → Decidable (Increasing entries)
  | [] => isTrue trivial
  | (_, _) :: rest =>
    have := decidableIncreasing rest
    inferInstanceAs (Decidable (_ ∧ _))

theorem increasing_insert {entries : Entries α} (h : Increasing entries) (key : Text) (value : α) :
    Increasing (insert key value entries) := by
  induction entries with
  | nil => exact ⟨by simp, trivial⟩
  | cons entry rest ih =>
    obtain ⟨name, old⟩ := entry
    obtain ⟨hfirst, hrest⟩ := h
    simp only [insert]
    split_ifs with h1 h2
    · subst h1
      exact ⟨hfirst, hrest⟩
    · refine ⟨?_, hfirst, hrest⟩
      intro other hother
      rcases List.mem_cons.mp hother with rfl | hother
      · exact h2
      · exact lt_trans h2 (hfirst other hother)
    · have hlt : name < key := lt_of_le_of_ne (not_lt.mp h2) h1
      refine ⟨?_, ih hrest⟩
      intro other hother
      obtain ⟨k, v⟩ := other
      rcases mem_insert hother with heq | hother
      · rw [(Prod.mk.inj heq).1]
        exact hlt
      · exact hfirst _ hother

theorem increasing_erase {entries : Entries α} (h : Increasing entries) (key : Text) :
    Increasing (erase key entries) := by
  induction entries with
  | nil => exact h
  | cons entry rest ih =>
    obtain ⟨name, old⟩ := entry
    simp only [erase]
    split_ifs with hk
    · exact h.2
    · exact ⟨fun other hother => h.1 other (mem_of_mem_erase hother), ih h.2⟩

theorem get?_eq_none_of_lt {key : Text} {entries : Entries α}
    (h : ∀ entry ∈ entries, key < entry.1) : get? key entries = none := by
  rw [get?_eq_none_iff]
  intro hmem
  obtain ⟨entry, hentry, hkey⟩ := List.mem_map.mp hmem
  exact absurd (h entry hentry) (hkey ▸ lt_irrefl _)

/-- In increasing entries the first pair with a key is the only one. -/
theorem get?_of_mem {key : Text} {value : α} {entries : Entries α} (hi : Increasing entries)
    (h : (key, value) ∈ entries) : get? key entries = some value := by
  induction entries with
  | nil => simp at h
  | cons entry rest ih =>
    obtain ⟨name, old⟩ := entry
    rw [get?_cons]
    rcases List.mem_cons.mp h with h | h
    · obtain ⟨rfl, rfl⟩ := Prod.mk.inj h
      rw [if_pos rfl]
    · rw [if_neg (ne_of_lt (hi.1 _ h)), ih hi.2 h]

theorem get?_erase {entries : Entries α} (hi : Increasing entries) (key k : Text) :
    get? k (erase key entries) = if key = k then none else get? k entries := by
  induction entries with
  | nil => simp [erase, get?]
  | cons entry rest ih =>
    obtain ⟨name, old⟩ := entry
    by_cases h1 : name = key
    · subst h1
      simp only [erase, if_true, get?_cons]
      split_ifs with h2
      · exact h2 ▸ get?_eq_none_of_lt hi.1
      · rfl
    · simp only [erase, if_neg h1, get?_cons, ih hi.2]
      by_cases h2 : name = k
      · rw [if_pos h2, if_pos h2, if_neg (fun h => h1 (h2.trans h.symm))]
      · rw [if_neg h2, if_neg h2]

/-- Erasing a key that was inserted anew undoes the insertion. -/
theorem erase_insert {key : Text} {entries : Entries α} (h : get? key entries = none)
    (value : α) : erase key (insert key value entries) = entries := by
  induction entries with
  | nil => simp [insert, erase]
  | cons entry rest ih =>
    obtain ⟨name, old⟩ := entry
    rw [get?_cons] at h
    split_ifs at h with hk
    simp only [insert, if_neg hk]
    split_ifs with h1
    · simp [erase]
    · simp only [erase, if_neg hk, ih h]

theorem insert_insert (key : Text) (first second : α) (entries : Entries α) :
    insert key second (insert key first entries) = insert key second entries := by
  induction entries with
  | nil => simp [insert]
  | cons entry rest ih =>
    obtain ⟨name, old⟩ := entry
    by_cases h1 : name = key
    · simp [insert, h1]
    · by_cases h2 : key < name
      · simp [insert, h1, h2]
      · simp [insert, h1, h2, ih]

/-- Giving a key the value that it has changes nothing. -/
theorem insert_of_get? {key : Text} {value : α} {entries : Entries α} (hi : Increasing entries)
    (h : get? key entries = some value) : insert key value entries = entries := by
  induction entries with
  | nil => simp [get?] at h
  | cons entry rest ih =>
    obtain ⟨name, old⟩ := entry
    rw [get?_cons] at h
    split_ifs at h with hk
    · obtain rfl := Option.some.inj h
      simp [insert, hk]
    · have hlt : name < key := hi.1 (key, value) (mem_of_get? h)
      simp only [insert, if_neg hk, if_neg (lt_asymm hlt), ih hi.2 h]

/-- An entry whose key comes after all others is put at the end. -/
theorem insert_last {key : Text} {entries : Entries α} (h : ∀ entry ∈ entries, entry.1 < key)
    (value : α) : insert key value entries = entries ++ [(key, value)] := by
  induction entries with
  | nil => rfl
  | cons entry rest ih =>
    obtain ⟨name, old⟩ := entry
    have hlt : name < key := h (name, old) List.mem_cons_self
    simp only [insert, if_neg (ne_of_lt hlt), if_neg (lt_asymm hlt), List.cons_append,
      ih fun other hother => h other (List.mem_cons_of_mem _ hother)]

/-- Where one more entry is moved to the end of the first entries, these still come before the
others. -/
theorem lt_of_mem_concat {β : Type} {before : Entries α} {rest : Entries β} {key : Text} {value : α}
    (hkey : ∀ low ∈ before, low.1 < key) (hrest : ∀ high ∈ rest, key < high.1) :
    ∀ low ∈ before ++ [(key, value)], ∀ high ∈ rest, low.1 < high.1 := by
  intro low hlow high hhigh
  rcases List.mem_append.mp hlow with hlow | hlow
  · exact lt_trans (hkey low hlow) (hrest high hhigh)
  · rw [List.mem_singleton.mp hlow]
    exact hrest high hhigh

/-! ## The map of a list -/

theorem increasing_iff_pairwise {entries : Entries α} :
    Increasing entries ↔ entries.Pairwise fun low high => low.1 < high.1 := by
  induction entries with
  | nil => simp [Increasing]
  | cons entry rest ih => rw [List.pairwise_cons, ← ih]; rfl

/-- The keys before a key are less, and those behind it are greater. -/
theorem lt_of_split {before after : Entries α} {key : Text} {value : α}
    (hi : Increasing (before ++ (key, value) :: after)) :
    (∀ low ∈ before, low.1 < key) ∧ ∀ high ∈ after, key < high.1 := by
  rw [increasing_iff_pairwise, List.pairwise_append, List.pairwise_cons] at hi
  obtain ⟨-, ⟨hafter, -⟩, hcross⟩ := hi
  exact ⟨fun low hlow => hcross low hlow _ List.mem_cons_self, hafter⟩

theorem mem_iff_get? {entries : Entries α} (hi : Increasing entries) {key : Text} {value : α} :
    (key, value) ∈ entries ↔ get? key entries = some value :=
  ⟨get?_of_mem hi, mem_of_get?⟩

/-- Increasing entries are determined by the values of their keys. -/
theorem eq_of_get?_eq {entries other : Entries α} (hi : Increasing entries)
    (hother : Increasing other) (h : ∀ key, get? key entries = get? key other) :
    entries = other := by
  have hmem : ∀ entry, entry ∈ entries ↔ entry ∈ other := by
    intro entry
    rw [mem_iff_get? hi, mem_iff_get? hother, h]
  rw [increasing_iff_pairwise] at hi hother
  have hperm : entries.Perm other :=
    (List.perm_ext_iff_of_nodup (hi.imp fun hlt => ne_of_apply_ne Prod.fst (ne_of_lt hlt))
      (hother.imp fun hlt => ne_of_apply_ne Prod.fst (ne_of_lt hlt))).mpr hmem
  exact hperm.eq_of_pairwise (fun a b _ _ hab hba => absurd hba (lt_asymm hab)) hi hother

theorem ofList_concat (entries : List (Text × α)) (key : Text) (value : α) :
    ofList (entries ++ [(key, value)]) = insert key value (ofList entries) := by
  rw [ofList, List.foldl_append]
  rfl

theorem increasing_ofList (entries : List (Text × α)) : Increasing (ofList entries) := by
  induction entries using List.reverseRecOn with
  | nil => trivial
  | append_singleton entries entry ih =>
    obtain ⟨key, value⟩ := entry
    rw [ofList_concat]
    exact increasing_insert ih key value

/-- The last entry with a key gives it its value. -/
theorem get?_ofList (key : Text) (entries : List (Text × α)) :
    get? key (ofList entries) = get? key entries.reverse := by
  induction entries using List.reverseRecOn with
  | nil => rfl
  | append_singleton entries entry ih =>
    obtain ⟨name, value⟩ := entry
    rw [ofList_concat, get?_insert, ih, List.reverse_concat, get?_cons]

end LayeredConfig.Entries
