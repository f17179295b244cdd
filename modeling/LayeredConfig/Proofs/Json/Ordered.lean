import LayeredConfig.Json.Reader
import LayeredConfig.Proofs.Entries

/-!
# Names in order

The members of an object are a map, so no name is there twice.  `Value.Ordered` says so of every
object in a value, and `ordered_read?` that the reader gives no other values: it collects members by
insertion.
-/

namespace LayeredConfig.Json

namespace Value

mutual

/-- A value in which the names of the members of every object increase strictly. -/
def Ordered : Value → Prop
  | .array items => OrderedItems items
  | .object members => Entries.Increasing members ∧ OrderedMembers members
  | _ => True

/-- A list of such values. -/
def OrderedItems : List Value → Prop
  | [] => True
  | item :: items => Ordered item ∧ OrderedItems items

/-- Members with such values. -/
def OrderedMembers : List (Text × Value) → Prop
  | [] => True
  | (_, value) :: rest => Ordered value ∧ OrderedMembers rest

end

variable {members : Members} {value : Value}

theorem orderedMembers_iff :
    OrderedMembers members ↔ ∀ member ∈ members, member.2.Ordered := by
  induction members with
  | nil => simp [OrderedMembers]
  | cons member rest ih =>
    obtain ⟨name, value⟩ := member
    simp only [OrderedMembers, ih, List.forall_mem_cons]

theorem Ordered.increasing (h : (object members).Ordered) : Entries.Increasing members := h.1

theorem Ordered.member (h : (object members).Ordered) {name : Text}
    (hget : Entries.get? name members = some value) : value.Ordered :=
  orderedMembers_iff.mp h.2 _ (Entries.mem_of_get? hget)

theorem Ordered.insert (h : (object members).Ordered) (hvalue : value.Ordered) (name : Text) :
    (object (Entries.insert name value members)).Ordered := by
  refine ⟨Entries.increasing_insert h.1 name value, orderedMembers_iff.mpr fun member hmem => ?_⟩
  rcases Entries.mem_insert hmem with heq | hmem
  · rw [show member.2 = value from congrArg Prod.snd heq]
    exact hvalue
  · exact orderedMembers_iff.mp h.2 member hmem

end Value

theorem ordered_readLiteral? {text rest : Text} {value : Value}
    (h : readLiteral? text = some (value, rest)) : value.Ordered := by
  rw [readLiteral?] at h
  split at h
  · obtain ⟨rfl, -⟩ := Prod.mk.inj (Option.some.inj h)
    trivial
  · split at h
    · obtain ⟨rfl, -⟩ := Prod.mk.inj (Option.some.inj h)
      trivial
    · obtain ⟨after, -, heq⟩ := Option.map_eq_some_iff.mp h
      obtain ⟨rfl, -⟩ := Prod.mk.inj heq
      trivial

mutual

theorem ordered_readValue? : ∀ (fuel depth : Nat) (text : Text) {value : Value} {rest : Text},
    readValue? fuel depth text = some (value, rest) → value.Ordered
  | 0, _, _, value, rest, h => by simp [readValue?] at h
  | fuel + 1, depth, text, value, rest, h => by
    rw [readValue?.eq_def] at h
    simp only at h
    split at h
    · obtain ⟨⟨string, after⟩, -, heq⟩ := Option.map_eq_some_iff.mp h
      obtain ⟨rfl, -⟩ := Prod.mk.inj heq
      trivial
    · split at h
      · simp at h
      · next depth =>
        split at h
        · obtain ⟨rfl, -⟩ := Prod.mk.inj (Option.some.inj h)
          trivial
        · obtain ⟨⟨items, after⟩, hitems, heq⟩ := Option.map_eq_some_iff.mp h
          obtain ⟨rfl, -⟩ := Prod.mk.inj heq
          exact ordered_readItems? fuel depth _ hitems
    · split at h
      · simp at h
      · next depth =>
        split at h
        · obtain ⟨rfl, -⟩ := Prod.mk.inj (Option.some.inj h)
          exact ⟨trivial, trivial⟩
        · obtain ⟨⟨members, after⟩, hmembers, heq⟩ := Option.map_eq_some_iff.mp h
          obtain ⟨rfl, -⟩ := Prod.mk.inj heq
          exact ordered_readMembers? fuel depth [] _ ⟨trivial, trivial⟩ hmembers
    · split at h
      · obtain ⟨⟨numeral, after⟩, -, hvalue⟩ := Option.bind_eq_some_iff.mp h
        obtain ⟨number, -, hresult⟩ := Option.bind_eq_some_iff.mp hvalue
        obtain ⟨rfl, -⟩ := Prod.mk.inj (Option.some.inj hresult)
        trivial
      · exact ordered_readLiteral? h
    · simp at h

theorem ordered_readItems? : ∀ (fuel depth : Nat) (text : Text) {items : List Value} {rest : Text},
    readItems? fuel depth text = some (items, rest) → Value.OrderedItems items
  | 0, _, _, items, rest, h => by simp [readItems?] at h
  | fuel + 1, depth, text, items, rest, h => by
    rw [readItems?] at h
    obtain ⟨⟨item, next⟩, hitem, hrest⟩ := Option.bind_eq_some_iff.mp h
    have hordered : item.Ordered := ordered_readValue? fuel depth text hitem
    simp only at hrest
    split at hrest
    · obtain ⟨⟨others, after⟩, hothers, hresult⟩ := Option.bind_eq_some_iff.mp hrest
      obtain ⟨rfl, -⟩ := Prod.mk.inj (Option.some.inj hresult)
      exact ⟨hordered, ordered_readItems? fuel depth _ hothers⟩
    · obtain ⟨rfl, -⟩ := Prod.mk.inj (Option.some.inj hrest)
      exact ⟨hordered, trivial⟩
    · simp at hrest

theorem ordered_readMembers? : ∀ (fuel depth : Nat) (members : Members) (text : Text)
    {result : Members} {rest : Text}, (Value.object members).Ordered →
    readMembers? fuel depth members text = some (result, rest) → (Value.object result).Ordered
  | 0, _, _, _, result, rest, _, h => by simp [readMembers?] at h
  | fuel + 1, depth, members, text, result, rest, ho, h => by
    rw [readMembers?.eq_def] at h
    simp only at h
    split at h
    · obtain ⟨⟨name, next⟩, -, hnext⟩ := Option.bind_eq_some_iff.mp h
      simp only at hnext
      split at hnext
      · obtain ⟨⟨value, after⟩, hvalue, hafter⟩ := Option.bind_eq_some_iff.mp hnext
        have hmore := ho.insert (ordered_readValue? fuel depth _ hvalue) name
        simp only at hafter
        split at hafter
        · exact ordered_readMembers? fuel depth _ _ hmore hafter
        · obtain ⟨rfl, -⟩ := Prod.mk.inj (Option.some.inj hafter)
          exact hmore
        · simp at hafter
      · simp at hnext
    · simp at h

end

/-- **What is read has its names in order.** -/
theorem ordered_read? {text : Text} {value : Value} (h : read? text = some value) :
    value.Ordered := by
  obtain ⟨⟨found, rest⟩, hfound, hresult⟩ := Option.bind_eq_some_iff.mp h
  simp only at hresult
  split_ifs at hresult
  obtain rfl := Option.some.inj hresult
  exact ordered_readValue? _ _ _ hfound

end LayeredConfig.Json
