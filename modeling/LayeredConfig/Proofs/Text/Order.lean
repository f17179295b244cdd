import LayeredConfig.Text.Encoding
import Mathlib.Data.Char
import Mathlib.Data.List.Lex

/-!
# The order of texts is the order of their octets

Files are taken in the order of their paths, and that order is meant octet by octet. The library
compares texts character by character. Both orders agree:

* **`Utf8.encode_lt_encode`** — a text comes before another one exactly if its UTF-8 octets do;
* `Utf8.encode_injective` — no two texts have the same octets;
* `Text.atMost_iff_le` — the comparison that sorting uses is the linear order of texts.

The core is `encodeChar_append_lt`: the octets of a smaller character come first whatever follows
them, since the octets of no character begin those of another one.
-/

namespace LayeredConfig

namespace Text

theorem atMost_iff_le (a b : Text) : atMost a b = true ↔ a ≤ b := by
  simp only [atMost, Bool.not_eq_true', decide_eq_false_iff_not, not_lt]

end Text

namespace Utf8

theorem encodeChar_ne_nil (c : Char) : encodeChar c ≠ [] := by
  simp only [encodeChar]
  split_ifs <;> exact List.cons_ne_nil _ _

/-- Two octets made from numbers below 256 are ordered as these numbers. -/
theorem octet_lt {m n : Nat} (hn : n < 256) (h : m < n) : UInt8.ofNat m < UInt8.ofNat n := by
  rw [UInt8.lt_iff_toNat_lt, UInt8.toNat_ofNat', UInt8.toNat_ofNat', Nat.mod_eq_of_lt hn,
    Nat.mod_eq_of_lt (by omega)]
  exact h

/-- **The smaller character wins whatever follows.**  Where the first octets agree, the characters
have equally many octets, and the next octets decide. -/
theorem encodeChar_append_lt {c d : Char} (h : c < d) (xs ys : Bytes) :
    encodeChar c ++ xs < encodeChar d ++ ys := by
  have hlt : c.toNat < d.toNat := h
  have hd : d.toNat < 0x110000 := by
    rcases d.valid with hv | hv
    · exact lt_trans hv (by decide)
    · exact hv.2
  have first {m n : Nat} (hn : n < 256) (hmn : m < n) (us vs : Bytes) :
      UInt8.ofNat m :: us < UInt8.ofNat n :: vs :=
    List.cons_lt_cons_iff.mpr (Or.inl (octet_lt hn hmn))
  have next {m n : Nat} (hmn : m = n) {us vs : Bytes} (htail : us < vs) :
      UInt8.ofNat m :: us < UInt8.ofNat n :: vs :=
    List.cons_lt_cons_iff.mpr (Or.inr ⟨congrArg _ hmn, htail⟩)
  simp only [encodeChar]
  generalize c.toNat = m at hlt ⊢
  generalize d.toNat = n at hlt hd ⊢
  split_ifs <;> try omega
  · exact first (by omega) hlt _ _
  · exact first (by omega) (by omega) _ _
  · exact first (by omega) (by omega) _ _
  · exact first (by omega) (by omega) _ _
  · rcases Nat.lt_or_ge (m / 0x40) (n / 0x40) with h1 | h1
    · exact first (by omega) (by omega) _ _
    · exact next (by omega) (first (by omega) (by omega) _ _)
  · exact first (by omega) (by omega) _ _
  · exact first (by omega) (by omega) _ _
  · rcases Nat.lt_or_ge (m / 0x1000) (n / 0x1000) with h1 | h1
    · exact first (by omega) (by omega) _ _
    · apply next (by omega)
      rcases Nat.lt_or_ge (m / 0x40) (n / 0x40) with h2 | h2
      · exact first (by omega) (by omega) _ _
      · exact next (by omega) (first (by omega) (by omega) _ _)
  · exact first (by omega) (by omega) _ _
  · rcases Nat.lt_or_ge (m / 0x40000) (n / 0x40000) with h1 | h1
    · exact first (by omega) (by omega) _ _
    · apply next (by omega)
      rcases Nat.lt_or_ge (m / 0x1000) (n / 0x1000) with h2 | h2
      · exact first (by omega) (by omega) _ _
      · apply next (by omega)
        rcases Nat.lt_or_ge (m / 0x40) (n / 0x40) with h3 | h3
        · exact first (by omega) (by omega) _ _
        · exact next (by omega) (first (by omega) (by omega) _ _)

theorem encode_cons (c : Char) (text : Text) : encode (c :: text) = encodeChar c ++ encode text :=
  rfl

theorem length_le_encode (text : Text) : text.length ≤ (encode text).length := by
  induction text with
  | nil => exact Nat.zero_le _
  | cons c rest ih =>
    have := List.length_pos_iff.mpr (encodeChar_ne_nil c)
    rw [encode_cons, List.length_append, List.length_cons]
    omega

theorem encode_lt_of_lt {a b : Text} (h : a < b) : encode a < encode b := by
  induction a generalizing b with
  | nil =>
    cases b with
    | nil => exact absurd h (lt_irrefl _)
    | cons d b =>
      have hne : encode (d :: b) ≠ [] := by
        rw [encode_cons]
        exact List.append_ne_nil_of_left_ne_nil (encodeChar_ne_nil d) _
      obtain ⟨octet, octets, hcons⟩ := List.exists_cons_of_ne_nil hne
      rw [hcons]
      exact List.nil_lt_cons _ _
  | cons c a ih =>
    cases b with
    | nil => exact absurd h (List.not_lt_nil _)
    | cons d b =>
      rw [encode_cons, encode_cons]
      rcases List.cons_lt_cons_iff.mp h with hcd | ⟨rfl, hab⟩
      · exact encodeChar_append_lt hcd _ _
      · exact List.append_left_lt (ih hab)

/-- **The order of texts is the order of their octets.** -/
theorem encode_lt_encode {a b : Text} : encode a < encode b ↔ a < b := by
  refine ⟨fun h => ?_, encode_lt_of_lt⟩
  rcases lt_trichotomy a b with hab | rfl | hba
  · exact hab
  · exact absurd h (List.lt_irrefl _)
  · exact absurd h (List.lt_asymm (encode_lt_of_lt hba))

theorem encode_injective {a b : Text} (h : encode a = encode b) : a = b := by
  rcases lt_trichotomy a b with hab | rfl | hba
  · exact absurd (encode_lt_of_lt hab) (h ▸ List.lt_irrefl _)
  · rfl
  · exact absurd (encode_lt_of_lt hba) (h ▸ List.lt_irrefl _)

end Utf8

end LayeredConfig
