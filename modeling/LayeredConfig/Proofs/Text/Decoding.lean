import LayeredConfig.Text.Encoding
import Mathlib.Tactic.SplitIfs

/-!
# Decoding octets

Strict decoding refuses octets that no text is spelled with; where it does not refuse, the octets
are those of the text, and lossy decoding reads the same text.  Main statements:

* `front_eq_char` — a character at the front of octets is spelled by these octets;
* `encode_of_decode?` — **what is decoded encodes to the octets again**, so different octets are
  decoded to different texts;
* `decodeLossy_of_decode?` — lossy decoding agrees with strict decoding.
-/

namespace LayeredConfig.Utf8

/-! ## Numbers made of octets -/

theorem toNat_ofNat {n : Nat} (h : n.isValidChar) : (Char.ofNat n).toNat = n := by
  unfold Char.ofNat
  rw [dif_pos h]
  rfl

theorem ofNat_eq {n : Nat} {o : UInt8} (h : n = o.toNat) : UInt8.ofNat n = o := by
  rw [h, UInt8.ofNat_toNat]

theorem encodeChar_one {a : UInt8} (ha : a.toNat < 0x80) :
    encodeChar (Char.ofNat a.toNat) = [a] := by
  rw [encodeChar, toNat_ofNat (Or.inl (by omega))]
  simp only [if_pos ha, UInt8.ofNat_toNat]

theorem encodeChar_two {a b : UInt8} {n : Nat} (ha : 0xC2 ≤ a.toNat ∧ a.toNat < 0xE0)
    (hb : 0x80 ≤ b.toNat ∧ b.toNat ≤ 0xBF)
    (hn : n = (a.toNat - 0xC0) * 0x40 + (b.toNat - 0x80)) :
    encodeChar (Char.ofNat n) = [a, b] := by
  rw [encodeChar, toNat_ofNat (Or.inl (by omega)), if_neg (by omega), if_pos (by omega),
    ofNat_eq (o := a) (by omega), ofNat_eq (o := b) (by omega)]

theorem encodeChar_three {a b c : UInt8} {n : Nat} (ha : 0xE0 ≤ a.toNat ∧ a.toNat < 0xF0)
    (hb : 0x80 ≤ b.toNat ∧ b.toNat ≤ 0xBF) (hc : 0x80 ≤ c.toNat ∧ c.toNat ≤ 0xBF)
    (hn : n = ((a.toNat - 0xE0) * 0x40 + (b.toNat - 0x80)) * 0x40 + (c.toNat - 0x80))
    (hlong : 0x800 ≤ n) (hvalid : n.isValidChar) :
    encodeChar (Char.ofNat n) = [a, b, c] := by
  rw [encodeChar, toNat_ofNat hvalid, if_neg (by omega), if_neg (by omega), if_pos (by omega),
    ofNat_eq (o := a) (by omega), ofNat_eq (o := b) (by omega),
    ofNat_eq (o := c) (by omega)]

theorem encodeChar_four {a b c d : UInt8} {n : Nat} (ha : 0xF0 ≤ a.toNat)
    (hb : 0x80 ≤ b.toNat ∧ b.toNat ≤ 0xBF) (hc : 0x80 ≤ c.toNat ∧ c.toNat ≤ 0xBF)
    (hd : 0x80 ≤ d.toNat ∧ d.toNat ≤ 0xBF)
    (hn : n = (((a.toNat - 0xF0) * 0x40 + (b.toNat - 0x80)) * 0x40 + (c.toNat - 0x80)) * 0x40 +
      (d.toNat - 0x80))
    (hlong : 0x10000 ≤ n) (hvalid : n.isValidChar) :
    encodeChar (Char.ofNat n) = [a, b, c, d] := by
  rw [encodeChar, toNat_ofNat hvalid, if_neg (by omega), if_neg (by omega), if_neg (by omega),
    ofNat_eq (o := a) (by omega), ofNat_eq (o := b) (by omega),
    ofNat_eq (o := c) (by omega), ofNat_eq (o := d) (by omega)]

/-! ## The front of octets -/

/-- What a first octet can announce. -/
theorem lead?_eq_some {octet value owed low high : Nat}
    (h : lead? octet = some (value, owed, low, high)) :
    (owed = 0 ∧ octet < 0x80 ∧ value = octet) ∨
      (owed = 1 ∧ 0xC2 ≤ octet ∧ octet < 0xE0 ∧ value = octet - 0xC0 ∧ low = 0x80 ∧
        high = 0xBF) ∨
      (owed = 2 ∧ 0xE0 ≤ octet ∧ octet < 0xF0 ∧ value = octet - 0xE0 ∧ 0x80 ≤ low ∧
        high ≤ 0xBF ∧ (octet = 0xE0 → low = 0xA0) ∧ (octet = 0xED → high = 0x9F)) ∨
      (owed = 3 ∧ 0xF0 ≤ octet ∧ octet ≤ 0xF4 ∧ value = octet - 0xF0 ∧ 0x80 ≤ low ∧
        high ≤ 0xBF ∧ (octet = 0xF0 → low = 0x90) ∧ (octet = 0xF4 → high = 0x8F)) := by
  -- One case for each range of first octets.
  grind [lead?]

/-- One more octet of a character. -/
theorem follow_succ {value width owed low high : Nat} {octets : Bytes} {c : Char} {total : Nat}
    (h : follow value width (owed + 1) low high octets = .char c total) :
    ∃ octet rest, octets = octet :: rest ∧ (low ≤ octet.toNat ∧ octet.toNat ≤ high) ∧
      follow (value * 0x40 + (octet.toNat - 0x80)) (width + 1) owed 0x80 0xBF rest =
        .char c total := by
  cases octets with
  | nil => simp [follow] at h
  | cons octet rest =>
    rw [follow] at h
    split_ifs at h with hrange
    exact ⟨octet, rest, rfl, hrange, h⟩

theorem follow_zero {value width low high : Nat} {octets : Bytes} {c : Char} {total : Nat}
    (h : follow value width 0 low high octets = .char c total) :
    c = Char.ofNat value ∧ total = width := by
  simpa [follow, eq_comm] using h

/-- A character at the front of octets is spelled by these octets. -/
theorem front_eq_char {octet : UInt8} {rest : Bytes} {c : Char} {width : Nat}
    (h : front octet rest = .char c width) :
    ∃ tail more, rest = tail ++ more ∧ width - 1 = tail.length ∧ encodeChar c = octet :: tail := by
  unfold front at h
  cases hlead : lead? octet.toNat with
  | none => simp [hlead] at h
  | some announced =>
    obtain ⟨value, owed, low, high⟩ := announced
    simp only [hlead] at h
    rcases lead?_eq_some hlead with hone | htwo | hthree | hfour
    · obtain ⟨rfl, ha, rfl⟩ := hone
      obtain ⟨hchar, rfl⟩ := follow_zero h
      rw [hchar]
      exact ⟨[], rest, rfl, rfl, encodeChar_one ha⟩
    · obtain ⟨rfl, ha, ha', hvalue, rfl, rfl⟩ := htwo
      obtain ⟨b, more, rfl, hb, h⟩ := follow_succ h
      obtain ⟨hchar, rfl⟩ := follow_zero h
      rw [hchar]
      exact ⟨[b], more, rfl, rfl, encodeChar_two ⟨ha, ha'⟩ hb (by rw [hvalue])⟩
    · obtain ⟨rfl, ha, ha', hvalue, hlow, hhigh, he0, hed⟩ := hthree
      obtain ⟨b, more, rfl, hb, h⟩ := follow_succ h
      obtain ⟨b', more, rfl, hb', h⟩ := follow_succ h
      obtain ⟨hchar, rfl⟩ := follow_zero h
      rw [hchar]
      refine ⟨[b, b'], more, rfl, rfl,
        encodeChar_three ⟨ha, ha'⟩ (by omega) hb' (by rw [hvalue]) ?_ ?_⟩
      · omega
      · unfold Nat.isValidChar
        omega
    · obtain ⟨rfl, ha, ha', hvalue, hlow, hhigh, hf0, hf4⟩ := hfour
      obtain ⟨b, more, rfl, hb, h⟩ := follow_succ h
      obtain ⟨b', more, rfl, hb', h⟩ := follow_succ h
      obtain ⟨b'', more, rfl, hb'', h⟩ := follow_succ h
      obtain ⟨hchar, rfl⟩ := follow_zero h
      rw [hchar]
      refine ⟨[b, b', b''], more, rfl, rfl,
        encodeChar_four ha (by omega) hb' hb'' (by rw [hvalue]) ?_ ?_⟩
      · omega
      · unfold Nat.isValidChar
        omega

/-! ## Texts -/

/-- Octets that belong to a character already read are passed over. -/
theorem decodeFrom_append (tail more : Bytes) :
    decodeFrom tail.length (tail ++ more) = decodeFrom 0 more := by
  induction tail with
  | nil => rfl
  | cons octet tail ih => exact ih

theorem decodeLossyFrom_append (tail more : Bytes) :
    decodeLossyFrom tail.length (tail ++ more) = decodeLossyFrom 0 more := by
  induction tail with
  | nil => rfl
  | cons octet tail ih => exact ih

/-- Octets that are decoded are those of a first character and what is decoded after it. -/
theorem decode?_eq_cons {octets : Bytes} {c : Char} {text : Text}
    (h : decode? octets = some (c :: text)) :
    ∃ more, octets = encodeChar c ++ more ∧ decode? more = some text ∧
      decodeLossy octets = c :: decodeLossy more := by
  cases octets with
  | nil => simp [decode?, decodeFrom] at h
  | cons octet rest =>
    rw [decode?, decodeFrom] at h
    cases hfront : front octet rest with
    | invalid width => simp [hfront] at h
    | char first width =>
      obtain ⟨tail, more, rfl, hwidth, hchar⟩ := front_eq_char hfront
      simp only [hfront, hwidth, decodeFrom_append] at h
      obtain ⟨decoded, hdecoded, heq⟩ := Option.map_eq_some_iff.mp h
      obtain ⟨rfl, rfl⟩ := List.cons.inj heq
      refine ⟨more, by rw [hchar, List.cons_append], hdecoded, ?_⟩
      simp only [decodeLossy, decodeLossyFrom, hfront, hwidth, decodeLossyFrom_append]

theorem decode?_eq_nil {octets : Bytes} (h : decode? octets = some []) : octets = [] := by
  cases octets with
  | nil => rfl
  | cons octet rest =>
    rw [decode?, decodeFrom] at h
    cases hfront : front octet rest with
    | invalid width => simp [hfront] at h
    | char first width => simp [hfront] at h

/-- **What is decoded encodes to the octets again.** -/
theorem encode_of_decode? {octets : Bytes} {text : Text} (h : decode? octets = some text) :
    encode text = octets := by
  induction text generalizing octets with
  | nil => exact (decode?_eq_nil h).symm
  | cons c text ih =>
    obtain ⟨more, rfl, hmore, -⟩ := decode?_eq_cons h
    rw [← ih hmore]
    rfl

/-- Lossy decoding reads what strict decoding reads. -/
theorem decodeLossy_of_decode? {octets : Bytes} {text : Text} (h : decode? octets = some text) :
    decodeLossy octets = text := by
  induction text generalizing octets with
  | nil =>
    rw [decode?_eq_nil h]
    rfl
  | cons c text ih =>
    obtain ⟨more, -, hmore, hlossy⟩ := decode?_eq_cons h
    rw [hlossy, ih hmore]

/-- Octets of texts are the same if lossy decoding makes no difference between them. -/
theorem eq_of_decodeLossy_eq {octets octets' : Bytes} (h : (decode? octets).isSome)
    (h' : (decode? octets').isSome) (hsame : decodeLossy octets = decodeLossy octets') :
    octets = octets' := by
  obtain ⟨text, htext⟩ := Option.isSome_iff_exists.mp h
  obtain ⟨text', htext'⟩ := Option.isSome_iff_exists.mp h'
  rw [decodeLossy_of_decode? htext, decodeLossy_of_decode? htext'] at hsame
  rw [← encode_of_decode? htext, ← encode_of_decode? htext', hsame]

end LayeredConfig.Utf8
