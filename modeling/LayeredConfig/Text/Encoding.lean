import LayeredConfig.Text.Basic

/-!
# Text as octets and octets as text

Files hold octets, and the text in them is UTF-8. In a property file without a byte order mark these
octets stand for other characters, each of them for one of Windows-1252.
-/

namespace LayeredConfig

/-!
## UTF-8

Decoding looks at the front of the octets, which holds either a character or a piece that can not
be continued to one. Strict decoding refuses such a piece, lossy decoding shows each one as
U+FFFD. A refused piece is as long as it can be while some character still begins with it, so a
character cut short is one piece and a stray octet is one piece.
-/

/-- The content of a file. -/
abbrev Bytes := List UInt8

namespace Utf8

/-! ### Encoding -/

/-- The octets of one character: one below U+0080, two below U+0800, three below U+10000 and
four above. -/
def encodeChar (c : Char) : Bytes :=
  let n := c.toNat
  if n < 0x80 then [.ofNat n]
  else if n < 0x800 then [.ofNat (0xC0 + n / 0x40), .ofNat (0x80 + n % 0x40)]
  else if n < 0x10000 then
    [.ofNat (0xE0 + n / 0x1000), .ofNat (0x80 + n / 0x40 % 0x40), .ofNat (0x80 + n % 0x40)]
  else
    [.ofNat (0xF0 + n / 0x40000), .ofNat (0x80 + n / 0x1000 % 0x40),
      .ofNat (0x80 + n / 0x40 % 0x40), .ofNat (0x80 + n % 0x40)]

/-- The octets of a text. -/
def encode (text : Text) : Bytes :=
  text.flatMap encodeChar

/-! ### Decoding -/

/-- What octets begin with. -/
inductive Front where
  /-- A character, `width` octets long. -/
  | char (c : Char) (width : Nat)
  /-- A piece of `width` octets that begins no character. -/
  | invalid (width : Nat)
  deriving DecidableEq

/-- What a first octet announces: the bits it carries, how many octets are to follow, and the
least and the greatest value of the first of them. The narrower ranges exclude spellings that
are longer than necessary, surrogates, and code points above U+10FFFF. -/
def lead? (octet : Nat) : Option (Nat × Nat × Nat × Nat) :=
  if octet < 0x80 then some (octet, 0, 0x80, 0xBF)
  else if octet < 0xC2 then none
  else if octet < 0xE0 then some (octet - 0xC0, 1, 0x80, 0xBF)
  else if octet = 0xE0 then some (0, 2, 0xA0, 0xBF)
  else if octet = 0xED then some (0x0D, 2, 0x80, 0x9F)
  else if octet < 0xF0 then some (octet - 0xE0, 2, 0x80, 0xBF)
  else if octet = 0xF0 then some (0, 3, 0x90, 0xBF)
  else if octet < 0xF4 then some (octet - 0xF0, 3, 0x80, 0xBF)
  else if octet = 0xF4 then some (4, 3, 0x80, 0x8F)
  else none

/-- Reads the octets still owed to a character of which `width` octets with the bits `value`
have been read. -/
def follow (value width : Nat) : (owed low high : Nat) → Bytes → Front
  | 0, _, _, _ => .char (Char.ofNat value) width
  | _ + 1, _, _, [] => .invalid width
  | owed + 1, low, high, octet :: rest =>
    if low ≤ octet.toNat ∧ octet.toNat ≤ high then
      follow (value * 0x40 + (octet.toNat - 0x80)) (width + 1) owed 0x80 0xBF rest
    else .invalid width

/-- What the octets `octet :: rest` begin with. -/
def front (octet : UInt8) (rest : Bytes) : Front :=
  match lead? octet.toNat with
  | some (value, owed, low, high) => follow value 1 owed low high rest
  | none => .invalid 1

/-- Strict decoding when the next `skip` octets belong to a character already read. -/
def decodeFrom : (skip : Nat) → Bytes → Option Text
  | _, [] => some []
  | skip + 1, _ :: rest => decodeFrom skip rest
  | 0, octet :: rest =>
    match front octet rest with
    | .char c width => (decodeFrom (width - 1) rest).map (c :: ·)
    | .invalid _ => none

/-- The text that octets spell, if they are UTF-8. -/
def decode? (octets : Bytes) : Option Text :=
  decodeFrom 0 octets

/-- Lossy decoding when the next `skip` octets have been dealt with. -/
def decodeLossyFrom : (skip : Nat) → Bytes → Text
  | _, [] => []
  | skip + 1, _ :: rest => decodeLossyFrom skip rest
  | 0, octet :: rest =>
    match front octet rest with
    | .char c width => c :: decodeLossyFrom (width - 1) rest
    | .invalid width => '\uFFFD' :: decodeLossyFrom (width - 1) rest

/-- The text that octets spell, with U+FFFD for each piece that is not UTF-8. -/
def decodeLossy (octets : Bytes) : Text :=
  decodeLossyFrom 0 octets

end Utf8

/-!
## Windows-1252

The single octet encoding in which property files are read when they carry no byte order mark.
An octet stands for the code point of the same number, except for the octets 80 to 9F, most of
which stand for typographic characters. The five octets without an assignment stand for
themselves.
-/

namespace Windows1252

/-- The code points of the octets 80 to 9F, in order. -/
def upperControls : List Nat :=
  [0x20AC, 0x81, 0x201A, 0x0192, 0x201E, 0x2026, 0x2020, 0x2021,
   0x02C6, 0x2030, 0x0160, 0x2039, 0x0152, 0x8D, 0x017D, 0x8F,
   0x90, 0x2018, 0x2019, 0x201C, 0x201D, 0x2022, 0x2013, 0x2014,
   0x02DC, 0x2122, 0x0161, 0x203A, 0x0153, 0x9D, 0x017E, 0x0178]

/-- The character of one octet. -/
def decodeOctet (octet : UInt8) : Char :=
  if 0x80 ≤ octet.toNat then Char.ofNat (upperControls.getD (octet.toNat - 0x80) octet.toNat)
  else Char.ofNat octet.toNat

/-- The text of a sequence of octets; every octet is a character. -/
def decode (octets : Bytes) : Text :=
  octets.map decodeOctet

end Windows1252

end LayeredConfig
