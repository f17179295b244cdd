import LayeredConfig.Text.Encoding

/-!
# SHA-256

The hash function SHA-256 on octets. The message is padded to whole blocks of sixteen words; each
block is expanded to a schedule of sixty-four words and mixed into a chain of eight words, which
at the end is the digest.
-/

namespace LayeredConfig.Sha256

/-- A word of the computation; its arithmetic is modulo 2 ^ 32. -/
abbrev Word := UInt32

/-- The eight words carried from block to block. -/
structure Chain where
  a : Word
  b : Word
  c : Word
  d : Word
  e : Word
  f : Word
  g : Word
  h : Word

/-- The chain before the first block: the first fractional bits of the square roots of the first
eight primes. -/
def initial : Chain where
  a := 0x6a09e667
  b := 0xbb67ae85
  c := 0x3c6ef372
  d := 0xa54ff53a
  e := 0x510e527f
  f := 0x9b05688c
  g := 0x1f83d9ab
  h := 0x5be0cd19

/-- The constants of the sixty-four rounds: the first fractional bits of the cube roots of the
first sixty-four primes. -/
def roundConstants : List Word :=
  [0x428a2f98, 0x71374491, 0xb5c0fbcf, 0xe9b5dba5, 0x3956c25b, 0x59f111f1, 0x923f82a4, 0xab1c5ed5,
   0xd807aa98, 0x12835b01, 0x243185be, 0x550c7dc3, 0x72be5d74, 0x80deb1fe, 0x9bdc06a7, 0xc19bf174,
   0xe49b69c1, 0xefbe4786, 0x0fc19dc6, 0x240ca1cc, 0x2de92c6f, 0x4a7484aa, 0x5cb0a9dc, 0x76f988da,
   0x983e5152, 0xa831c66d, 0xb00327c8, 0xbf597fc7, 0xc6e00bf3, 0xd5a79147, 0x06ca6351, 0x14292967,
   0x27b70a85, 0x2e1b2138, 0x4d2c6dfc, 0x53380d13, 0x650a7354, 0x766a0abb, 0x81c2c92e, 0x92722c85,
   0xa2bfe8a1, 0xa81a664b, 0xc24b8b70, 0xc76c51a3, 0xd192e819, 0xd6990624, 0xf40e3585, 0x106aa070,
   0x19a4c116, 0x1e376c08, 0x2748774c, 0x34b0bcb5, 0x391c0cb3, 0x4ed8aa4a, 0x5b9cca4f, 0x682e6ff3,
   0x748f82ee, 0x78a5636f, 0x84c87814, 0x8cc70208, 0x90befffa, 0xa4506ceb, 0xbef9a3f7, 0xc67178f2]

/-- The word rotated to the right. -/
def rotate (w : Word) (places : Word) : Word :=
  (w >>> places) ||| (w <<< (32 - places))

/-! ## Padding -/

/-- A number as eight octets, the most significant first. -/
def lengthOctets (n : Nat) : Bytes :=
  [56, 48, 40, 32, 24, 16, 8, 0].map fun shift => UInt8.ofNat (n >>> shift)

/-- The message followed by a single one bit, zeros, and its length in bits, so that its length
is a multiple of sixty-four octets. -/
def pad (message : Bytes) : Bytes :=
  let zeros := (119 - message.length % 64) % 64
  message ++ 0x80 :: List.replicate zeros 0 ++ lengthOctets (8 * message.length)

/-- The big-endian words of a sequence of octets. -/
def words : Bytes → List Word
  | a :: b :: c :: d :: rest =>
    (a.toUInt32 <<< 24 ||| b.toUInt32 <<< 16 ||| c.toUInt32 <<< 8 ||| d.toUInt32) :: words rest
  | _ => []

/-! ## Compression -/

/-- The next word of a schedule, from the sixteen words before it. -/
def nextWord (window : List Word) : Word :=
  let at_ (i : Nat) : Word := window.getD i 0
  let s0 := rotate (at_ 1) 7 ^^^ rotate (at_ 1) 18 ^^^ (at_ 1 >>> 3)
  let s1 := rotate (at_ 14) 17 ^^^ rotate (at_ 14) 19 ^^^ (at_ 14 >>> 10)
  at_ 0 + s0 + at_ 9 + s1

/-- The words of a schedule from the first word of a window of sixteen on. -/
def schedule : (count : Nat) → (window : List Word) → List Word
  | 0, _ => []
  | count + 1, window =>
    window.getD 0 0 :: schedule count (window.drop 1 ++ [nextWord window])

/-- One round with its constant and its word of the schedule. -/
def round (s : Chain) (constant word : Word) : Chain :=
  let sum1 := rotate s.e 6 ^^^ rotate s.e 11 ^^^ rotate s.e 25
  let choice := (s.e &&& s.f) ^^^ ((~~~ s.e) &&& s.g)
  let t1 := s.h + sum1 + choice + constant + word
  let sum0 := rotate s.a 2 ^^^ rotate s.a 13 ^^^ rotate s.a 22
  let majority := (s.a &&& s.b) ^^^ (s.a &&& s.c) ^^^ (s.b &&& s.c)
  { a := t1 + sum0 + majority, b := s.a, c := s.b, d := s.c
    e := s.d + t1, f := s.e, g := s.f, h := s.g }

/-- The chain after a block of sixteen words. -/
def compress (chain : Chain) (block : List Word) : Chain :=
  let mixed := (roundConstants.zip (schedule 64 block)).foldl
    (fun s (constant, word) => round s constant word) chain
  { a := chain.a + mixed.a, b := chain.b + mixed.b, c := chain.c + mixed.c, d := chain.d + mixed.d
    e := chain.e + mixed.e, f := chain.f + mixed.f, g := chain.g + mixed.g, h := chain.h + mixed.h }

/-- The chain after a number of blocks. -/
def digestBlocks : (blocks : Nat) → Chain → List Word → Chain
  | 0, chain, _ => chain
  | blocks + 1, chain, message =>
    digestBlocks blocks (compress chain (message.take 16)) (message.drop 16)

/-- The words of a chain. -/
def Chain.toList (s : Chain) : List Word :=
  [s.a, s.b, s.c, s.d, s.e, s.f, s.g, s.h]

/-- The eight words of the digest. -/
def digest (message : Bytes) : List Word :=
  let padded := words (pad message)
  (digestBlocks (padded.length / 16) initial padded).toList

/-! ## The checksum of a file -/

/-- A word as eight hexadecimal digits. -/
def hexWord (w : Word) : Text :=
  let digits := Nat.toDigits 16 w.toNat
  List.replicate (8 - digits.length) '0' ++ digits

/-- The name of the hash function and the digest in hexadecimal. -/
def checksum (content : Bytes) : Text :=
  "sha256:".toList ++ (digest content).flatMap hexWord

end LayeredConfig.Sha256
